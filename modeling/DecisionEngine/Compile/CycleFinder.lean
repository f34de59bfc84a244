/-!
# The search for cycles

Tarjan's algorithm. The vertices of a graph are numbered in the order in which a depth-first search
comes to them. Each is put on a stack, and stays there until the search knows everything that can
be reached from it; the lowest number that a vertex can get back to says whether it is the first
vertex of its strongly connected component. If so, the component is what lies on the stack down to
it, and it is recorded if it contains a cycle: if it has several vertices, or a self loop.
-/

namespace DecisionEngine

/-- The successors of each of `n` vertices. An edge may be listed more than once, and may lead back
to where it starts. -/
abbrev Adjacency (n : Nat) : Type := Fin n → List (Fin n)

namespace CycleFinder

variable {n : Nat}

/-- What a search has come to. The number of a vertex is its place in `visited`. -/
structure Search (n : Nat) where
  visited : List (Fin n)
  stack : List (Fin n)
  cycles : List (List (Fin n))

namespace Search

/-- Nothing was visited. -/
def start : Search n := ⟨[], [], []⟩

/-- The number of a vertex. -/
def number (s : Search n) (v : Fin n) : Nat := s.visited.idxOf v

/-- Comes to a vertex. -/
def enter (v : Fin n) (s : Search n) : Search n := { s with
  visited := s.visited ++ [v]
  stack := v :: s.stack }

/-- What lies on the stack down to a vertex. -/
def component (s : Search n) (v : Fin n) : List (Fin n) := s.stack.takeWhile (· != v) ++ [v]

/-- Takes the component of its first vertex off the stack, and records it if it has a cycle. -/
def close (next : Adjacency n) (v : Fin n) (s : Search n) : Search n := { s with
  stack := (s.stack.dropWhile (· != v)).tail
  cycles :=
    if 1 < (s.component v).length ∨ v ∈ next v then
      s.cycles ++ [(s.component v).mergeSort fun a b => decide (a ≤ b)]
    else s.cycles }

end Search

/-- Follows an edge to `w`. A vertex that is new is visited; of one that is on the stack the number
counts; one whose component is closed is passed over. -/
def follow (visit : Fin n → Search n → Nat × Search n) (found : Nat × Search n) (w : Fin n) :
    Nat × Search n :=
  let (low, s) := found
  if w ∉ s.visited then
    let (reached, s) := visit w s
    (min low reached, s)
  else if w ∈ s.stack then (min low (s.number w), s)
  else (low, s)

/-- Visits a vertex: the lowest number it can get back to, and the state after it. `depth` is a
bound for how deep the visits are nested. -/
def connect (next : Adjacency n) : (depth : Nat) → Fin n → Search n → Nat × Search n
  | 0, v, s => (s.number v, s)
  | depth + 1, v, s =>
    let (low, t) := (next v).foldl (follow (connect next depth)) (s.visited.length, s.enter v)
    (low, if low = s.visited.length then t.close next v else t)

/-- Visits a vertex unless it was visited before. -/
def visitOnce (next : Adjacency n) (s : Search n) (v : Fin n) : Search n :=
  if v ∈ s.visited then s else (connect next n v s).2

/-- The strongly connected components that contain a cycle, each in ascending order. -/
def run (next : Adjacency n) : List (List (Fin n)) :=
  ((List.finRange n).foldl (visitOnce next) .start).cycles.mergeSort fun c d => !decide (d < c)

end CycleFinder
end DecisionEngine
