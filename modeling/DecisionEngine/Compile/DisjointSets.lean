/-!
# Disjoint sets

Sets of numbers below `n`, kept as a forest: each number points to a parent, and two numbers are in
one set exactly if they are in one tree. No parent is larger than what points to it, so every walk
to the parents ends, and the root of a tree is the smallest number of its set. A walk halves its
path: each number that it passes is pointed to the parent of its parent.

* `DisjointSets.find`: the root of a number, with the forest after the walk.
* `DisjointSets.unite`: makes one set of two.
* `DisjointSets.groups`: all sets.
-/

namespace DecisionEngine

/-- A forest of the numbers below `n`, given by the parent of each; a root is its own parent. -/
structure DisjointSets (n : Nat) where
  parents : Vector (Fin n) n
  parent_le : ∀ v : Fin n, parents[v] ≤ v

namespace DisjointSets

variable {n : Nat}

/-- Every number in a set of its own. -/
def discrete (n : Nat) : DisjointSets n := ⟨Vector.ofFn id, fun v => by simp⟩

/-- What a number points to. -/
def parent (d : DisjointSets n) (v : Fin n) : Fin n := d.parents[v]

/-- Points `v` to a number that is not larger. -/
def point (d : DisjointSets n) (v target : Fin n) (h : target ≤ v) : DisjointSets n where
  parents := d.parents.set v target
  parent_le w := by
    rw [Fin.getElem_fin, Vector.getElem_set]
    split
    · next hvw => exact Fin.ext hvw ▸ h
    · exact d.parent_le w

/-- The parent of the parent of a number is not larger than its parent. -/
theorem grandparent_le (d : DisjointSets n) (v : Fin n) : d.parent (d.parent v) ≤ d.parent v :=
  d.parent_le (d.parent v)

/-- The root that a number leads to, and the forest in which the path to it is halved. -/
def find (d : DisjointSets n) (v : Fin n) : Fin n × DisjointSets n :=
  if _stays : d.parent v = v then (v, d)
  else
    let next := d.parent (d.parent v)
    (d.point v next (Nat.le_trans (d.grandparent_le v) (d.parent_le v))).find next
termination_by v.val
decreasing_by
  have hlt : (d.parent v).val < v.val :=
    Nat.lt_of_le_of_ne (d.parent_le v) fun h => _stays (Fin.ext h)
  exact Nat.lt_of_le_of_lt (d.grandparent_le v) hlt

/-- Makes one set of the sets of two numbers: the larger of the two roots is pointed to the smaller
one. -/
def unite (d : DisjointSets n) (a b : Fin n) : DisjointSets n :=
  let (ra, d) := d.find a
  let (rb, d) := d.find b
  if below : ra < rb then d.point rb ra (Nat.le_of_lt below)
  else if above : rb < ra then d.point ra rb (Nat.le_of_lt above)
  else d

/-- Numbers with their roots, found one after another. -/
def findAll (d : DisjointSets n) : List (Fin n) → List (Fin n × Fin n)
  | [] => []
  | v :: rest =>
    let (root, d) := d.find v
    (v, root) :: d.findAll rest

/-- All sets in the order of their roots, each in ascending order. -/
def groups (d : DisjointSets n) : List (List (Fin n)) :=
  let found := d.findAll (List.finRange n)
  ((List.finRange n).filter fun root => found.any (·.2 == root)).map fun root =>
    (found.filter (·.2 == root)).map (·.1)

end DisjointSets
end DecisionEngine
