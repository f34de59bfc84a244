/-!
# Keyed lists

A list of keys with values, in the order in which the keys came in. A key that comes again keeps
its place.

* `Keyed.assign`: gives a key a value, old or new.
* `Keyed.keep`: gives a key a value unless it has one.
* `Keyed.remove`: takes a key out.
-/

namespace DecisionEngine
namespace Keyed

variable {κ α : Type} [DecidableEq κ]

/-- The value of a key. -/
def find? (entries : List (κ × α)) (key : κ) : Option α :=
  (entries.find? (·.1 = key)).map (·.2)

/-- Gives a key a value; a known key keeps its place, a new one comes last. -/
def assign (key : κ) (value : α) : List (κ × α) → List (κ × α)
  | [] => [(key, value)]
  | e :: rest => if e.1 = key then (key, value) :: rest else e :: assign key value rest

/-- Gives a key a value unless it has one; a new key comes last. -/
def keep (key : κ) (value : α) (entries : List (κ × α)) : List (κ × α) :=
  if (find? entries key).isSome then entries else entries ++ [(key, value)]

/-- Takes a key out. -/
def remove (key : κ) (entries : List (κ × α)) : List (κ × α) :=
  entries.filter fun e => decide (e.1 ≠ key)

/-- The latest entries, at most `capacity` of them. -/
def latest (capacity : Nat) (entries : List (κ × α)) : List (κ × α) :=
  entries.drop (entries.length - capacity)

end Keyed
end DecisionEngine
