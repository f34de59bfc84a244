import DecisionEngine.Value
/-!
# Attribute sets

A finite map from names to values, kept as two columns of the same length: the names in strictly
ascending order, and at the place of each its value. The order is part of the type, so two sets
with the same look-ups are the same columns and have the same encoding. Places are found by halving.

* `set`, `erase`, `mergedWith` change a set; `find?` looks a name up.
* `entries` are the names with their values.
* `same` compares two sets by their names and, value by value, with `Value.same`.
-/

namespace DecisionEngine

/-- A named value. -/
abbrev Entry := Bytes × Value

/-- A finite map from names to values, in columns. -/
structure AttributeSet where
  names : List Bytes
  values : List Value
  ascending : names.Pairwise (· < ·)
  aligned : names.length = values.length
  deriving DecidableEq

namespace AttributeSet

/-- The set without entries. -/
def empty : AttributeSet := ⟨[], [], List.Pairwise.nil, rfl⟩

instance : Inhabited AttributeSet := ⟨empty⟩

/-- How many names have a value. -/
def size (a : AttributeSet) : Nat := a.names.length

/-- The names with their values, in order. -/
def entries (a : AttributeSet) : List Entry := a.names.zip a.values

/-! ## Places -/

/-- The place of a name: as many names stand in front of it as are below it. -/
def place (a : AttributeSet) (name : Bytes) : Nat :=
  a.names.length - (lowerBound name a.names a.names.length).length

section

variable (a : AttributeSet) (name : Bytes)

theorem lowerBound_names : lowerBound name a.names a.names.length =
    a.names.dropWhile fun x => decide (x < name) :=
  lowerBound_eq_dropWhile (a.ascending.imp List.le_of_lt) (Nat.le_refl _) (by simp)

theorem place_eq : a.place name = (a.names.takeWhile fun x => decide (x < name)).length := by
  have hsplit := congrArg List.length
    (List.takeWhile_append_dropWhile (p := fun x => decide (x < name)) (l := a.names))
  rw [List.length_append] at hsplit
  rw [place, lowerBound_names]
  omega

/-- In front of the place of a name are the names below it. -/
theorem take_place :
    a.names.take (a.place name) = a.names.takeWhile fun x => decide (x < name) := by
  rw [place_eq]
  exact (congrArg (List.take _) List.takeWhile_append_dropWhile.symm).trans List.take_left

/-- Behind the place of a name are the names that are not below it. -/
theorem drop_place :
    a.names.drop (a.place name) = a.names.dropWhile fun x => decide (x < name) := by
  rw [place_eq]
  exact (congrArg (List.drop _) List.takeWhile_append_dropWhile.symm).trans List.drop_left

variable {a name}

theorem below_of_mem_take {x : Bytes} (h : x ∈ a.names.take (a.place name)) : x < name := by
  rw [take_place] at h
  simpa using List.all_eq_true.1 List.all_takeWhile x h

/-- Nothing behind the place of a name is below it. -/
theorem le_of_mem_drop {x : Bytes} (h : x ∈ a.names.drop (a.place name)) : name ≤ x := by
  have hfirst := List.head?_dropWhile_not (fun x => decide (x < name)) a.names
  have hsorted := a.ascending.sublist (List.drop_sublist (a.place name) a.names)
  rw [← drop_place] at hfirst
  generalize a.names.drop (a.place name) = back at h hfirst hsorted
  cases back with
  | nil => cases h
  | cons y rest =>
    have hy : name ≤ y := List.not_lt.1 (by simpa using hfirst)
    rcases List.mem_cons.1 h with rfl | hx
    · exact hy
    · exact List.le_of_lt (List.lt_of_le_of_lt hy ((List.pairwise_cons.1 hsorted).1 x hx))

/-- If a name is not at its place, everything behind the place is above it. -/
theorem above_of_mem_drop (hfree : a.names[a.place name]? ≠ some name) {x : Bytes}
    (h : x ∈ a.names.drop (a.place name)) : name < x := by
  have hsorted := a.ascending.sublist (List.drop_sublist (a.place name) a.names)
  have hle : ∀ x ∈ a.names.drop (a.place name), name ≤ x := fun _ => le_of_mem_drop
  rw [← List.head?_drop] at hfree
  generalize a.names.drop (a.place name) = back at h hsorted hfree hle
  cases back with
  | nil => cases h
  | cons y rest =>
    have hy : name < y := by
      refine Classical.byContradiction fun hge => hfree ?_
      exact congrArg some (List.le_antisymm (List.not_lt.1 hge) (hle y List.mem_cons_self))
    rcases List.mem_cons.1 h with rfl | hx
    · exact hy
    · exact List.lt_trans hy ((List.pairwise_cons.1 hsorted).1 x hx)

end

/-! ## Operations -/

/-- The value of a name. -/
def find? (a : AttributeSet) (name : Bytes) : Option Value :=
  if a.names[a.place name]? = some name then a.values[a.place name]? else none

/-- A new name takes its place, and its value the same one; what is behind them moves up. -/
def insertAt (a : AttributeSet) (name : Bytes) (value : Value)
    (free : a.names[a.place name]? ≠ some name) : AttributeSet where
  names := a.names.take (a.place name) ++ name :: a.names.drop (a.place name)
  values := a.values.take (a.place name) ++ value :: a.values.drop (a.place name)
  ascending := by
    refine List.pairwise_append.2 ⟨a.ascending.sublist (List.take_sublist ..),
      List.pairwise_cons.2 ⟨fun x hx => above_of_mem_drop free hx,
        a.ascending.sublist (List.drop_sublist ..)⟩, fun x hx y hy => ?_⟩
    have hx := below_of_mem_take hx
    rcases List.mem_cons.1 hy with rfl | hy
    · exact hx
    · exact List.lt_trans hx (above_of_mem_drop free hy)
  aligned := by simp [a.aligned]

/-- Gives a name a value; one that it had is replaced. -/
def set (a : AttributeSet) (name : Bytes) (value : Value) : AttributeSet :=
  if known : a.names[a.place name]? = some name then
    { a with
      values := a.values.set (a.place name) value
      aligned := by rw [List.length_set, a.aligned] }
  else a.insertAt name value known

/-- Takes a name and its value out. -/
def erase (a : AttributeSet) (name : Bytes) : AttributeSet :=
  if a.names[a.place name]? = some name then
    { names := a.names.eraseIdx (a.place name)
      values := a.values.eraseIdx (a.place name)
      ascending := a.ascending.sublist (List.eraseIdx_sublist ..)
      aligned := by rw [List.length_eraseIdx, List.length_eraseIdx, a.aligned] }
  else a

/-- The entries one after another; a later one replaces an earlier one of its name. -/
def setAll (a : AttributeSet) (entries : List Entry) : AttributeSet :=
  entries.foldl (fun acc e => acc.set e.1 e.2) a

/-- The set that a list of entries makes. -/
def ofList (entries : List Entry) : AttributeSet := empty.setAll entries

/-- Both sets together; where both have a name, the value of `overrides` counts. -/
def mergedWith (a overrides : AttributeSet) : AttributeSet := a.setAll overrides.entries

/-- Equality as rules see it: the same names with values that are `Value.same`. -/
def same (a b : AttributeSet) : Bool :=
  a.names == b.names && (a.values.zip b.values).all fun p => p.1.same p.2

/-- The set as text, such as `{a=1, b=x}` with curly brackets. -/
def toText (a : AttributeSet) : Bytes :=
  utf8 "\x7b" ++
    Bytes.joined (utf8 ", ") (a.entries.map fun e => e.1 ++ utf8 "=" ++ e.2.toText) ++
    utf8 "\x7d"

end AttributeSet
end DecisionEngine
