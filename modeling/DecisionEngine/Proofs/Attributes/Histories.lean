import DecisionEngine.Proofs.Attributes.Entries
import DecisionEngine.Wire.Writer
import Mathlib.Logic.Function.Basic
/-!
# Attribute sets are finite maps

However a set came about, by setting and erasing names and by merging sets, its columns hold the map
that the changes describe, and nothing else: two histories that describe the same map end in the
same columns, and so in the same bytes.

* `AttributeSet.History` — changes from the empty set on.
* `AttributeSet.History.find?_reached` — look-ups in a set follow its history.
* `AttributeSet.canonical_columns` — the map determines the columns.
-/

namespace DecisionEngine
namespace AttributeSet

/-- How a set came about.  What is merged into it has a history as well. -/
inductive History
  | empty
  | set (h : History) (name : Bytes) (value : Value)
  | erase (h : History) (name : Bytes)
  | merge (h overrides : History)

namespace History

/-- The set that a history ends in. -/
def reached : History → AttributeSet
  | empty => .empty
  | set h name value => h.reached.set name value
  | erase h name => h.reached.erase name
  | merge h overrides => h.reached.mergedWith overrides.reached

/-- The map that a history describes. -/
def map : History → Bytes → Option Value
  | empty => fun _ => none
  | set h name value => Function.update h.map name (some value)
  | erase h name => Function.update h.map name none
  | merge h overrides => fun name => (overrides.map name).or (h.map name)

/-- Looking up in a set follows its history. -/
theorem find?_reached (h : History) (name : Bytes) : h.reached.find? name = h.map name := by
  induction h generalizing name with
  | empty => rfl
  | set h other value ih => rw [reached, find?_set, map, Function.update_apply, ih]
  | erase h other ih => rw [reached, find?_erase, map, Function.update_apply, ih]
  | merge h overrides ih iho => rw [reached, find?_mergedWith, map, ih, iho]

end History

/-- **A set is the canonical form of a finite map.**  After any changes the names ascend strictly,
and there are as many values; the names are those that the changes give a value, and each is looked
up with it.  Two sets with the same look-ups have the same columns and the same encoding. -/
theorem canonical_columns (h : History) :
    h.reached.names.Pairwise (· < ·) ∧ h.reached.names.length = h.reached.values.length ∧
      (∀ name, h.reached.find? name = h.map name) ∧
      (∀ name, name ∈ h.reached.names ↔ (h.map name).isSome) ∧
      ∀ h' : History, (∀ name, h.reached.find? name = h'.reached.find? name) →
        h.reached.names = h'.reached.names ∧ h.reached.values = h'.reached.values ∧
          Wire.attributes h.reached = Wire.attributes h'.reached := by
  refine ⟨h.reached.ascending, h.reached.aligned, h.find?_reached, fun name => ?_, fun h' hsame => ?_⟩
  · rw [← h.find?_reached, ← Option.ne_none_iff_isSome, ne_eq, find?_eq_none_iff, not_not]
  · rw [ext_find? hsame]
    exact ⟨rfl, rfl, rfl⟩

/-- Two names, and a third one that is taken out again. -/
def changed : History :=
  ((((History.empty.set (utf8 "b") (.int 1)).set (utf8 "c") .null).set (utf8 "a") (.int 2)).erase
    (utf8 "c"))

/-- The same names, one of which a merge gives another value. -/
def merged : History :=
  (History.empty.set (utf8 "a") (.int 7)).merge
    ((History.empty.set (utf8 "a") (.int 2)).set (utf8 "b") (.int 1))

theorem canonical_columns_sample :
    (∀ name, changed.reached.find? name = merged.reached.find? name) ∧
      changed.reached.names = [utf8 "a", utf8 "b"] ∧
      Wire.attributes changed.reached = Wire.attributes merged.reached := by
  have hsame : ∀ name, changed.reached.find? name = merged.reached.find? name := by
    intro name
    have hapart : utf8 "a" ≠ utf8 "b" ∧ utf8 "a" ≠ utf8 "c" ∧ utf8 "b" ≠ utf8 "c" := by decide
    rw [changed.find?_reached, merged.find?_reached]
    simp only [changed, merged, History.map, Function.update_apply]
    grind
  obtain ⟨-, -, -, -, hcanonical⟩ := canonical_columns changed
  exact ⟨hsame, by decide, (hcanonical merged hsame).2.2⟩

end AttributeSet
end DecisionEngine
