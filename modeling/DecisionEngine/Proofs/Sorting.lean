import DecisionEngine.Bytes
import Mathlib.Data.List.Sort
/-!
# Sorted lists

Ids, edges and names are kept in sorted lists without duplicates.  Such a list depends on nothing
but its members, so it does not show in which order they came, nor how often.

* `pairwise_mergeSort_on` — sorting by names puts them in order.
* `StrictOrder` — a comparison orders all things strictly.
* `StrictOrder.eq_of_ascending` — an ascending list is determined by its members.
-/

namespace DecisionEngine

variable {α : Type}

/-! ## Removing duplicates -/

theorem eraseDups_sublist [BEq α] (xs : List α) : xs.eraseDups.Sublist xs := by
  match xs with
  | [] => exact List.Sublist.slnil
  | x :: xs =>
    rw [List.eraseDups_cons]
    exact .cons_cons x ((eraseDups_sublist _).trans List.filter_sublist)
termination_by xs.length
decreasing_by exact Nat.lt_succ_of_le (List.length_filter_le _ _)

theorem nodup_eraseDups [BEq α] [LawfulBEq α] (xs : List α) : xs.eraseDups.Nodup := by
  match xs with
  | [] => exact List.nodup_nil
  | x :: xs =>
    rw [List.eraseDups_cons, List.nodup_cons]
    refine ⟨fun hx => ?_, nodup_eraseDups _⟩
    simpa using (List.mem_filter.1 (List.mem_eraseDups.1 hx)).2
termination_by xs.length
decreasing_by exact Nat.lt_succ_of_le (List.length_filter_le _ _)

/-! ## Sorting by names -/

theorem pairwise_mergeSort_on (name : α → Bytes) (xs : List α) :
    (xs.mergeSort fun a b => decide (name a ≤ name b)).Pairwise fun a b => name a ≤ name b := by
  have htrans : ∀ a b c, decide (name a ≤ name b) = true → decide (name b ≤ name c) = true →
      decide (name a ≤ name c) = true := fun a b c hab hbc =>
    decide_eq_true (List.le_trans (of_decide_eq_true hab) (of_decide_eq_true hbc))
  have htotal : ∀ a b, (decide (name a ≤ name b) || decide (name b ≤ name a)) = true :=
    fun a b => by simpa using List.le_total (name a) (name b)
  exact (List.pairwise_mergeSort htrans htotal xs).imp of_decide_eq_true

/-! ## Strict orders -/

/-- A comparison orders all things strictly. -/
structure StrictOrder (before : α → α → Bool) : Prop where
  irrefl : ∀ a, before a a = false
  trans : ∀ a b c, before a b = true → before b c = true → before a c = true
  connected : ∀ a b, a ≠ b → before a b = true ∨ before b a = true

namespace StrictOrder

variable {before : α → α → Bool} {xs ys : List α}

theorem asymm (h : StrictOrder before) {a b : α} (hab : before a b = true) :
    before b a = false := by
  rw [Bool.eq_false_iff]
  intro hba
  have hloop := h.trans a b a hab hba
  rw [h.irrefl] at hloop
  cases hloop

/-- Sorting puts nothing behind what it comes before. -/
theorem pairwise_mergeSort (h : StrictOrder before) (xs : List α) :
    (xs.mergeSort fun a b => !before b a).Pairwise fun a b => before b a = false := by
  have hle : ∀ a b, before b a = false ↔ a = b ∨ before a b = true := fun a b => by
    constructor
    · intro hba
      by_cases heq : a = b
      · exact .inl heq
      · exact .inr ((h.connected a b heq).resolve_right (by simp [hba]))
    · rintro (rfl | hab)
      · exact h.irrefl a
      · exact h.asymm hab
  have htrans : ∀ a b c, (!before b a) = true → (!before c b) = true → (!before c a) = true := by
    intro a b c
    simp only [Bool.not_eq_true', hle]
    rintro (rfl | hab) (rfl | hbc)
    · exact .inl rfl
    · exact .inr hbc
    · exact .inr hab
    · exact .inr (h.trans a b c hab hbc)
  have htotal : ∀ a b, (!before b a || !before a b) = true := by
    intro a b
    cases hba : before b a with
    | false => rfl
    | true => simp [h.asymm hba]
  exact (List.pairwise_mergeSort htrans htotal xs).imp fun hab => by simpa using hab

/-- What is sorted and has no duplicates ascends. -/
theorem ascending (h : StrictOrder before) (hsorted : xs.Pairwise fun a b => before b a = false)
    (hnodup : xs.Nodup) : xs.Pairwise fun a b => before a b = true :=
  (hsorted.and hnodup).imp fun hab => (h.connected _ _ hab.2).resolve_right (by simp [hab.1])

/-- An ascending list is determined by its members. -/
theorem eq_of_ascending (h : StrictOrder before) (hxs : xs.Pairwise fun a b => before a b = true)
    (hys : ys.Pairwise fun a b => before a b = true) (hmem : ∀ a, a ∈ xs ↔ a ∈ ys) : xs = ys := by
  have : Std.Irrefl fun a b => before a b = true := ⟨fun a => by simp [h.irrefl a]⟩
  have : Std.Antisymm fun a b => before a b = true := ⟨fun a b hab hba => by
    rw [h.asymm hab] at hba
    cases hba⟩
  exact hxs.eq_of_mem_iff hys hmem

end StrictOrder
end DecisionEngine
