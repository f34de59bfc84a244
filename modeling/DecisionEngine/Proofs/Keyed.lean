import DecisionEngine.Keyed
import Mathlib.Data.List.Nodup
/-!
# What is in a keyed list

A keyed list stands for a map from keys to values, with an order of the keys.  As long as no key
occurs twice, assigning, keeping and removing keep it so, and an entry that goes takes its key
along.

* `Keyed.find?_assign`, `Keyed.find?_keep`, `Keyed.find?_remove` — what is found afterwards.
* `Keyed.map_fst_assign`, `Keyed.Distinct.map_fst_remove` — what becomes of the order of the keys.
* `Keyed.Distinct` — no key occurs twice.
* `Keyed.Distinct.find?_latest_assign` — what is found where an assignment crowds others out.
-/

namespace DecisionEngine
namespace Keyed

variable {κ α : Type} [DecidableEq κ] {key other : κ} {value found : α} {entries : List (κ × α)}

/-! ## What is found -/

theorem find?_append (front back : List (κ × α)) (key : κ) :
    find? (front ++ back) key = (find? front key).or (find? back key) := by
  unfold find?
  rw [List.find?_append, Option.map_or]

theorem find?_eq_none_iff : find? entries key = none ↔ key ∉ entries.map (·.1) := by
  unfold find?
  rw [Option.map_eq_none_iff, List.find?_eq_none, List.mem_map]
  simp only [decide_eq_true_eq]
  exact ⟨fun h ⟨e, he, hk⟩ => h e he hk, fun h e he hk => h ⟨e, he, hk⟩⟩

/-- After an assignment the key has the new value, and every other key its old one. -/
theorem find?_assign (key other : κ) (value : α) (entries : List (κ × α)) :
    find? (assign key value entries) other =
      if key = other then some value else find? entries other := by
  induction entries with
  | nil => by_cases h : key = other <;> simp [assign, find?, h]
  | cons e rest ih =>
    unfold find? at ih ⊢
    by_cases he : e.1 = key
    · by_cases h : key = other
      · simp [assign, he, h]
      · simp [assign, he, h]
    · by_cases ho : e.1 = other
      · have hne : key ≠ other := fun hc => he (ho.trans hc.symm)
        have hne' : other ≠ key := fun hc => hne hc.symm
        simp [assign, ho, hne, hne']
      · simp only [assign, he, if_false, List.find?_cons, ho, decide_false]
        exact ih

/-- After keeping a value the key has its old value, or else the new one; every other key has its
old value. -/
theorem find?_keep (key other : κ) (value : α) (entries : List (κ × α)) :
    find? (keep key value entries) other =
      if key = other then some ((find? entries key).getD value) else find? entries other := by
  unfold keep
  cases h : find? entries key with
  | some old =>
    by_cases hk : key = other
    · simp [← hk, h]
    · simp [hk]
  | none =>
    simp only [Option.isSome_none, Bool.false_eq_true, if_false, find?_append]
    by_cases hk : key = other
    · subst hk
      rw [h, if_pos rfl, Option.none_or, Option.getD_none]
      simp [find?]
    · rw [if_neg hk]
      simp [find?, hk]

/-- A key that was taken out has no value, and every other key has its old one. -/
theorem find?_remove (key other : κ) (entries : List (κ × α)) :
    find? (remove key entries) other = if key = other then none else find? entries other := by
  unfold remove find?
  rw [List.find?_filter]
  by_cases h : key = other
  · subst h
    simp
  · rw [if_neg h]
    congr 2
    funext e
    simp only [decide_eq_true_eq, ne_eq, decide_eq_decide, and_iff_right_iff_imp]
    rintro rfl heq
    exact h heq.symm

/-! ## Keys -/

theorem mem_assign {x : κ × α} (h : x ∈ assign key value entries) :
    x = (key, value) ∨ x ∈ entries := by
  induction entries with
  | nil => exact .inl (List.mem_singleton.1 h)
  | cons e rest ih =>
    unfold assign at h
    split at h
    · rcases List.mem_cons.1 h with h | h
      · exact .inl h
      · exact .inr (List.mem_cons_of_mem _ h)
    · rcases List.mem_cons.1 h with rfl | h
      · exact .inr (List.mem_cons_self ..)
      · exact (ih h).imp_right (List.mem_cons_of_mem _)

theorem map_fst_assign (key : κ) (value : α) (entries : List (κ × α)) :
    (assign key value entries).map (·.1) =
      if key ∈ entries.map (·.1) then entries.map (·.1) else entries.map (·.1) ++ [key] := by
  induction entries with
  | nil => rfl
  | cons e rest ih =>
    unfold assign
    by_cases he : e.1 = key
    · simp [he]
    · have hne : key ≠ e.1 := fun h => he h.symm
      rw [if_neg he, List.map_cons, ih]
      by_cases hrest : key ∈ rest.map (·.1)
      · rw [if_pos hrest, List.map_cons, if_pos (List.mem_cons_of_mem _ hrest)]
      · rw [if_neg hrest, List.map_cons, if_neg (List.not_mem_cons_of_ne_of_not_mem hne hrest),
          List.cons_append]

theorem length_assign_of_mem (value : α) (hkey : key ∈ entries.map (·.1)) :
    (assign key value entries).length = entries.length := by
  have hkeys := map_fst_assign key value entries
  rw [if_pos hkey] at hkeys
  simpa using congrArg List.length hkeys

/-! ## Distinct keys -/

/-- No key occurs twice. -/
def Distinct (entries : List (κ × α)) : Prop := (entries.map (·.1)).Nodup

theorem Distinct.find?_eq_some_iff (h : Distinct entries) :
    find? entries key = some value ↔ (key, value) ∈ entries := by
  unfold find?
  rw [Option.map_eq_some_iff]
  constructor
  · rintro ⟨e, he, rfl⟩
    have hkey : e.1 = key := by simpa using List.find?_some he
    exact hkey ▸ List.mem_of_find?_eq_some he
  · intro hmem
    obtain ⟨e, he⟩ : ∃ e, entries.find? (·.1 = key) = some e := by
      rw [← Option.isSome_iff_exists, List.find?_isSome]
      exact ⟨_, hmem, by simp⟩
    have hkey : e.1 = key := by simpa using List.find?_some he
    have heq := List.inj_on_of_nodup_map h (List.mem_of_find?_eq_some he) hmem hkey
    exact ⟨e, he, by rw [heq]⟩

theorem Distinct.keep (h : Distinct entries) (key : κ) (value : α) :
    Distinct (keep key value entries) := by
  unfold Keyed.keep
  cases hf : find? entries key with
  | some old => simpa using h
  | none =>
    have hnew : key ∉ entries.map (·.1) := find?_eq_none_iff.mp hf
    simp only [Option.isSome_none, Bool.false_eq_true, if_false, Distinct, List.map_append]
    exact h.append (List.nodup_singleton key) (by simpa using hnew)

theorem Distinct.assign (h : Distinct entries) (key : κ) (value : α) :
    Distinct (assign key value entries) := by
  unfold Distinct
  rw [map_fst_assign]
  split
  · exact h
  · rename_i hnew
    exact h.append (List.nodup_singleton key) (by simpa using hnew)

omit [DecidableEq κ] in
theorem Distinct.remove [DecidableEq κ] (h : Distinct entries) (key : κ) :
    Distinct (remove key entries) :=
  List.Nodup.sublist (List.filter_sublist.map _) h

/-- Without its first key a keyed list is its rest. -/
theorem Distinct.remove_first {e : κ × α} {rest : List (κ × α)} (h : Distinct (e :: rest)) :
    Keyed.remove e.1 (e :: rest) = rest := by
  have hfirst := (List.nodup_cons.1 (show (e.1 :: rest.map (·.1)).Nodup from h)).1
  unfold Keyed.remove
  rw [List.filter_cons_of_neg (by simp)]
  refine List.filter_eq_self.2 fun x hx => ?_
  have hne : x.1 ≠ e.1 := fun heq => hfirst (heq ▸ List.mem_map_of_mem hx)
  simpa using hne

theorem Distinct.map_fst_remove (h : Distinct entries) (key : κ) :
    (Keyed.remove key entries).map (·.1) = (entries.map (·.1)).erase key := by
  unfold Keyed.remove
  rw [List.Nodup.erase_eq_filter h, List.filter_map]
  congr 1
  refine List.filter_congr fun x _ => ?_
  by_cases hx : x.1 = key
  · simp [hx]
  · simp [hx]

/-! ## The latest entries -/

/-- Where keys are distinct, an entry that goes takes its key along. -/
theorem Distinct.find?_drop (h : Distinct entries) (n : Nat) (key : κ) :
    find? (entries.drop n) key = none ∨ find? (entries.drop n) key = find? entries key := by
  by_cases hk : key ∈ (entries.take n).map (·.1)
  · left
    rw [find?_eq_none_iff]
    have hapart : ((entries.take n).map (·.1) ++ (entries.drop n).map (·.1)).Nodup := by
      rw [← List.map_append, List.take_append_drop]
      exact h
    exact List.disjoint_of_nodup_append hapart hk
  · right
    conv_rhs => rw [← List.take_append_drop n entries, find?_append]
    rw [find?_eq_none_iff.mpr hk, Option.none_or]

omit [DecidableEq κ] in
theorem Distinct.latest (h : Distinct entries) (capacity : Nat) :
    Distinct (latest capacity entries) :=
  List.Nodup.sublist ((List.drop_sublist ..).map _) h

omit [DecidableEq κ] in
theorem length_latest_le (capacity : Nat) (entries : List (κ × α)) :
    (latest capacity entries).length ≤ capacity := by
  unfold latest
  rw [List.length_drop]
  omega

omit [DecidableEq κ] in
theorem latest_of_length_le {capacity : Nat} (h : entries.length ≤ capacity) :
    latest capacity entries = entries := by
  unfold latest
  rw [Nat.sub_eq_zero_of_le h, List.drop_zero]

/-- What is found after an assignment that may have crowded others out. -/
theorem Distinct.find?_latest_assign (h : Distinct entries) {capacity : Nat}
    (hfound : find? (Keyed.latest capacity (Keyed.assign key value entries)) other = some found) :
    if key = other then found = value else find? entries other = some found := by
  unfold Keyed.latest at hfound
  rcases (h.assign key value).find?_drop _ other with hnone | hsame
  · rw [hnone] at hfound
    cases hfound
  · rw [hsame, find?_assign] at hfound
    split at hfound
    · rename_i hkey
      rw [if_pos hkey]
      exact (Option.some.inj hfound).symm
    · rename_i hkey
      rw [if_neg hkey]
      exact hfound

end Keyed
end DecisionEngine
