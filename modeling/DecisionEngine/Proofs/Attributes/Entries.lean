import DecisionEngine.AttributeSet
import Mathlib.Data.List.Sort
/-!
# Entries of attribute sets

What the columns of a set hold can be said entry by entry.  The place of a name parts the entries
into those in front, the names of which are below it, and those behind, the names of which are not;
so a name that is set comes between the entries below it and those above it.

* `AttributeSet.find?_eq_some_iff` — what is found are the entries.
* `AttributeSet.entries_set`, `AttributeSet.entries_erase` — the entries after a change.
* `AttributeSet.find?_set`, `AttributeSet.find?_erase`, `AttributeSet.find?_mergedWith` — look-ups
  after a change.
* `AttributeSet.eq_of_entries` — the entries are the columns.
-/

namespace DecisionEngine
namespace AttributeSet

variable {a b : AttributeSet} {name other : Bytes} {value w : Value}

/-! ## Columns and entries -/

theorem map_fst_entries (a : AttributeSet) : a.entries.map (·.1) = a.names :=
  List.map_fst_zip (Nat.le_of_eq a.aligned)

theorem map_snd_entries (a : AttributeSet) : a.entries.map (·.2) = a.values :=
  List.map_snd_zip (Nat.le_of_eq a.aligned.symm)

theorem length_entries (a : AttributeSet) : a.entries.length = a.size := by
  rw [← List.length_map, map_fst_entries, size]

/-- The entries are the columns. -/
theorem eq_of_entries (h : a.entries = b.entries) : a = b := by
  have hnames : a.names = b.names := by rw [← a.map_fst_entries, h, b.map_fst_entries]
  have hvalues : a.values = b.values := by rw [← a.map_snd_entries, h, b.map_snd_entries]
  cases a
  cases b
  cases hnames
  cases hvalues
  rfl

/-- The names of the entries ascend. -/
theorem ascending_entries (a : AttributeSet) : a.entries.Pairwise fun e f => e.1 < f.1 := by
  rw [← List.pairwise_map (f := Prod.fst), map_fst_entries]
  exact a.ascending

/-! ## In front of a place and behind it -/

/-- The entries in front of the place of a name. -/
def front (a : AttributeSet) (name : Bytes) : List Entry :=
  (a.names.take (a.place name)).zip (a.values.take (a.place name))

/-- The entries from the place of a name on. -/
def back (a : AttributeSet) (name : Bytes) : List Entry :=
  (a.names.drop (a.place name)).zip (a.values.drop (a.place name))

theorem length_take (a : AttributeSet) (name : Bytes) :
    (a.names.take (a.place name)).length = (a.values.take (a.place name)).length := by
  rw [List.length_take, List.length_take, a.aligned]

theorem entries_eq (a : AttributeSet) (name : Bytes) :
    a.entries = a.front name ++ a.back name := by
  rw [front, back, ← List.zip_append (a.length_take name), List.take_append_drop,
    List.take_append_drop]
  rfl

theorem below_of_mem_front {e : Entry} (h : e ∈ a.front name) : e.1 < name :=
  below_of_mem_take (List.of_mem_zip h).1

theorem above_of_mem_back (hfree : a.names[a.place name]? ≠ some name) {e : Entry}
    (h : e ∈ a.back name) : name < e.1 :=
  above_of_mem_drop hfree (List.of_mem_zip h).1

/-- The entries behind the place of a name that the set has. -/
theorem exists_back (h : a.names[a.place name]? = some name) :
    ∃ value rest, a.values[a.place name]? = some value ∧ a.back name = (name, value) :: rest ∧
      rest = (a.names.drop (a.place name + 1)).zip (a.values.drop (a.place name + 1)) ∧
      ∀ e ∈ rest, name < e.1 := by
  obtain ⟨hlt, hname⟩ := List.getElem?_eq_some_iff.1 h
  have hlt' : a.place name < a.values.length := a.aligned ▸ hlt
  have hnames : a.names.drop (a.place name) = name :: a.names.drop (a.place name + 1) := by
    rw [List.drop_eq_getElem_cons hlt, hname]
  refine ⟨_, _, List.getElem?_eq_getElem hlt', ?_, rfl, fun e he => ?_⟩
  · rw [back, hnames, List.drop_eq_getElem_cons hlt', List.zip_cons_cons]
  · have hsorted := a.ascending.sublist (List.drop_sublist (a.place name) a.names)
    rw [hnames] at hsorted
    exact (List.pairwise_cons.1 hsorted).1 e.1 (List.of_mem_zip he).1

/-! ## Looking up -/

/-- What is found of a name is its entry. -/
theorem find?_eq_some_iff : a.find? name = some value ↔ (name, value) ∈ a.entries := by
  have hfront : (name, value) ∉ a.front name := fun h =>
    List.lt_irrefl name (below_of_mem_front h)
  rw [a.entries_eq name, List.mem_append, or_iff_right hfront, find?]
  by_cases hknown : a.names[a.place name]? = some name
  · obtain ⟨w, rest, hvalue, hback, -, habove⟩ := exists_back hknown
    have hrest : (name, value) ∉ rest := fun h => List.lt_irrefl name (habove _ h)
    rw [if_pos hknown, hvalue, hback, List.mem_cons, or_iff_left hrest, Option.some.injEq,
      Prod.mk.injEq, and_iff_right rfl, eq_comm]
  · rw [if_neg hknown]
    constructor
    · exact fun h => nomatch h
    · exact fun h => absurd (above_of_mem_back hknown h) (List.lt_irrefl name)

/-- Sets are equal if they have the same look-ups. -/
theorem ext_find? (h : ∀ name, a.find? name = b.find? name) : a = b := by
  have hmem : ∀ e, e ∈ a.entries ↔ e ∈ b.entries := fun ⟨name, value⟩ => by
    rw [← find?_eq_some_iff, ← find?_eq_some_iff, h]
  have : Std.Irrefl fun e f : Entry => e.1 < f.1 := ⟨fun e => List.lt_irrefl e.1⟩
  have : Std.Antisymm fun e f : Entry => e.1 < f.1 := ⟨fun _ _ hef hfe =>
    absurd hfe (List.lt_asymm hef)⟩
  exact eq_of_entries (a.ascending_entries.eq_of_mem_iff b.ascending_entries hmem)

/-! ## Changes -/

/-- The entries below a name are those in front of its place. -/
theorem filter_below (a : AttributeSet) (name : Bytes) :
    (a.entries.filter fun e => decide (e.1 < name)) = a.front name := by
  rw [a.entries_eq name, List.filter_append, List.filter_eq_self.2, List.filter_eq_nil_iff.2,
    List.append_nil]
  · intro e he
    simpa using le_of_mem_drop (List.of_mem_zip he).1
  · exact fun e he => decide_eq_true (below_of_mem_front he)

theorem bne_of_below {e : Entry} (h : e.1 < name) : (e.1 != name) = true :=
  bne_iff_ne.2 fun heq => List.lt_irrefl name (by rwa [heq] at h)

theorem bne_of_above {e : Entry} (h : name < e.1) : (e.1 != name) = true :=
  bne_iff_ne.2 fun heq => List.lt_irrefl name (by rwa [heq] at h)

/-- What is set comes between the entries below it and those above it. -/
theorem entries_set (a : AttributeSet) (name : Bytes) (value : Value) :
    (a.set name value).entries = (a.entries.filter fun e => decide (e.1 < name)) ++
      (name, value) :: a.entries.filter fun e => decide (name < e.1) := by
  have hfront : (a.front name).filter (fun e => decide (name < e.1)) = [] :=
    List.filter_eq_nil_iff.2 fun e he => by
      simpa using List.le_of_lt (below_of_mem_front he)
  rw [filter_below]
  conv => rhs; rw [a.entries_eq name, List.filter_append, hfront, List.nil_append]
  unfold set
  split
  · next hknown =>
    obtain ⟨hlt, hname⟩ := List.getElem?_eq_some_iff.1 hknown
    obtain ⟨w, rest, -, hback, rfl, habove⟩ := exists_back hknown
    have hnames : a.names = a.names.take (a.place name) ++
        name :: a.names.drop (a.place name + 1) := by
      conv => lhs; rw [← List.take_append_drop (a.place name) a.names,
        List.drop_eq_getElem_cons hlt, hname]
    rw [hback, List.filter_cons_of_neg (by simp), List.filter_eq_self.2 fun e he => by
      simpa using habove e he]
    unfold entries
    dsimp only
    rw [List.set_eq_take_append_cons_drop, if_pos (a.aligned ▸ hlt)]
    conv => lhs; rw [hnames]
    rw [List.zip_append (a.length_take name), List.zip_cons_cons]
    rfl
  · next hfree =>
    rw [List.filter_eq_self.2 fun e he => by simpa using above_of_mem_back hfree he]
    unfold insertAt entries
    dsimp only
    rw [List.zip_append (a.length_take name), List.zip_cons_cons]
    rfl

/-- What is erased is missing from the entries. -/
theorem entries_erase (a : AttributeSet) (name : Bytes) :
    (a.erase name).entries = a.entries.filter (·.1 != name) := by
  rw [a.entries_eq name, List.filter_append,
    List.filter_eq_self.2 fun e he => bne_of_below (below_of_mem_front he)]
  unfold erase
  split
  · next hknown =>
    obtain ⟨w, rest, -, hback, rfl, habove⟩ := exists_back hknown
    rw [hback, List.filter_cons_of_neg (by simp),
      List.filter_eq_self.2 fun e he => bne_of_above (habove e he)]
    unfold entries
    dsimp only
    rw [List.eraseIdx_eq_take_drop_succ, List.eraseIdx_eq_take_drop_succ,
      List.zip_append (a.length_take name)]
    rfl
  · next hfree =>
    rw [List.filter_eq_self.2 fun e he => bne_of_above (above_of_mem_back hfree he), ← entries_eq]

theorem mem_entries_set {e : Entry} (h : e ∈ (a.set name value).entries) :
    e = (name, value) ∨ e ∈ a.entries := by
  rw [entries_set, List.mem_append, List.mem_cons] at h
  rcases h with h | rfl | h
  · exact .inr (List.mem_of_mem_filter h)
  · exact .inl rfl
  · exact .inr (List.mem_of_mem_filter h)

/-- A name above all others comes last. -/
theorem entries_set_last (h : ∀ e ∈ a.entries, e.1 < name) :
    (a.set name value).entries = a.entries ++ [(name, value)] := by
  rw [entries_set, List.filter_eq_self.2 fun e he => decide_eq_true (h e he),
    List.filter_eq_nil_iff.2 fun e he => by simpa using List.le_of_lt (h e he)]

/-! ## Look-ups after a change -/

/-- Setting a name leaves the others. -/
theorem find?_set (a : AttributeSet) (name other : Bytes) (value : Value) :
    (a.set name value).find? other = if other = name then some value else a.find? other := by
  refine Option.ext fun w => ?_
  rw [find?_eq_some_iff, entries_set, List.mem_append, List.mem_cons, List.mem_filter,
    List.mem_filter, decide_eq_true_iff, decide_eq_true_iff]
  by_cases hname : other = name
  · subst hname
    have hirrefl := List.lt_irrefl other
    simp only [hirrefl, and_false, false_or, or_false, if_pos, Prod.mk.injEq, true_and,
      Option.some.injEq, eq_comm]
  · have hapart : other < name ∨ name < other := by
      rcases List.le_total other name with h | h
      · exact .inl (Std.lt_of_le_of_ne h hname)
      · exact .inr (Std.lt_of_le_of_ne h (Ne.symm hname))
    rw [if_neg hname, find?_eq_some_iff]
    have hother : (other, w) ≠ (name, value) := fun h => hname (congrArg Prod.fst h)
    rw [or_iff_right hother, ← and_or_left, and_iff_left hapart]

/-- Erasing a name leaves the others. -/
theorem find?_erase (a : AttributeSet) (name other : Bytes) :
    (a.erase name).find? other = if other = name then none else a.find? other := by
  refine Option.ext fun w => ?_
  rw [find?_eq_some_iff, entries_erase, List.mem_filter, bne_iff_ne]
  by_cases hname : other = name
  · simp [hname]
  · rw [if_neg hname, find?_eq_some_iff, and_iff_left hname]

/-- A name is found exactly if it is in the column of names. -/
theorem find?_eq_none_iff : a.find? name = none ↔ name ∉ a.names := by
  rw [Option.eq_none_iff_forall_ne_some, ← a.map_fst_entries]
  simp [find?_eq_some_iff]

/-- Of entries with ascending names that are set, each counts. -/
theorem find?_setAll_eq_some_iff {entries : List Entry}
    (h : entries.Pairwise fun e f => e.1 < f.1) (a : AttributeSet) :
    (a.setAll entries).find? name = some value ↔ (name, value) ∈ entries ∨
      (name ∉ entries.map Prod.fst ∧ a.find? name = some value) := by
  induction entries generalizing a with
  | nil => simp [setAll]
  | cons e rest ih =>
    obtain ⟨hfirst, hrest⟩ := List.pairwise_cons.1 h
    have hfold := ih hrest (a.set e.1 e.2)
    rw [setAll, List.foldl_cons, ← setAll, hfold, find?_set, List.map_cons, List.mem_cons,
      List.mem_cons]
    by_cases hname : name = e.1
    · subst hname
      have hfresh : e.1 ∉ rest.map Prod.fst := by
        intro hmem
        obtain ⟨f, hf, heq⟩ := List.mem_map.1 hmem
        exact List.lt_irrefl e.1 (heq ▸ hfirst f hf)
      have hentry : (e.1, value) ∉ rest := fun hmem =>
        hfresh (List.mem_map.2 ⟨_, hmem, rfl⟩)
      rw [if_pos rfl, or_iff_right hentry, and_iff_right hfresh, or_iff_left hentry]
      simp [Prod.ext_iff, eq_comm]
    · have hentry : (name, value) ≠ e := fun heq => hname (congrArg Prod.fst heq)
      rw [if_neg hname, or_iff_right hentry, or_iff_right hname]

/-- In a merge the overriding set wins. -/
theorem find?_mergedWith (a b : AttributeSet) (name : Bytes) :
    (a.mergedWith b).find? name = (b.find? name).or (a.find? name) := by
  refine Option.ext fun w => ?_
  rw [mergedWith, find?_setAll_eq_some_iff b.ascending_entries, map_fst_entries,
    Option.or_eq_some_iff, find?_eq_some_iff (a := b), find?_eq_none_iff]

end AttributeSet
end DecisionEngine
