import DecisionEngine.Proofs.Catalog.Masks
import Mathlib.Data.Finset.Card
/-!
# Labels and their bits

A catalog gives each label with a key a bit, as long as there are any: the bits are the places of
the labels in the order in which they first came.  A bit is never taken back or given to another
label, so whatever a label was told holds of all catalogs that come of this one.

* `Predicate.label_of_ofLabel?` — what is read from a label has that label.
* `Catalog.bitOf?_eq_some_iff` — the bit of a label is its place.
* `Catalog.enter_cases` — all that can become of a label.
* `Catalog.Fits` — every label has a key, and there is a bit for each of them.
* `Catalog.exists_ofLabels_iff` — a catalog is made of the labels that fit, and of no others.
* `Catalog.numbered` — which labels get bits, told from the labels alone; by induction on a history,
  `Catalog.enterAll_empty`.
* `Catalog.numbering_dense_stable` — catalogs after any history.
-/

namespace DecisionEngine

/-! ## Labels -/

/-- What is read from a label has that label. -/
theorem Predicate.label_of_ofLabel? {label : Bytes} {p : Predicate} (h : ofLabel? label = some p) :
    p.label = label := by
  unfold ofLabel? at h
  split at h
  · cases h
  · cases h
    have hsplit : keyOf label ++ label.dropWhile (· != equalsSign) = label :=
      List.takeWhile_append_dropWhile
    unfold Predicate.label expectedOf
    cases hback : label.dropWhile (· != equalsSign) with
    | nil =>
      rw [hback, List.append_nil] at hsplit
      exact hsplit
    | cons b text =>
      have hfirst := List.head?_dropWhile_not (· != equalsSign) label
      rw [hback] at hfirst
      have hb : b = equalsSign := by simpa using hfirst
      rw [hback, hb] at hsplit
      exact hsplit

theorem Predicate.ofLabel?_eq_none_iff {label : Bytes} :
    ofLabel? label = none ↔ keyOf label = [] := by
  unfold ofLabel?
  split
  · exact iff_of_true rfl ‹_›
  · exact iff_of_false (Option.some_ne_none _) ‹_›

theorem Predicate.label_injective : Function.Injective Predicate.label := by
  intro p q h
  have hp := ofLabel?_label p
  rw [h, ofLabel?_label] at hp
  exact (Option.some.inj hp).symm

/-! ## Catalogs -/

namespace Catalog

variable {c c' : Catalog} {label : Bytes} {bit : Nat} {e : CatalogError}

/-- A catalog is known by its predicates, since its index agrees with them. -/
theorem ext_predicates (h : c.predicates = c'.predicates) : c = c' := by
  have hindex : c.index = c'.index := by rw [c.agrees.filed, c'.agrees.filed, h]
  rcases c with ⟨⟨_, _⟩, _⟩
  rcases c' with ⟨⟨_, _⟩, _⟩
  cases h
  cases hindex
  rfl

theorem labels_injective : Function.Injective labels := fun _ _ h =>
  ext_predicates (Predicate.label_injective.list_map h)

theorem nodup_labels (c : Catalog) : c.labels.Nodup := c.nodup.map Predicate.label_injective

/-- Every label of a catalog has a key. -/
theorem keyOf_ne_nil_of_mem (h : label ∈ c.labels) : Predicate.keyOf label ≠ [] := by
  obtain ⟨p, -, rfl⟩ := List.mem_map.1 h
  rw [ne_eq, ← Predicate.ofLabel?_eq_none_iff, Predicate.ofLabel?_label]
  exact Option.some_ne_none p

theorem length_labels (c : Catalog) : c.labels.length = c.size := List.length_map _

/-- Predicates of a catalog have labels of their own. -/
theorem card_labels (c : Catalog) : c.labels.toFinset.card = c.predicates.length := by
  rw [List.toFinset_card_of_nodup c.nodup_labels, labels, List.length_map]

/-! ## Bits of labels -/

/-- The bit of a label is its place among the labels. -/
theorem bitOf?_eq_idxOf? (c : Catalog) (label : Bytes) :
    c.bitOf? label = c.labels.idxOf? label := by
  rw [bitOf?_eq, labels, List.idxOf?, List.findIdx?_map]
  rfl

theorem bitOf?_eq_some_iff : c.bitOf? label = some bit ↔ c.labels[bit]? = some label := by
  rw [bitOf?_eq_idxOf?, List.idxOf?_eq_some_iff, List.getElem?_eq_some_iff]
  refine ⟨fun ⟨hlt, hlabel, _⟩ => ⟨hlt, hlabel⟩, fun ⟨hlt, hlabel⟩ => ⟨hlt, hlabel, ?_⟩⟩
  intro j hj hsame
  have := (List.Nodup.getElem_inj_iff c.nodup_labels).1 (hsame.trans hlabel.symm)
  omega

theorem bitOf?_eq_none_iff : c.bitOf? label = none ↔ label ∉ c.labels := by
  rw [bitOf?_eq_idxOf?, List.idxOf?_eq_none_iff]

/-! ## Adding labels -/

/-- **All that can become of a label**: it has no key, it has a bit already, all bits are taken, or
it gets the next one. -/
theorem enter_cases (c : Catalog) (label : Bytes) :
    (Predicate.keyOf label = [] ∧ c.enter label = (.error (.noKey label), c)) ∨
      Predicate.keyOf label ≠ [] ∧
        ((∃ bit, c.bitOf? label = some bit ∧ c.enter label = (.ok bit, c)) ∨
          label ∉ c.labels ∧
            (c.size = maxCatalogSize ∧ c.enter label = (.error .full, c) ∨
              c.size < maxCatalogSize ∧
                ∃ c', c.enter label = (.ok c.size, c') ∧ c'.labels = c.labels ++ [label])) := by
  have hrun := Numbering.run_enter c.toNumbering label
  have hstays : ∀ answer, (Numbering.enter label).run.run c.toNumbering =
      (answer, c.toNumbering) → c.enter label = (answer, c) := fun answer h => by
    have hanswer : (c.enter label).1 = answer := congrArg Prod.fst h
    exact Prod.ext hanswer (ext_predicates (congrArg (·.2.predicates) h))
  cases hp : Predicate.ofLabel? label with
  | none =>
    rw [hp] at hrun
    exact .inl ⟨Predicate.ofLabel?_eq_none_iff.1 hp, hstays _ hrun⟩
  | some p =>
    have hkey : Predicate.keyOf label ≠ [] := fun hnone => by
      rw [Predicate.ofLabel?_eq_none_iff.2 hnone] at hp
      cases hp
    refine .inr ⟨hkey, ?_⟩
    rw [hp] at hrun
    dsimp only at hrun
    rw [Predicate.label_of_ofLabel? hp] at hrun
    cases hbit : c.bitOf? label with
    | some bit =>
      rw [hbit] at hrun
      exact .inl ⟨bit, rfl, hstays _ hrun⟩
    | none =>
      refine .inr ⟨bitOf?_eq_none_iff.1 hbit, ?_⟩
      rw [hbit] at hrun
      by_cases hfull : maxCatalogSize ≤ c.predicates.length
      · simp only [if_pos hfull] at hrun
        exact .inl ⟨Nat.le_antisymm c.size_le hfull, hstays _ hrun⟩
      · simp only [if_neg hfull] at hrun
        have hanswer : (c.enter label).1 = .ok c.size := congrArg Prod.fst hrun
        have hpredicates : (c.enter label).2.predicates = c.predicates ++ [p] :=
          congrArg (·.2.predicates) hrun
        refine .inr ⟨Nat.lt_of_not_le hfull, _, Prod.ext hanswer rfl, ?_⟩
        rw [labels, hpredicates, List.map_append, List.map_singleton,
          Predicate.label_of_ofLabel? hp]
        rfl

/-- Every label has a key, and there are at most as many labels as bits. -/
def Fits (labels : List Bytes) : Prop :=
  (∀ label ∈ labels, Predicate.keyOf label ≠ []) ∧ labels.toFinset.card ≤ maxCatalogSize

theorem add_eq_ok_iff : c.add label = .ok (bit, c') ↔ c.enter label = (.ok bit, c') := by
  unfold add
  rcases c.enter label with ⟨_ | _, d⟩ <;> simp

theorem add_eq_error_iff : c.add label = .error e ↔ (c.enter label).1 = .error e := by
  unfold add
  rcases c.enter label with ⟨_ | _, d⟩ <;> simp

/-- A label that was added is counted among the labels, once. -/
theorem toFinset_add (h : c.add label = .ok (bit, c')) :
    c'.labels.toFinset = insert label c.labels.toFinset := by
  rw [add_eq_ok_iff] at h
  rcases c.enter_cases label with ⟨-, henter⟩ | ⟨-, ⟨old, hold, henter⟩ | ⟨-, ⟨-, henter⟩ |
      ⟨-, d, henter, hlabels⟩⟩⟩
  · cases h.symm.trans henter
  · cases h.symm.trans henter
    have hmem : label ∈ c.labels.toFinset :=
      List.mem_toFinset.2 (List.mem_of_getElem? (bitOf?_eq_some_iff.1 hold))
    exact (Finset.insert_eq_of_mem hmem).symm
  · cases h.symm.trans henter
  · cases h.symm.trans henter
    rw [hlabels, List.toFinset_append, Finset.union_comm]
    rfl

/-- A label gets no bit if it has no key, or if it is one too many. -/
theorem add_eq_error (h : c.add label = .error e) :
    Predicate.keyOf label = [] ∨ maxCatalogSize < (insert label c.labels.toFinset).card := by
  rw [add_eq_error_iff] at h
  rcases c.enter_cases label with ⟨hkey, -⟩ | ⟨-, ⟨old, -, henter⟩ | ⟨hnew, ⟨hfull, -⟩ |
      ⟨-, d, henter, -⟩⟩⟩
  · exact .inl hkey
  · rw [henter] at h
    cases h
  · right
    rw [Finset.card_insert_of_notMem (mt List.mem_toFinset.1 hnew), card_labels]
    exact Nat.lt_succ_of_le hfull.ge
  · rw [henter] at h
    cases h

theorem keyOf_of_add {p : Nat × Catalog} (h : c.add label = .ok p) :
    Predicate.keyOf label ≠ [] := by
  rcases c.enter_cases label with ⟨-, henter⟩ | ⟨hkey, -⟩
  · cases (add_eq_ok_iff.1 h).symm.trans henter
  · exact hkey

/-- Labels are added if they have keys and fit in beside those that have bits already. -/
theorem exists_addAll_iff {c : Catalog} {labels : List Bytes} :
    (∃ c', c.addAll labels = .ok c') ↔
      (∀ label ∈ labels, Predicate.keyOf label ≠ []) ∧
        (c.labels.toFinset ∪ labels.toFinset).card ≤ maxCatalogSize := by
  induction labels generalizing c with
  | nil =>
    have hcard := c.size_le
    rw [← card_labels] at hcard
    simpa [addAll] using hcard
  | cons label rest ih =>
    rw [addAll, List.forall_mem_cons, List.toFinset_cons, Finset.union_insert,
      ← Finset.insert_union]
    cases hadd : c.add label with
    | error e =>
      refine iff_of_false (fun ⟨_, h⟩ => by cases h) fun ⟨hkeys, hcard⟩ => ?_
      rcases add_eq_error hadd with hnone | hfull
      · exact hkeys.1 hnone
      · exact Nat.not_le.2 hfull ((Finset.card_le_card Finset.subset_union_left).trans hcard)
    | ok p =>
      rw [and_iff_right (keyOf_of_add hadd), ← toFinset_add hadd]
      exact ih

/-- A catalog is made of labels if they fit, and of no others. -/
theorem exists_ofLabels_iff {labels : List Bytes} :
    (∃ c, ofLabels labels = .ok c) ↔ Fits labels := by
  have hall : (∃ c, empty.addAll labels = .ok c) ↔ _ := exists_addAll_iff
  rwa [show empty.labels.toFinset = ∅ from rfl, Finset.empty_union] at hall

/-- The labels of a catalog are added back one behind the other. -/
theorem addAll_labels {known : Catalog} {labels : List Bytes}
    (h : c.labels = known.labels ++ labels) : known.addAll labels = .ok c := by
  induction labels generalizing known with
  | nil =>
    rw [List.append_nil] at h
    rw [addAll, labels_injective h]
  | cons label rest ih =>
    have hnodup := c.nodup_labels
    have hsize : c.labels.length ≤ maxCatalogSize := c.length_labels ▸ c.size_le
    rw [h] at hnodup hsize
    have hnew : label ∉ known.labels := fun hknown =>
      (List.nodup_append.1 hnodup).2.2 label hknown label (List.mem_cons_self ..) rfl
    rcases known.enter_cases label with ⟨hnone, -⟩ | ⟨-, ⟨old, hold, -⟩ | ⟨-, ⟨hfull, -⟩ |
        ⟨-, next, henter, hlabels⟩⟩⟩
    · exact absurd hnone (keyOf_ne_nil_of_mem (c := c) (by rw [h]; simp))
    · exact absurd (List.mem_of_getElem? (bitOf?_eq_some_iff.1 hold)) hnew
    · rw [List.length_append, List.length_cons, length_labels] at hsize
      omega
    · rw [addAll, add_eq_ok_iff.2 henter]
      exact ih (by rw [h, hlabels, List.append_assoc]; rfl)

theorem ofLabels_labels (c : Catalog) : ofLabels c.labels = .ok c :=
  addAll_labels (List.nil_append _).symm

/-! ## Histories -/

/-- Labels are entered one after another, those that get no bit included: the answers, and the
catalog that is left. -/
def enterAll (c : Catalog) : List Bytes → List (Except CatalogError Nat) × Catalog
  | [] => ([], c)
  | label :: rest =>
    let (answer, next) := c.enter label
    let (answers, last) := next.enterAll rest
    (answer :: answers, last)

theorem enterAll_cons (c : Catalog) (label : Bytes) (rest : List Bytes) :
    c.enterAll (label :: rest) =
      ((c.enter label).1 :: ((c.enter label).2.enterAll rest).1,
        ((c.enter label).2.enterAll rest).2) :=
  rfl

theorem enterAll_append (c : Catalog) (front back : List Bytes) :
    c.enterAll (front ++ back) =
      ((c.enterAll front).1 ++ ((c.enterAll front).2.enterAll back).1,
        ((c.enterAll front).2.enterAll back).2) := by
  induction front generalizing c with
  | nil => rfl
  | cons label front ih =>
    rw [List.cons_append, enterAll_cons, ih, enterAll_cons]
    rfl

/-- The labels that can be read, each where it comes first. -/
def eligible (labels : List Bytes) : List Bytes :=
  (labels.filter fun label => Predicate.keyOf label ≠ []).eraseDups

/-- The labels that get bits, in the order of their bits. -/
def numbered (labels : List Bytes) : List Bytes := (eligible labels).take maxCatalogSize

/-- What a label is told where some labels have bits. -/
def answerIn (known : List Bytes) (label : Bytes) : Except CatalogError Nat :=
  if Predicate.keyOf label = [] then .error (.noKey label)
  else (known.idxOf? label).elim (.error .full) .ok

variable {labels : List Bytes}

theorem mem_eligible : label ∈ eligible labels ↔ label ∈ labels ∧ Predicate.keyOf label ≠ [] := by
  simp [eligible]

theorem eligible_concat (labels : List Bytes) (label : Bytes) :
    eligible (labels ++ [label]) =
      if Predicate.keyOf label = [] ∨ label ∈ labels then eligible labels
      else eligible labels ++ [label] := by
  unfold eligible
  rw [List.filter_append, List.eraseDups_append]
  by_cases hkey : Predicate.keyOf label = []
  · simp [hkey]
  · by_cases hold : label ∈ labels
    · simp [hkey, hold, List.removeAll]
    · simp [hkey, hold, List.removeAll, List.eraseDups_cons]

theorem mem_of_mem_numbered (h : label ∈ numbered labels) :
    label ∈ labels ∧ Predicate.keyOf label ≠ [] :=
  mem_eligible.1 (List.mem_of_mem_take h)

/-- Bits are given for good. -/
theorem numbered_prefix (labels more : List Bytes) :
    numbered labels <+: numbered (labels ++ more) := by
  unfold numbered eligible
  rw [List.filter_append, List.eraseDups_append]
  exact (List.prefix_append ..).take _

/-- A label that has no key, came before or finds no room gets no new bit. -/
theorem numbered_concat_of_idle (h : Predicate.keyOf label = [] ∨ label ∈ labels ∨
    (numbered labels).length = maxCatalogSize) :
    numbered (labels ++ [label]) = numbered labels := by
  unfold numbered at h ⊢
  rw [eligible_concat]
  split
  · rfl
  · rename_i hnew
    rw [← or_assoc, or_iff_right hnew, List.length_take] at h
    exact List.take_append_of_le_length (by omega)

/-- A label with a key that finds room and has no bit comes for the first time, and gets the next
one. -/
theorem numbered_concat_of_new (hkey : Predicate.keyOf label ≠ [])
    (hnew : label ∉ numbered labels) (hroom : (numbered labels).length < maxCatalogSize) :
    label ∉ labels ∧ numbered (labels ++ [label]) = numbered labels ++ [label] := by
  have hshort : (eligible labels).length < maxCatalogSize := by
    rw [numbered, List.length_take] at hroom
    omega
  have hall : numbered labels = eligible labels := List.take_of_length_le hshort.le
  have hfirst : label ∉ labels := fun hold => hnew (hall ▸ mem_eligible.2 ⟨hold, hkey⟩)
  refine ⟨hfirst, ?_⟩
  rw [hall, numbered, eligible_concat, if_neg (not_or.2 ⟨hkey, hfirst⟩)]
  exact List.take_of_length_le (by rw [List.length_append]; exact hshort)

/-- A new label is told its place. -/
theorem answerIn_concat_self (hkey : Predicate.keyOf label ≠ []) (hnew : label ∉ labels) :
    answerIn (labels ++ [label]) label = .ok labels.length := by
  rw [answerIn, if_neg hkey, List.idxOf?, List.findIdx?_append, ← List.idxOf?,
    List.idxOf?_eq_none_iff.2 hnew]
  simp

/-- A new label does not change what others are told. -/
theorem answerIn_concat_of_ne {known : List Bytes} {other : Bytes} (h : other ≠ label) :
    answerIn (known ++ [label]) other = answerIn known other := by
  have hnone : [label].findIdx? (· == other) = none := by simpa using h.symm
  rw [answerIn, answerIn, List.idxOf?, List.findIdx?_append, hnone, Option.map_none,
    Option.or_none]

/-- What labels are told when they are the first of a catalog. -/
def answers (labels : List Bytes) : List (Except CatalogError Nat) := (empty.enterAll labels).1

/-- The catalog that they leave. -/
def entered (labels : List Bytes) : Catalog := (empty.enterAll labels).2

theorem answers_concat (labels : List Bytes) (label : Bytes) :
    answers (labels ++ [label]) = answers labels ++ [((entered labels).enter label).1] := by
  rw [answers, enterAll_append]
  rfl

theorem entered_concat (labels : List Bytes) (label : Bytes) :
    entered (labels ++ [label]) = ((entered labels).enter label).2 := by
  rw [entered, enterAll_append]
  rfl

/-- **The answers to labels and the catalog that they leave.**  The answers are those that the
catalog at the end gives, so a bit that was told stays. -/
theorem enterAll_empty (labels : List Bytes) :
    answers labels = labels.map (answerIn (numbered labels)) ∧
      (entered labels).labels = numbered labels := by
  induction labels using List.reverseRecOn with
  | nil => exact ⟨rfl, rfl⟩
  | append_singleton labels label ih =>
    obtain ⟨hanswers, hlabels⟩ := ih
    have hsize := (entered labels).length_labels
    rw [hlabels] at hsize
    rw [answers_concat, entered_concat, List.map_append, List.map_singleton]
    rcases (entered labels).enter_cases label with ⟨hnone, henter⟩ |
        ⟨hkey, ⟨bit, hbit, henter⟩ | ⟨hnew, ⟨hfull, henter⟩ | ⟨hroom, next, henter, hnext⟩⟩⟩
    · rw [numbered_concat_of_idle (.inl hnone), henter, hanswers, answerIn, if_pos hnone]
      exact ⟨rfl, hlabels⟩
    · rw [bitOf?_eq_idxOf?, hlabels] at hbit
      have hold : label ∈ numbered labels := by
        by_contra hnot
        rw [List.idxOf?_eq_none_iff.2 hnot] at hbit
        cases hbit
      rw [numbered_concat_of_idle (.inr (.inl (mem_of_mem_numbered hold).1)), henter, hanswers,
        answerIn, if_neg hkey, hbit]
      exact ⟨rfl, hlabels⟩
    · rw [numbered_concat_of_idle (.inr (.inr (hsize.trans hfull))), henter, hanswers,
        answerIn, if_neg hkey, List.idxOf?_eq_none_iff.2 (hlabels ▸ hnew)]
      exact ⟨rfl, hlabels⟩
    · rw [hlabels] at hnew hnext
      rw [← hsize] at hroom henter
      obtain ⟨hfirst, hnumbered⟩ := numbered_concat_of_new hkey hnew hroom
      have hothers : labels.map (answerIn (numbered labels ++ [label])) =
          labels.map (answerIn (numbered labels)) :=
        List.map_congr_left fun other hother =>
          answerIn_concat_of_ne fun heq => hfirst (heq ▸ hother)
      rw [hnumbered, henter, hanswers, hothers, answerIn_concat_self hkey hnew]
      exact ⟨rfl, hnext⟩

/-- A label that has a bit is told it again, and the catalog stays. -/
theorem enter_of_bitOf? (h : c.bitOf? label = some bit) : c.enter label = (.ok bit, c) := by
  have hmem := List.mem_of_getElem? (bitOf?_eq_some_iff.1 h)
  rcases c.enter_cases label with ⟨hnone, -⟩ | ⟨-, ⟨old, hold, henter⟩ | ⟨hnew, -⟩⟩
  · exact absurd hnone (keyOf_ne_nil_of_mem hmem)
  · rwa [Option.some.inj (h.symm.trans hold)]
  · exact absurd hmem hnew

/-- A label changes nothing unless it is a new one that gets the next bit. -/
theorem snd_enter (c : Catalog) (label : Bytes) : (c.enter label).2 = c ∨
    label ∉ c.labels ∧ (c.enter label).1 = .ok c.size ∧
      (c.enter label).2.labels = c.labels ++ [label] := by
  rcases c.enter_cases label with ⟨-, henter⟩ | ⟨-, ⟨_, -, henter⟩ | ⟨hnew, ⟨-, henter⟩ |
      ⟨-, next, henter, hnext⟩⟩⟩
  · exact .inl (by rw [henter])
  · exact .inl (by rw [henter])
  · exact .inl (by rw [henter])
  · exact .inr ⟨hnew, by rw [henter], by rw [henter, hnext]⟩

/-- A label that gets no bit changes nothing. -/
theorem snd_enter_of_error (h : (c.enter label).1 = .error e) : (c.enter label).2 = c := by
  rcases c.snd_enter label with hsame | ⟨-, htold, -⟩
  · exact hsame
  · cases h.symm.trans htold

/-- A bit is not changed by further labels. -/
theorem bitOf?_entered_append (h : (entered labels).bitOf? label = some bit) (more : List Bytes) :
    (entered (labels ++ more)).bitOf? label = some bit := by
  rw [bitOf?_eq_some_iff, (enterAll_empty _).2] at h ⊢
  obtain ⟨later, hlater⟩ := numbered_prefix labels more
  rw [← hlater, List.getElem?_append_left (List.getElem?_eq_some_iff.1 h).1]
  exact h

/-- A bit that is there after a label was entered was there before, or is the one just told. -/
theorem bitOf?_of_enter {last : Bytes} (h : (c.enter last).2.bitOf? label = some bit) :
    c.bitOf? label = some bit ∨
      last = label ∧ label ∉ c.labels ∧ (c.enter label).1 = .ok bit ∧ bit = c.size := by
  rcases c.snd_enter last with hsame | ⟨hnew, htold, hlabels⟩
  · exact .inl (by rwa [hsame] at h)
  · rw [bitOf?_eq_some_iff, hlabels] at h
    rcases Nat.lt_or_ge bit c.labels.length with hlt | hge
    · rw [List.getElem?_append_left hlt] at h
      exact .inl (bitOf?_eq_some_iff.2 h)
    · have hlt := (List.getElem?_eq_some_iff.1 h).1
      rw [List.length_append, List.length_singleton] at hlt
      obtain rfl : bit = c.labels.length := by omega
      rw [List.getElem?_concat_length] at h
      cases h
      rw [length_labels]
      exact .inr ⟨rfl, hnew, htold, rfl⟩

/-- A label that had no bit and is told one has that bit from then on. -/
theorem bitOf?_enter (hnew : label ∉ c.labels) (htold : (c.enter label).1 = .ok bit) :
    (c.enter label).2.bitOf? label = some bit := by
  rcases c.enter_cases label with ⟨-, henter⟩ | ⟨-, ⟨_, hold, -⟩ | ⟨-, ⟨-, henter⟩ |
      ⟨-, next, henter, hnext⟩⟩⟩
  · rw [henter] at htold
    cases htold
  · exact absurd (List.mem_of_getElem? (bitOf?_eq_some_iff.1 hold)) hnew
  · rw [henter] at htold
    cases htold
  · rw [henter] at htold ⊢
    cases htold
    rw [bitOf?_eq_some_iff, hnext, ← length_labels]
    exact List.getElem?_concat_length

/-- A label has the bit that it was told when it was first numbered, which is the number of labels
that had one then. -/
theorem bitOf?_entered_iff : (entered labels).bitOf? label = some bit ↔
    ∃ before after, labels = before ++ label :: after ∧ label ∉ (entered before).labels ∧
      ((entered before).enter label).1 = .ok bit ∧ bit = (entered before).size := by
  constructor
  · intro hbit
    induction labels using List.reverseRecOn with
    | nil =>
      rw [bitOf?_eq_some_iff] at hbit
      cases hbit
    | append_singleton labels last ih =>
      rw [entered_concat] at hbit
      rcases bitOf?_of_enter hbit with hold | ⟨rfl, hfirst⟩
      · obtain ⟨before, after, hsplit, hfirst⟩ := ih hold
        exact ⟨before, after ++ [last], by rw [hsplit]; simp, hfirst⟩
      · exact ⟨labels, [], rfl, hfirst⟩
  · rintro ⟨before, after, rfl, hnew, htold, -⟩
    rw [← List.singleton_append, ← List.append_assoc]
    refine bitOf?_entered_append ?_ after
    rw [entered_concat]
    exact bitOf?_enter hnew htold

/-- **The numbering of a catalog is dense and stable.**  After any labels, those that got no bit
included: the catalog has at most 64 labels, no two the same, namely the first ones with a key; each
call was told what the catalog says at the end; the bit of a label is its place, which is the number
of labels that were there when it was first numbered, and which no further labels change; a label
that has a bit is told it again, also when there is no room, and a label that gets none changes
nothing.  In the mask of an attribute set exactly the bits of the predicates that hold are set, and
the labels of the mask are theirs, in the order of the bits. -/
theorem numbering_dense_stable (labels : List Bytes) :
    ((entered labels).labels = numbered labels ∧ (entered labels).labels.Nodup ∧
        (entered labels).labels.length = (entered labels).size ∧ (entered labels).size ≤ 64) ∧
      answers labels = labels.map (answerIn (entered labels).labels) ∧
      (∀ label bit, (entered labels).bitOf? label = some bit ↔
        (entered labels).labels[bit]? = some label) ∧
      (∀ label bit, (entered labels).bitOf? label = some bit ↔
        ∃ before after, labels = before ++ label :: after ∧ label ∉ (entered before).labels ∧
          ((entered before).enter label).1 = .ok bit ∧ bit = (entered before).size) ∧
      (∀ more label bit, (entered labels).bitOf? label = some bit →
        (entered (labels ++ more)).bitOf? label = some bit) ∧
      (∀ label bit, (entered labels).bitOf? label = some bit →
        (entered labels).enter label = (.ok bit, entered labels)) ∧
      (∀ label e, ((entered labels).enter label).1 = .error e →
        ((entered labels).enter label).2 = entered labels) ∧
      ∀ attributes,
        (∀ bit, ((entered labels).maskOf attributes).has bit = true ↔
          ∃ p, (entered labels).predicates[bit]? = some p ∧ p.holds attributes = true) ∧
        (entered labels).describe ((entered labels).maskOf attributes) =
          ((entered labels).predicates.filter (·.holds attributes)).map Predicate.label := by
  obtain ⟨hanswers, hlabels⟩ := enterAll_empty labels
  exact ⟨⟨hlabels, nodup_labels _, length_labels _, size_le _⟩, by rw [hanswers, hlabels],
    fun _ _ => bitOf?_eq_some_iff, fun _ _ => bitOf?_entered_iff,
    fun more _ _ hbit => bitOf?_entered_append hbit more, fun _ _ => enter_of_bitOf?,
    fun _ _ => snd_enter_of_error,
    fun attributes => ⟨has_maskOf _ attributes, describe_maskOf _ attributes⟩⟩

example : answers [utf8 "vip", utf8 "=x", utf8 "tier=basic", utf8 "vip"] =
    [.ok 0, .error (.noKey (utf8 "=x")), .ok 1, .ok 0] := by decide

end Catalog
end DecisionEngine
