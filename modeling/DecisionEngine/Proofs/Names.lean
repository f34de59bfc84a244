import DecisionEngine.Graph.Node
import DecisionEngine.Proofs.Sorting
/-!
# Sorted lists of names and edges

Looking a name up by halving finds exactly the names of a sorted list.  Names in order, each once,
ascend, and so do edges; they depend only on which ones there are.

* `sortedContains_sortedDistinct` — looking up in the sorted form of a list finds its entries.
* `ascending_sortedDistinct`, `Edge.ascending_sortedDistinct` — names and edges in order ascend.
* `Edge.sortedDistinct_congr` — edges in order depend only on which edges there are.
-/

namespace DecisionEngine

theorem mem_sortedDistinct {names : List Bytes} {x : Bytes} :
    x ∈ sortedDistinct names ↔ x ∈ names := by
  unfold sortedDistinct
  rw [List.mem_eraseDups, List.mem_mergeSort]

theorem sortedDistinct_nil : sortedDistinct [] = [] := by
  simp [sortedDistinct]

/-! ## Looking up -/

/-- Looking up in a list in order finds its entries. -/
theorem sortedContains_iff {names : List Bytes} (h : Ordered names) {name : Bytes} :
    sortedContains names name = true ↔ name ∈ names := by
  have hbound : lowerBound name names names.length =
      names.dropWhile fun x => decide (x < name) :=
    lowerBound_eq_dropWhile h (Nat.le_refl _) (by simp)
  have hsub : (names.dropWhile fun x => decide (x < name)).Sublist names :=
    List.dropWhile_sublist _
  have hfound : name ∈ names ↔ name ∈ names.dropWhile fun x => decide (x < name) := by
    refine ⟨fun hmem => ?_, fun hmem => hsub.subset hmem⟩
    rw [← List.takeWhile_append_dropWhile (p := fun x => decide (x < name)) (l := names),
      List.mem_append] at hmem
    refine hmem.resolve_left fun htaken => ?_
    exact List.lt_irrefl name (by simpa using List.all_eq_true.1 List.all_takeWhile name htaken)
  have hfirst := List.head?_dropWhile_not (fun x => decide (x < name)) names
  have hordered := h.sublist hsub
  unfold sortedContains
  rw [hbound, hfound]
  generalize names.dropWhile (fun x => decide (x < name)) = rest at hfirst hordered
  cases rest with
  | nil => simp
  | cons found rest =>
    simp only [List.head?_cons, decide_eq_false_iff_not] at hfirst
    simp only [Bool.not_eq_true', decide_eq_false_iff_not, List.mem_cons]
    constructor
    · exact fun hle => .inl (List.le_antisymm hfirst hle)
    · rintro (rfl | hmem)
      · exact List.lt_irrefl name
      · exact (List.pairwise_cons.1 hordered).1 name hmem

theorem ordered_sortedDistinct (names : List Bytes) : Ordered (sortedDistinct names) :=
  (pairwise_mergeSort_on id names).sublist (eraseDups_sublist _)

/-- Looking up in the sorted form of a list finds its entries. -/
theorem sortedContains_sortedDistinct {names : List Bytes} {name : Bytes} :
    sortedContains (sortedDistinct names) name = true ↔ name ∈ names := by
  rw [sortedContains_iff (ordered_sortedDistinct names), mem_sortedDistinct]

/-- Names in order, each once, ascend. -/
theorem ascending_sortedDistinct (names : List Bytes) :
    (sortedDistinct names).Pairwise (· < ·) :=
  ((ordered_sortedDistinct names).and (nodup_eraseDups _)).imp
    fun h => Std.lt_of_le_of_ne h.1 h.2

/-! ## Edges -/

namespace Edge

theorem mem_sortedDistinct {edges : List Edge} {e : Edge} :
    e ∈ sortedDistinct edges ↔ e ∈ edges := by
  unfold sortedDistinct
  rw [List.mem_eraseDups, List.mem_mergeSort]

theorem before_iff (a b : Edge) : a.before b = true ↔ a.source < b.source ∨ a.source = b.source ∧
    (a.kind.rank < b.kind.rank ∨ a.kind = b.kind ∧ a.target < b.target) := by
  simp [before]

theorem rank_injective {a b : EdgeKind} (h : a.rank = b.rank) : a = b := by
  revert h
  cases a <;> cases b <;> decide

/-- Edges are ordered by source, kind and target. -/
theorem strictOrder_before : StrictOrder before := by
  refine ⟨fun a => ?_, fun a b c hab hbc => ?_, fun a b hne => ?_⟩
  · rw [Bool.eq_false_iff, ne_eq, before_iff]
    grind
  · rw [before_iff] at *
    grind
  · cases a
    cases b
    rw [before_iff, before_iff]
    grind [rank_injective]

/-- Edges in order, each once, ascend. -/
theorem ascending_sortedDistinct (edges : List Edge) :
    (sortedDistinct edges).Pairwise fun a b => a.before b = true :=
  strictOrder_before.ascending
    ((strictOrder_before.pairwise_mergeSort edges).sublist (eraseDups_sublist _))
    (nodup_eraseDups _)

/-- Edges in order depend only on which edges there are. -/
theorem sortedDistinct_congr {edges edges' : List Edge} (h : ∀ e, e ∈ edges ↔ e ∈ edges') :
    sortedDistinct edges = sortedDistinct edges' := by
  refine strictOrder_before.eq_of_ascending (ascending_sortedDistinct _)
    (ascending_sortedDistinct _) fun e => ?_
  rw [mem_sortedDistinct, mem_sortedDistinct, h]

end Edge

end DecisionEngine
