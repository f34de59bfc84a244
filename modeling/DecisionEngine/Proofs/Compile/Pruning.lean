import DecisionEngine.Compile.FlatGraph
import Mathlib.Data.List.Nodup
import Mathlib.Data.List.Perm.Subperm
/-!
# What pruning leaves

Pruning goes on in rounds until one drops nothing.  Every round but the last drops a leaf that was
there before, so there are enough rounds, and what is left asks for nothing that was dropped: a
kept leaf requires kept leaves only, and if anything flows to it, something kept does.

* `FlatGraph.Proper` — leaves are dropped once each.
* `FlatGraph.dropped_keeps` — what is kept whenever a leaf is dropped is kept by pruning.
* `FlatGraph.settled_dropped` — the last round drops nothing.
* `FlatGraph.kept_of_requires`, `FlatGraph.exists_kept_predecessor` — what is left is closed.
-/

namespace DecisionEngine
namespace Dropped

theorem has_iff {d : Dropped} {id : Bytes} : d.has id = true ↔ id ∈ d.map (·.1) := by
  simp [has, List.any_eq_true, List.mem_map]

theorem has_eq_false_iff {d : Dropped} {id : Bytes} : d.has id = false ↔ id ∉ d.map (·.1) := by
  rw [← has_iff, Bool.not_eq_true]

theorem has_append_iff {d d' : Dropped} {id : Bytes} :
    (d ++ d').has id = true ↔ d.has id = true ∨ d'.has id = true := by
  simp only [has_iff, List.map_append, List.mem_append]

/-- Leaves that nothing leads to, dropped if that is asked for. -/
def ofUnreached (unreached : List Bytes) (dropUnreachable : Bool) : Dropped :=
  if dropUnreachable then unreached.map fun id => (id, none) else []

/-- The leaves among some that are hopeless by themselves, dropped for their reasons. -/
def ofHopeless (nodes : List FlatNode) : Dropped :=
  nodes.filterMap fun n => n.hopeless?.map fun h => (n.id, some h)

theorem has_ofUnreached_iff {unreached : List Bytes} {dropUnreachable : Bool} {id : Bytes} :
    (ofUnreached unreached dropUnreachable).has id = true ↔
      dropUnreachable = true ∧ id ∈ unreached := by
  rw [has_iff, ofUnreached]
  cases dropUnreachable <;> simp

theorem has_ofHopeless_iff {nodes : List FlatNode} {id : Bytes} :
    (ofHopeless nodes).has id = true ↔ ∃ n ∈ nodes, n.id = id ∧ n.hopeless?.isSome := by
  rw [has_iff, ofHopeless]
  simp only [List.mem_map, List.mem_filterMap, Option.map_eq_some_iff, Option.isSome_iff_exists]
  constructor
  · rintro ⟨_, ⟨n, hn, h, hh, rfl⟩, rfl⟩
    exact ⟨n, hn, rfl, h, hh⟩
  · rintro ⟨n, hn, rfl, h, hh⟩
    exact ⟨_, ⟨n, hn, h, hh, rfl⟩, rfl⟩

theorem sublist_ofHopeless (nodes : List FlatNode) :
    ((ofHopeless nodes).map (·.1)).Sublist (nodes.map (·.id)) := by
  unfold ofHopeless
  induction nodes with
  | nil => exact List.Sublist.refl _
  | cons n rest ih =>
    cases hn : n.hopeless? with
    | none =>
      rw [List.filterMap_cons, hn]
      exact ih.cons _
    | some h =>
      rw [List.filterMap_cons, hn]
      exact ih.cons_cons _

end Dropped

namespace FlatGraph

variable {g : FlatGraph} {d : Dropped}

/-! ## Folds that only add -/

section Folds

variable {α : Type} {f : Dropped → α → Dropped}

theorem prefix_foldl (hf : ∀ d x, d <+: f d x) (xs : List α) (d : Dropped) :
    d <+: xs.foldl f d := by
  induction xs generalizing d with
  | nil => exact List.prefix_rfl
  | cons x xs ih => exact (hf d x).trans (ih (f d x))

/-- A fold that adds nothing adds nothing at any of its steps. -/
theorem foldl_settled (hf : ∀ d x, d <+: f d x) {xs : List α} {d : Dropped}
    (h : (xs.foldl f d).length = d.length) : ∀ x ∈ xs, f d x = d := by
  induction xs with
  | nil => exact fun x hx => absurd hx (by simp)
  | cons y ys ih =>
    have hy : f d y = d := by
      have hle := (prefix_foldl hf ys (f d y)).length_le
      have hle' := (hf d y).length_le
      rw [List.foldl_cons] at h
      exact ((hf d y).eq_of_length (by omega)).symm
    intro x hx
    rcases List.mem_cons.1 hx with rfl | hx
    · exact hy
    · rw [List.foldl_cons, hy] at h
      exact ih h x hx

theorem foldl_keeps {P : Dropped → Prop} {xs : List α} (hf : ∀ d, ∀ x ∈ xs, P d → P (f d x))
    {d : Dropped} (hd : P d) : P (xs.foldl f d) := by
  induction xs generalizing d with
  | nil => exact hd
  | cons x xs ih =>
    exact ih (fun d y hy => hf d y (List.mem_cons_of_mem _ hy)) (hf d x (List.mem_cons_self ..) hd)

end Folds

/-! ## Single steps -/

/-- Every leaf is dropped at most once, and only leaves are dropped. -/
structure Proper (g : FlatGraph) (d : Dropped) : Prop where
  nodup : (d.map (·.1)).Nodup
  subset : ∀ id ∈ d.map (·.1), id ∈ g.ids

theorem Proper.append (h : g.Proper d) {d' : Dropped} (h' : g.Proper d')
    (hnew : ∀ id, d'.has id = true → d.has id = false) : g.Proper (d ++ d') := by
  refine ⟨?_, fun id hid => ?_⟩
  · rw [List.map_append, List.nodup_append]
    refine ⟨h.nodup, h'.nodup, ?_⟩
    rintro a ha b hb rfl
    exact Dropped.has_eq_false_iff.1 (hnew a (Dropped.has_iff.2 hb)) ha
  · rw [List.map_append, List.mem_append] at hid
    exact hid.elim (h.subset id) (h'.subset id)

theorem Proper.concat (h : g.Proper d) {id : Bytes} {reason : Option Hopeless} (hid : id ∈ g.ids)
    (hnew : d.has id = false) : g.Proper (d ++ [(id, reason)]) := by
  refine h.append ⟨List.nodup_singleton _, by simpa using hid⟩ fun x hx => ?_
  obtain rfl : x = id := by simpa [Dropped.has_iff] using hx
  exact hnew

theorem Proper.length_le (h : g.Proper d) : d.length ≤ g.nodes.length := by
  have hle := (List.subperm_of_subset h.nodup h.subset).length_le
  simpa [ids] using hle

theorem prefix_dropRequiring (d : Dropped) (e : Edge) : d <+: dropRequiring d e := by
  unfold dropRequiring
  split
  · exact List.prefix_append ..
  · exact List.prefix_rfl

theorem prefix_dropStarved (g : FlatGraph) (d : Dropped) (id : Bytes) : d <+: g.dropStarved d id := by
  unfold dropStarved
  dsimp only
  split
  · exact List.prefix_append ..
  · exact List.prefix_rfl

/-! ## Rounds -/

theorem prefix_pruneRound (g : FlatGraph) (d : Dropped) : d <+: g.pruneRound d :=
  (prefix_foldl prefix_dropRequiring _ _).trans (prefix_foldl g.prefix_dropStarved _ _)

theorem pruneRounds_keeps {P : Dropped → Prop} (hround : ∀ d, P d → P (g.pruneRound d))
    (rounds : Nat) (hd : P d) : P (g.pruneRounds rounds d) := by
  induction rounds generalizing d with
  | zero => exact hd
  | succ rounds ih =>
    rw [pruneRounds]
    split
    · exact hd
    · exact ih (hround d hd)

section Keeps

variable {P : Dropped → Prop}
  (hrequires : ∀ d, ∀ e ∈ g.edges, P d → e.kind = .requires → d.has e.source = false →
    d.has e.target = true → P (d ++ [(e.source, some (.requiresPruned e.target))]))
  (hstarves : ∀ d, ∀ id ∈ g.ids, P d → d.has id = false → g.predecessors id ≠ [] →
    (∀ s ∈ g.predecessors id, d.has s = true) → P (d ++ [(id, some .flowPruned)]))

include hrequires hstarves

/-- A round keeps what is kept when a leaf is dropped that requires a dropped one, and when one is
that only dropped ones flow to. -/
theorem pruneRound_keeps (hd : P d) : P (g.pruneRound d) := by
  refine foldl_keeps (fun d id hid hd => ?_) (foldl_keeps (fun d e he hd => ?_) hd)
  · unfold dropStarved
    dsimp only
    split
    · rename_i hdrop
      simp only [Bool.and_eq_true, Bool.not_eq_true', List.isEmpty_eq_false_iff,
        List.all_eq_true] at hdrop
      exact hstarves d id hid hd hdrop.1.1 hdrop.1.2 hdrop.2
    · exact hd
  · unfold dropRequiring
    split
    · rename_i hdrop
      simp only [Bool.and_eq_true, Bool.not_eq_true', beq_iff_eq] at hdrop
      exact hrequires d e he hd hdrop.1.1 hdrop.1.2 hdrop.2
    · exact hd

/-- Pruning keeps what is kept whenever a leaf is dropped. -/
theorem dropped_keeps {dropUnreachable : Bool}
    (honce : P (g.droppedAtOnce g.unreachable dropUnreachable)) : P (g.dropped dropUnreachable) :=
  pruneRounds_keeps (fun _ hd => pruneRound_keeps hrequires hstarves hd) _ honce

end Keeps

theorem Proper.pruneRound (h : g.Proper d) (hends : ∀ e ∈ g.edges, e.source ∈ g.ids) :
    g.Proper (g.pruneRound d) := by
  refine pruneRound_keeps (fun d e he hd _ hnew _ => ?_) (fun d id hid hd hnew _ _ => ?_) h
  · exact hd.concat (hends e he) hnew
  · exact hd.concat hid hnew

/-- With more rounds than there are leaves left, the last round drops nothing. -/
theorem settled_pruneRounds (hends : ∀ e ∈ g.edges, e.source ∈ g.ids) {rounds : Nat}
    (hd : g.Proper d) (hrounds : g.nodes.length < rounds + d.length) :
    (g.pruneRound (g.pruneRounds rounds d)).length = (g.pruneRounds rounds d).length := by
  induction rounds generalizing d with
  | zero =>
    have hle := hd.length_le
    omega
  | succ rounds ih =>
    rw [pruneRounds]
    by_cases h : (g.pruneRound d).length = d.length
    · rw [if_pos h]
      exact h
    · rw [if_neg h]
      have hle := (g.prefix_pruneRound d).length_le
      exact ih (hd.pruneRound hends) (by omega)

/-- What is dropped at once: leaves that nothing leads to, and of the others the hopeless ones. -/
theorem droppedAtOnce_eq (g : FlatGraph) (unreached : List Bytes) (dropUnreachable : Bool) :
    g.droppedAtOnce unreached dropUnreachable = .ofUnreached unreached dropUnreachable ++
      .ofHopeless (g.nodes.filter fun n =>
        !(Dropped.ofUnreached unreached dropUnreachable).has n.id) := rfl

theorem proper_ofUnreached (hids : g.ids.Nodup) (dropUnreachable : Bool) :
    g.Proper (.ofUnreached g.unreachable dropUnreachable) := by
  refine ⟨?_, fun id hid => ?_⟩
  · cases dropUnreachable with
    | false => exact List.nodup_nil
    | true =>
      have hnodup : g.unreachable.Nodup := hids.filter _
      simpa [Dropped.ofUnreached, Function.comp_def] using hnodup
  · obtain ⟨-, hid⟩ := Dropped.has_ofUnreached_iff.1 (Dropped.has_iff.2 hid)
    exact (List.mem_filter.1 hid).1

theorem proper_droppedAtOnce (hids : g.ids.Nodup) (dropUnreachable : Bool) :
    g.Proper (g.droppedAtOnce g.unreachable dropUnreachable) := by
  rw [droppedAtOnce_eq]
  have hsub := Dropped.sublist_ofHopeless (g.nodes.filter fun n =>
    !(Dropped.ofUnreached g.unreachable dropUnreachable).has n.id)
  refine (proper_ofUnreached hids dropUnreachable).append ⟨hsub.nodup ?_, fun id hid => ?_⟩
    fun id hid => ?_
  · exact hids.sublist (List.filter_sublist.map _)
  · exact (List.filter_sublist.map _).subset (hsub.subset hid)
  · obtain ⟨n, hn, rfl, -⟩ := Dropped.has_ofHopeless_iff.1 hid
    simpa using (List.mem_filter.1 hn).2

theorem proper_dropped (hids : g.ids.Nodup) (hends : ∀ e ∈ g.edges, e.source ∈ g.ids)
    (dropUnreachable : Bool) : g.Proper (g.dropped dropUnreachable) :=
  pruneRounds_keeps (fun _ hd => hd.pruneRound hends) _ (proper_droppedAtOnce hids dropUnreachable)

/-- The last round of pruning drops nothing. -/
theorem settled_dropped (hids : g.ids.Nodup) (hends : ∀ e ∈ g.edges, e.source ∈ g.ids)
    (dropUnreachable : Bool) :
    (g.pruneRound (g.dropped dropUnreachable)).length = (g.dropped dropUnreachable).length :=
  settled_pruneRounds hends (proper_droppedAtOnce hids dropUnreachable) (by omega)

/-! ## What is left -/

/-- In a round that drops nothing, neither edges nor leaves drop anything. -/
theorem steps_of_settled (h : (g.pruneRound d).length = d.length) :
    (∀ e ∈ g.edges, dropRequiring d e = d) ∧ ∀ id ∈ g.ids, g.dropStarved d id = d := by
  have hfirst := prefix_foldl prefix_dropRequiring g.edges d
  have hsecond := prefix_foldl g.prefix_dropStarved g.ids (g.edges.foldl dropRequiring d)
  have hle := hfirst.length_le
  have hle' := hsecond.length_le
  unfold pruneRound at h
  have hsame : g.edges.foldl dropRequiring d = d := (hfirst.eq_of_length (by omega)).symm
  rw [hsame] at h
  exact ⟨foldl_settled prefix_dropRequiring (congrArg List.length hsame),
    foldl_settled g.prefix_dropStarved h⟩

/-- A leaf that requires a dropped one is dropped. -/
theorem has_of_requires (h : (g.pruneRound d).length = d.length) {e : Edge} (he : e ∈ g.edges)
    (hkind : e.kind = .requires) (htarget : d.has e.target = true) : d.has e.source = true := by
  have hstep := (steps_of_settled h).1 e he
  unfold dropRequiring at hstep
  by_contra hsource
  rw [Bool.not_eq_true] at hsource
  rw [if_pos (by simp [hkind, htarget, hsource])] at hstep
  simpa using congrArg List.length hstep

/-- A leaf all of whose predecessors were dropped is dropped. -/
theorem has_of_predecessors (h : (g.pruneRound d).length = d.length) {id : Bytes}
    (hid : id ∈ g.ids) (hsome : g.predecessors id ≠ [])
    (hall : ∀ s ∈ g.predecessors id, d.has s = true) : d.has id = true := by
  have hstep := (steps_of_settled h).2 id hid
  unfold dropStarved at hstep
  dsimp only at hstep
  by_contra hnot
  rw [Bool.not_eq_true] at hnot
  rw [if_pos (by
    simp only [Bool.and_eq_true, Bool.not_eq_true', List.isEmpty_eq_false_iff, List.all_eq_true]
    exact ⟨⟨hnot, hsome⟩, hall⟩)] at hstep
  simpa using congrArg List.length hstep

/-- What a leaf requires that is left is left. -/
theorem kept_of_requires (h : (g.pruneRound d).length = d.length) {a b : Bytes}
    (he : ⟨a, .requires, b⟩ ∈ g.edges) (ha : d.has a = false) : d.has b = false := by
  by_contra hb
  have hdrop := has_of_requires h he rfl (by simpa using hb)
  rw [ha] at hdrop
  cases hdrop

/-- A leaf that is left has a predecessor that is left, if it has any. -/
theorem exists_kept_predecessor (h : (g.pruneRound d).length = d.length) {id : Bytes}
    (hid : id ∈ g.ids) (hsome : g.predecessors id ≠ []) (hkept : d.has id = false) :
    ∃ s ∈ g.predecessors id, d.has s = false := by
  by_contra hnone
  have hdrop := has_of_predecessors h hid hsome fun s hs => by
    by_contra hleft
    exact hnone ⟨s, hs, by simpa using hleft⟩
  rw [hkept] at hdrop
  cases hdrop

theorem mem_predecessors_iff {id a : Bytes} :
    a ∈ g.predecessors id ↔ ⟨a, .flowsTo, id⟩ ∈ g.edges := by
  unfold predecessors
  simp only [List.mem_map, List.mem_filter, Bool.and_eq_true, beq_iff_eq]
  constructor
  · rintro ⟨⟨_, _, _⟩, ⟨he, rfl, rfl⟩, rfl⟩
    exact he
  · exact fun h => ⟨_, ⟨h, rfl, rfl⟩, rfl⟩

end FlatGraph
end DecisionEngine
