import DecisionEngine.Plan.Execution
import DecisionEngine.Proofs.Failure
import DecisionEngine.Proofs.Plan.Arbitration
/-!
# What a step makes of a run

A step lets at most one node fire, of which the guard passes: its only node, or the one that is
picked of the branches of a selector.  The node decides if it has an outcome; a selector that lets
none fire stays unresolved.  Steps whose nodes the plan has, and whose dominance does not run in
circles, never end a run.

* `Situation.Passes` — the guard of a node passes.
* `Situation.winner?` — the node that a step lets fire.
* `Progress.Takes` — what a step adds to a run.
* `Situation.runSequential_eq_ok`, `runTask_eq_ok`, `runSelector_eq_ok`, `run_eq_ok` — what has
  happened where a step, or a whole plan, was run.
* `Situation.exists_runStep` — steps that make sense are run, and add what they should.
-/

namespace DecisionEngine

open Relation (TransGen)

/-! ## Choices -/

/-- The nodes that a step can let fire, with their guards. -/
def Step.choices : Step → List (Nat × Guard)
  | .sequential node g => [(node, g)]
  | .task node g _ => [(node, g)]
  | .selector s => s.branches.map fun b => (b.node, b.guard)

/-- The winners and losers that a step lists. -/
def Step.dominance : Step → List (Nat × Nat)
  | .sequential _ _ => []
  | .task _ _ _ => []
  | .selector s => s.dominates

/-- The steps that stay unresolved where a step lets no node fire: itself if it is a selection. -/
def Step.opens (index : Nat) : Step → List Nat
  | .selector _ => [index]
  | _ => []

/-- A plan can run a step: it has its nodes, and dominance does not run in circles. -/
structure Step.Runnable (step : Step) (b : Blueprint) : Prop where
  nodes : ∀ ch ∈ step.choices, ch.1 < b.nodes.length
  acyclic : ∀ n, ¬TransGen (fun x y => (x, y) ∈ step.dominance) n n

/-- A node that a step lets fire, with its outcome. -/
structure Winner where
  node : Nat
  id : Bytes
  outcome : Option Outcome

/-- What a winner decides. -/
def Winner.decisions (w : Winner) (index : Nat) : List Decision :=
  (w.outcome.map fun o => Decision.chosenBy w.id o.action o.params index).toList

/-! ## Progress -/

/-- A run comes to what has fired, and gains decisions and unresolved steps. -/
structure Progress.Gains (p p' : Progress) (fired : List Bool) (decisions : List Decision)
    (unresolved : List Nat) : Prop where
  fired : p'.fired = fired
  decisions : p'.decisions = p.decisions ++ decisions
  unresolved : p'.unresolved = p.unresolved ++ unresolved

/-- What a step adds to a run: its winner fires and decides, and without one it may stay
unresolved. -/
inductive Progress.Takes (p p' : Progress) (index : Nat) (step : Step) : Option Winner → Prop
  | won (w : Winner) : p.Gains p' (p.fired.set w.node true) (w.decisions index) [] →
      Takes p p' index step (some w)
  | idle : p.Gains p' p.fired [] (step.opens index) → Takes p p' index step none

theorem Progress.Gains.trans {p q r : Progress} {fired fired' : List Bool}
    {decisions decisions' : List Decision} {unresolved unresolved' : List Nat}
    (h : p.Gains q fired decisions unresolved) (h' : q.Gains r fired' decisions' unresolved') :
    p.Gains r fired' (decisions ++ decisions') (unresolved ++ unresolved') :=
  ⟨h'.fired, by rw [h'.decisions, h.decisions, List.append_assoc],
    by rw [h'.unresolved, h.unresolved, List.append_assoc]⟩

/-- A run in which only the trail and the figures differ. -/
theorem Progress.gains_nothing {p p' : Progress} (hfired : p'.fired = p.fired)
    (hdecisions : p'.decisions = p.decisions) (hunresolved : p'.unresolved = p.unresolved) :
    p.Gains p' p.fired [] [] :=
  ⟨hfired, by rw [hdecisions, List.append_nil], by rw [hunresolved, List.append_nil]⟩

namespace Situation

variable {s : Situation}

/-! ## Guards -/

/-- A guard passes: its mask is covered, and its program answers that it does. -/
def Passes (s : Situation) (fired : List Bool) (g : Guard) : Prop :=
  s.mask.covers g.mask = true ∧ g.program.run (s.env fired) = .ok true

instance (fired : List Bool) (g : Guard) : Decidable (s.Passes fired g) :=
  inferInstanceAs (Decidable (_ ∧ _))

theorem result_testGuard (fired : List Bool) (step : Nat) (node : Bytes) (g : Guard) :
    (s.testGuard fired step node g).result = .passed ↔ s.Passes fired g := by
  unfold testGuard Passes
  dsimp only
  by_cases hcovers : s.mask.covers g.mask = true
  · rw [if_pos hcovers]
    cases hrun : g.program.run (s.env fired) with
    | error fault => simp
    | ok b => cases b <;> simp [hcovers]
  · rw [if_neg hcovers]
    simp [hcovers]

/-! ## Winners -/

/-- The id of the node of a number. -/
def idOf (s : Situation) (node : Nat) : Bytes := (s.blueprint.nodeId? node).getD []

/-- A branch at its place as a candidate. -/
def candidate (s : Situation) (b : Branch × Nat) : Candidate := ⟨b.2, b.1, s.idOf b.1.node⟩

/-- The candidates of a selector: the branches of which the guards pass. -/
def candidates (s : Situation) (fired : List Bool) (sel : Selector) : List Candidate :=
  (sel.branches.zipIdx.filter fun b => s.Passes fired b.1.guard).map s.candidate

/-- The node that a step lets fire. -/
def winner? (s : Situation) (fired : List Bool) : Step → Option Winner
  | .sequential node g => if s.Passes fired g then some ⟨node, s.idOf node, none⟩ else none
  | .task node g o => if s.Passes fired g then some ⟨node, s.idOf node, some o⟩ else none
  | .selector sel => (pick sel.dominatesIn (sel.beats s.comparators) (s.candidates fired sel)).map
      fun c => ⟨c.branch.node, c.id, c.branch.outcome⟩

theorem planNode_eq {n : Nat} (h : n < s.blueprint.nodes.length) :
    s.planNode n = .ok s.blueprint.nodes[n] ∧ s.idOf n = s.blueprint.nodes[n].id := by
  unfold planNode idOf Blueprint.nodeId?
  rw [List.getElem?_eq_getElem h]
  exact ⟨rfl, rfl⟩

/-- The node of a number has the id of the number. -/
theorem idOf_of_planNode {index : Nat} {n : PlanNode} (h : s.planNode index = .ok n) :
    s.idOf index = n.id := by
  unfold planNode at h
  unfold idOf Blueprint.nodeId?
  cases hnode : s.blueprint.nodes[index]? with
  | none =>
    rw [hnode] at h
    cases h
  | some m =>
    rw [hnode] at h
    cases h
    rfl

/-! ## Where a step was run -/

section

variable {index node place : Nat} {g : Guard} {b : Branch} {bs : List (Branch × Nat)}
  {sel : Selector} {p p' : Progress}

theorem noted_nil (p : Progress) : p.noted [] = p := by
  rw [Progress.noted, List.append_nil]

/-- A rule without outcome is tested, and fires if its guard passes. -/
theorem runSequential_eq_ok (h : s.runSequential index node g p = .ok p') :
    ∃ n q, s.planNode node = .ok n ∧ q = afterTest p (s.testGuard p.fired index n.id g) ∧
      p' = if s.Passes p.fired g then
        (q.fire node).noted [⟨.fired, some index, n.id, 0, n.kind.name⟩] else q := by
  obtain ⟨n, hn, h⟩ := bind_eq_ok.1 h
  refine ⟨n, _, hn, rfl, ?_⟩
  dsimp only at h
  simp only [result_testGuard] at h
  split at h
  · rename_i hpass
    cases h
    exact (if_pos hpass).symm
  · rename_i hpass
    cases h
    exact (if_neg hpass).symm

/-- An action is tested, and if its guard passes, it fires and decides. -/
theorem runTask_eq_ok {o : Outcome} (h : s.runTask index node g o p = .ok p') :
    ∃ n q, s.planNode node = .ok n ∧ q = afterTest p (s.testGuard p.fired index n.id g) ∧
      p' = if s.Passes p.fired g then
        ((q.fire node).decided (.chosenBy n.id o.action o.params index)).noted
          [⟨.fired, some index, n.id, 0, utf8 "emitted " ++ Bytes.quoted o.action⟩] else q := by
  obtain ⟨n, hn, h⟩ := bind_eq_ok.1 h
  refine ⟨n, _, hn, rfl, ?_⟩
  dsimp only at h
  simp only [result_testGuard] at h
  split at h
  · rename_i hpass
    cases h
    exact (if_pos hpass).symm
  · rename_i hpass
    cases h
    exact (if_neg hpass).symm

/-- The first of some branches is tested, and is a candidate if its guard passes; then the others
are. -/
theorem testBranches_cons_eq_ok {places : List Nat}
    (h : s.testBranches index ((b, place) :: bs) p = .ok (places, p')) :
    ∃ n q others, s.planNode b.node = .ok n ∧
      q = (afterTest p (s.testGuard p.fired index n.id b.guard)).noted
        (if s.Passes p.fired b.guard then s.verbosely ⟨.candidate, some index, n.id, b.guard.mask,
          utf8 "priority " ++ Bytes.signedDecimal b.priority.toInt⟩ else []) ∧
      s.testBranches index bs q = .ok (others, p') ∧
      places = if s.Passes p.fired b.guard then place :: others else others := by
  rw [testBranches] at h
  obtain ⟨n, hn, h⟩ := bind_eq_ok.1 h
  dsimp only at h
  simp only [result_testGuard] at h
  split at h
  · rename_i hpass
    obtain ⟨⟨others, q⟩, hothers, h⟩ := bind_eq_ok.1 h
    cases h
    refine ⟨n, _, others, hn, rfl, ?_, (if_pos hpass).symm⟩
    rw [if_pos hpass]
    exact hothers
  · rename_i hpass
    refine ⟨n, _, places, hn, rfl, ?_, (if_neg hpass).symm⟩
    rw [if_neg hpass, noted_nil]
    exact h

/-- The winner of a selection is a branch: it fires and decides if it has an outcome, and the losers
are alternatives. -/
theorem selected_eq_ok {winner : Nat} {v : Selection}
    (h : s.selected index sel winner v p = .ok p') :
    ∃ br n as q, sel.branches[winner]? = some br ∧ s.planNode br.node = .ok n ∧
      v.losers.mapM (s.alternativeOf index sel) = .ok as ∧
      q = (p.fire br.node).noted [⟨.arbitration, some index, n.id, br.guard.mask, v.rationale⟩] ∧
      p' = { q with
        decisions := q.decisions ++ (Winner.decisions ⟨br.node, n.id, br.outcome⟩ index)
        alternatives := q.alternatives ++ as } := by
  unfold selected at h
  split at h
  · cases h
  · rename_i br hbr
    obtain ⟨n, hn, h⟩ := bind_eq_ok.1 h
    obtain ⟨as, has, h⟩ := bind_eq_ok.1 h
    refine ⟨br, n, as, _, hbr, hn, has, rfl, ?_⟩
    cases h
    cases br.outcome with
    | none => simp [Winner.decisions]
    | some o => rfl

/-- A selection tests its branches and arbitrates those that pass; it stays unresolved if there is
no winner. -/
theorem runSelector_eq_ok (h : s.runSelector index sel p = .ok p') :
    ∃ places q v, s.testBranches index sel.branches.zipIdx p = .ok (places, q) ∧
      sel.arbitrate s.comparators s.blueprint.nodes places = .ok v ∧
      ((v.winner = none ∧ p' = unselected index sel q) ∨
        ∃ w, v.winner = some w ∧ s.selected index sel w v q = .ok p') := by
  obtain ⟨⟨places, q⟩, htests, h⟩ := bind_eq_ok.1 h
  obtain ⟨v, hv, h⟩ := bind_eq_ok.1 h
  rw [mapError_eq_ok] at hv
  refine ⟨places, q, v, htests, hv, ?_⟩
  split at h
  · rename_i hwinner
    cases h
    exact .inl ⟨hwinner, rfl⟩
  · rename_i w hwinner
    exact .inr ⟨w, hwinner, h⟩

/-- Steps are run one after another. -/
theorem runSteps_cons_eq_ok {step : Step} {steps : List (Step × Nat)}
    (h : s.runSteps ((step, index) :: steps) p = .ok p') :
    ∃ q, s.runStep index step p = .ok q ∧ s.runSteps steps q = .ok p' := by
  obtain ⟨-, -, h⟩ := bind_eq_ok.1 h
  exact bind_eq_ok.1 h

/-- A run is that of its steps, of which guardrails review the decisions. -/
theorem run_eq_ok {result : RunResult} (h : s.run = .ok result) :
    ∃ q review, s.runSteps s.blueprint.steps.zipIdx (.start s.blueprint) = .ok q ∧
      s.blueprint.applyGuardrails (s.env q.fired) q.unresolved q.decisions = .ok review ∧
      result = ⟨review.decisions, q.alternatives, q.trail ++ review.trail, q.figures,
        review.figures⟩ := by
  obtain ⟨q, hq, h⟩ := bind_eq_ok.1 h
  obtain ⟨-, -, h⟩ := bind_eq_ok.1 h
  obtain ⟨review, hreview, h⟩ := bind_eq_ok.1 h
  obtain ⟨-, -, h⟩ := bind_eq_ok.1 h
  rw [mapError_eq_ok] at hreview
  cases h
  exact ⟨q, review, hq, hreview, rfl⟩

end

/-! ## Steps of one node -/

theorem exists_runSequential {index node : Nat} {g : Guard}
    (h : (Step.sequential node g).Runnable s.blueprint) (p : Progress) :
    ∃ p', s.runSequential index node g p = .ok p' ∧
      p.Takes p' index (.sequential node g) (s.winner? p.fired (.sequential node g)) := by
  have hlt : node < s.blueprint.nodes.length := h.nodes (node, g) (List.mem_singleton.2 rfl)
  obtain ⟨hn, -⟩ := planNode_eq hlt
  have hresult := result_testGuard (s := s) p.fired index s.blueprint.nodes[node].id g
  unfold runSequential winner?
  rw [hn]
  simp only [bind, Except.bind]
  by_cases hpass : s.Passes p.fired g
  · rw [if_pos (hresult.2 hpass), if_pos hpass]
    exact ⟨_, rfl, .won _ ⟨rfl, (List.append_nil _).symm, (List.append_nil _).symm⟩⟩
  · rw [if_neg fun hp => hpass (hresult.1 hp), if_neg hpass]
    exact ⟨_, rfl, .idle (Progress.gains_nothing rfl rfl rfl)⟩

theorem exists_runTask {index node : Nat} {g : Guard} {o : Outcome}
    (h : (Step.task node g o).Runnable s.blueprint) (p : Progress) :
    ∃ p', s.runTask index node g o p = .ok p' ∧
      p.Takes p' index (.task node g o) (s.winner? p.fired (.task node g o)) := by
  have hlt : node < s.blueprint.nodes.length := h.nodes (node, g) (List.mem_singleton.2 rfl)
  obtain ⟨hn, hid⟩ := planNode_eq hlt
  have hresult := result_testGuard (s := s) p.fired index s.blueprint.nodes[node].id g
  unfold runTask winner?
  dsimp only
  rw [hn, hid]
  simp only [bind, Except.bind]
  by_cases hpass : s.Passes p.fired g
  · rw [if_pos (hresult.2 hpass), if_pos hpass]
    exact ⟨_, rfl, .won _ ⟨rfl, rfl, (List.append_nil _).symm⟩⟩
  · rw [if_neg fun hp => hpass (hresult.1 hp), if_neg hpass]
    exact ⟨_, rfl, .idle (Progress.gains_nothing rfl rfl rfl)⟩

/-! ## Selections -/

/-- Testing branches lets none fire; the candidates are the places of those that pass. -/
theorem exists_testBranches (index : Nat) (bs : List (Branch × Nat)) (p : Progress)
    (h : ∀ b ∈ bs, b.1.node < s.blueprint.nodes.length) :
    ∃ p', s.testBranches index bs p =
        .ok ((bs.filter fun b => s.Passes p.fired b.1.guard).map (·.2), p') ∧
      p.Gains p' p.fired [] [] := by
  induction bs generalizing p with
  | nil => exact ⟨p, rfl, Progress.gains_nothing rfl rfl rfl⟩
  | cons head bs ih =>
    obtain ⟨b, place⟩ := head
    have hlt := h _ (List.mem_cons_self ..)
    obtain ⟨hn, -⟩ := planNode_eq hlt
    have hrest := fun c hc => h c (List.mem_cons_of_mem _ hc)
    have hresult := result_testGuard (s := s) p.fired index s.blueprint.nodes[b.node].id
      b.guard
    rw [testBranches, hn]
    simp only [bind, Except.bind]
    by_cases hpass : s.Passes p.fired b.guard
    · rw [if_pos (hresult.2 hpass), List.filter_cons_of_pos (by simpa using hpass)]
      obtain ⟨p', hrun, hgains⟩ := ih ((afterTest p (s.testGuard p.fired index
        s.blueprint.nodes[b.node].id b.guard)).noted (s.verbosely
          ⟨.candidate, some index, s.blueprint.nodes[b.node].id, b.guard.mask,
            utf8 "priority " ++ Bytes.signedDecimal b.priority.toInt⟩)) hrest
      rw [hrun]
      exact ⟨p', rfl, hgains.fired, hgains.decisions, hgains.unresolved⟩
    · rw [if_neg fun hp => hpass (hresult.1 hp), List.filter_cons_of_neg (by simpa using hpass)]
      obtain ⟨p', hrun, hgains⟩ := ih (afterTest p (s.testGuard p.fired index
        s.blueprint.nodes[b.node].id b.guard)) hrest
      rw [hrun]
      exact ⟨p', rfl, hgains.fired, hgains.decisions, hgains.unresolved⟩

/-- A winner that the selector has fires and decides. -/
theorem exists_selected (index : Nat) {sel : Selector} {winner : Nat} {w : Branch} {v : Selection}
    (p : Progress) (hw : sel.branches[winner]? = some w)
    (hnodes : ∀ b ∈ sel.branches, b.node < s.blueprint.nodes.length)
    (hlosers : ∀ l ∈ v.losers, ∃ b, sel.branches[l.branch]? = some b) :
    ∃ p', s.selected index sel winner v p = .ok p' ∧
      p.Gains p' (p.fired.set w.node true)
        (Winner.decisions ⟨w.node, s.idOf w.node, w.outcome⟩ index) [] := by
  obtain ⟨hn, hid⟩ := planNode_eq (hnodes w (List.mem_of_getElem? hw))
  have halternatives : ∀ l ∈ v.losers, ∃ a, s.alternativeOf index sel l = .ok a := by
    intro l hl
    obtain ⟨b, hb⟩ := hlosers l hl
    obtain ⟨hm, -⟩ := planNode_eq (hnodes b (List.mem_of_getElem? hb))
    unfold alternativeOf
    rw [hb]
    dsimp only
    rw [hm]
    exact ⟨_, rfl⟩
  obtain ⟨alternatives, halt⟩ := exists_mapM_eq_ok halternatives
  unfold selected
  rw [hw]
  dsimp only
  rw [hn, halt, hid]
  refine ⟨_, rfl, ?_⟩
  cases w.outcome with
  | none => exact ⟨rfl, (List.append_nil _).symm, (List.append_nil _).symm⟩
  | some o => exact ⟨rfl, rfl, (List.append_nil _).symm⟩

/-- The candidates of a selector are at the places of the branches that pass. -/
theorem forall₂_candidates {sel : Selector} (fired : List Bool)
    (hnodes : ∀ b ∈ sel.branches, b.node < s.blueprint.nodes.length) :
    List.Forall₂ (fun i c => sel.candidate? s.blueprint.nodes i = some c ∧ c.index = i)
      ((sel.branches.zipIdx.filter fun b => s.Passes fired b.1.guard).map (·.2))
      (s.candidates fired sel) := by
  unfold candidates
  rw [List.forall₂_map_left_iff, List.forall₂_map_right_iff, List.forall₂_same]
  intro b hb
  have hplace := List.mem_zipIdx_iff_getElem?.1 (List.mem_filter.1 hb).1
  have hlt := hnodes b.1 (List.mem_of_getElem? hplace)
  refine ⟨?_, rfl⟩
  rw [Selector.candidate?_eq hplace (List.getElem?_eq_getElem hlt), candidate, (planNode_eq hlt).2]

/-- A candidate is the branch at its place. -/
theorem branch_of_mem_candidates {fired : List Bool} {sel : Selector} {c : Candidate}
    (hc : c ∈ s.candidates fired sel) : sel.branches[c.index]? = some c.branch := by
  obtain ⟨b, hb, rfl⟩ := List.mem_map.1 hc
  exact List.mem_zipIdx_iff_getElem?.1 (List.mem_filter.1 hb).1

/-- A selection is run if its branches have nodes and, where there are candidates, one of them is
picked. -/
theorem exists_runSelector_of_pick (index : Nat) {sel : Selector} (p : Progress)
    (hnodes : ∀ b ∈ sel.branches, b.node < s.blueprint.nodes.length)
    (hpick : s.candidates p.fired sel ≠ [] →
      ∃ w, pick sel.dominatesIn (sel.beats s.comparators) (s.candidates p.fired sel) = some w) :
    ∃ p', s.runSelector index sel p = .ok p' ∧
      p.Takes p' index (.selector sel) (s.winner? p.fired (.selector sel)) := by
  obtain ⟨q, hrun, hgains⟩ := exists_testBranches index sel.branches.zipIdx p
    fun b hb => hnodes b.1 (List.fst_mem_of_mem_zipIdx hb)
  have hplaces := s.forall₂_candidates p.fired hnodes
  unfold runSelector winner?
  rw [hrun]
  simp only [bind, Except.bind]
  generalize (sel.branches.zipIdx.filter _).map (·.2) = places at hplaces
  by_cases hempty : s.candidates p.fired sel = []
  · rw [hempty] at hplaces ⊢
    cases hplaces
    exact ⟨_, rfl, .idle (hgains.trans ⟨hgains.fired, (List.append_nil _).symm, rfl⟩)⟩
  · obtain ⟨w, hw⟩ := hpick hempty
    obtain ⟨v, hv, hwinner, hlosers⟩ := Selector.exists_arbitrate hplaces hw
    obtain ⟨p', hselected, hgains'⟩ := exists_selected (s := s) index (v := v) q
      (branch_of_mem_candidates (pick_spec hw).1) hnodes fun l hl => by
        obtain ⟨c, hc, -, hindex⟩ := forall₂_of_mem_left hplaces (hlosers l hl)
        exact ⟨c.branch, hindex ▸ branch_of_mem_candidates hc⟩
    have hid : s.idOf w.branch.node = w.id := by
      obtain ⟨b, -, rfl⟩ := List.mem_map.1 (pick_spec hw).1
      rfl
    rw [hw, hv]
    simp only [Except.mapError, hwinner]
    refine ⟨p', hselected, .won _ ?_⟩
    rw [hgains.fired, hid] at hgains'
    exact hgains.trans hgains'

theorem exists_runSelector (index : Nat) {sel : Selector}
    (h : (Step.selector sel).Runnable s.blueprint) (p : Progress) :
    ∃ p', s.runSelector index sel p = .ok p' ∧
      p.Takes p' index (.selector sel) (s.winner? p.fired (.selector sel)) :=
  exists_runSelector_of_pick index p
    (fun b hb => h.nodes (b.node, b.guard) (List.mem_map.2 ⟨b, hb, rfl⟩))
    fun hne => Selector.exists_picked s.comparators hne h.acyclic

/-- Steps that make sense are run, and add what they should. -/
theorem exists_runStep (index : Nat) {step : Step} (h : step.Runnable s.blueprint)
    (p : Progress) :
    ∃ p', s.runStep index step p = .ok p' ∧ p.Takes p' index step (s.winner? p.fired step) := by
  cases step with
  | sequential node g => exact exists_runSequential h p
  | task node g o => exact exists_runTask h p
  | selector sel => exact exists_runSelector index h p

end Situation
end DecisionEngine
