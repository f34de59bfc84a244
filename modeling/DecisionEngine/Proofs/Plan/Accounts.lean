import DecisionEngine.Proofs.Plan.Entries
import DecisionEngine.Proofs.Plan.Selection
import DecisionEngine.Proofs.Plan.Steps
/-!
# A trail accounts for every step

Where everything is explained, a step writes one entry about every guard that it tests, in the order
of its branches, and the entry says whether the guard passes.  A step with one node says that it
fires, if it does; a selection says how it was settled; and the branches that pass but do not win
are listed as alternatives.  What steps write is put together in their order, so all steps of a run
are accounted for.

* `Situation.Turn`, `Situation.turns` — the steps of a run, each with what has fired before it.
* `Situation.selected?` — the branch that a selection lets win.
* `Situation.Ledger` — what is written about some turns.
* `Situation.Tested` — what testing the branches of a selection writes.
* `Situation.writes_runStep`, `Situation.writes_runSteps` — what steps write accounts for them.
* `Situation.ledger_run` — what a whole run writes does.
-/

namespace DecisionEngine

/-! ## Turns -/

/-- The kinds of entries about the tests of guards. -/
def TrailKind.isOfTest : TrailKind → Bool
  | maskSkip | guardPassed | guardFailed | guardFault => true
  | _ => false

namespace Trail

/-- The entries about the tests of guards. -/
def tests (t : Trail) : Trail := t.filter (·.kind.isOfTest)

variable {P : TrailKind → Bool} {t : Trail}

theorem tests_append (t u : Trail) : tests (t ++ u) = t.tests ++ u.tests := List.filter_append ..

theorem Only.tests_eq (h : t.Only TrailKind.isOfTest) : t.tests = t := List.filter_eq_self.2 h

theorem Only.tests_eq_nil (h : t.Only P) (hP : ∀ k, P k = true → k.isOfTest = false) :
    t.tests = [] := by
  refine List.filter_eq_nil_iff.2 fun e he => ?_
  rw [hP _ (h e he)]
  exact Bool.false_ne_true

end Trail

namespace Situation

/-- A step of a run, with the nodes that have fired when it is its turn. -/
structure Turn where
  step : Step
  index : Nat
  fired : List Bool

/-- The turns of a run. -/
def turns (s : Situation) : List (Step × Nat) → Progress → List Turn
  | [], _ => []
  | (step, index) :: rest, p =>
    ⟨step, index, p.fired⟩ :: match s.runStep index step p with
      | .ok p' => s.turns rest p'
      | .error _ => []

/-- The nodes that are tested at a turn, with their guards. -/
def Turn.tests (t : Turn) : List (Turn × Nat × Guard) := t.step.choices.map fun ch => (t, ch)

/-- An entry is about a test: it is about the step and the node, and tells that the guard passes
exactly if it does. -/
structure TellsOf (s : Situation) (test : Turn × Nat × Guard) (e : TrailEntry) : Prop where
  step : e.step = some test.1.index
  node : e.node = s.idOf test.2.1
  passed : e.kind = .guardPassed ↔ s.Passes test.1.fired test.2.2

/-- The branches that pass, at their places. -/
def passing (s : Situation) (fired : List Bool) (sel : Selector) : List (Branch × Nat) :=
  sel.branches.zipIdx.filter fun b => s.Passes fired b.1.guard

/-- The branch that a selection lets win, at its place. -/
def selected? (s : Situation) (fired : List Bool) (sel : Selector) : Option (Branch × Nat) :=
  match sel.arbitrate s.comparators s.blueprint.nodes ((s.passing fired sel).map (·.2)) with
  | .ok v => v.winner.bind fun w => sel.branches[w]?.map fun b => (b, w)
  | .error _ => none

namespace Turn

/-- The node of a turn that is no selection, if it fires. -/
def fires (t : Turn) (s : Situation) : List Bytes :=
  match t.step with
  | .sequential node g => if s.Passes t.fired g then [s.idOf node] else []
  | .task node g _ => if s.Passes t.fired g then [s.idOf node] else []
  | .selector _ => []

/-- The winner of a turn that is a selection; no node if there is none. -/
def settles (t : Turn) (s : Situation) : List Bytes :=
  match t.step with
  | .selector sel => [((s.selected? t.fired sel).map fun b => s.idOf b.1.node).getD []]
  | _ => []

/-- The branches of a turn that pass and do not win, by their nodes and actions. -/
def passesOver (t : Turn) (s : Situation) : List (Bytes × Bytes) :=
  match t.step with
  | .selector sel => ((s.passing t.fired sel).filter fun b =>
      (s.selected? t.fired sel).map (·.2) != some b.2).map fun b =>
        (s.idOf b.1.node, actionOf b.1)
  | _ => []

end Turn

/-! ## Ledgers -/

/-- A trail and alternatives account for some turns, in their order: there is one entry about every
test, one that a node fires for every step with one node that does, one about every selection with
its winner, and an alternative for every branch that passes and does not win. -/
structure Ledger (s : Situation) (turns : List Turn) (t : Trail) (alternatives : List Alternative) :
    Prop where
  tests : List.Forall₂ s.TellsOf (turns.flatMap Turn.tests) t.tests
  fired : (t.ofKind .fired).map (fun e => (e.step, e.node)) =
    turns.flatMap fun turn => (turn.fires s).map fun id => (some turn.index, id)
  settled : (t.ofKind .arbitration).map (fun e => (e.step, e.node)) =
    turns.flatMap fun turn => (turn.settles s).map fun id => (some turn.index, id)
  passedOver : alternatives.map (fun a => (a.step, a.node, a.action)) =
    turns.flatMap fun turn => (turn.passesOver s).map fun b => (turn.index, b)

variable {s : Situation} {index : Nat} {p p' : Progress}

theorem ledger_nil : s.Ledger [] [] [] := ⟨.nil, rfl, rfl, rfl⟩

/-- What is written about some turns and then about others is about all of them. -/
theorem Ledger.append {turns more : List Turn} {t u : Trail} {as bs : List Alternative}
    (h : s.Ledger turns t as) (h' : s.Ledger more u bs) :
    s.Ledger (turns ++ more) (t ++ u) (as ++ bs) where
  tests := by
    rw [List.flatMap_append, Trail.tests_append]
    exact List.rel_append h.tests h'.tests
  fired := by rw [List.flatMap_append, ← h.fired, ← h'.fired, Trail.ofKind_append, List.map_append]
  settled := by
    rw [List.flatMap_append, ← h.settled, ← h'.settled, Trail.ofKind_append, List.map_append]
  passedOver := by rw [List.flatMap_append, ← h.passedOver, ← h'.passedOver, List.map_append]

/-- The entries about tests name the nodes of the turns. -/
theorem Ledger.nodes {turns : List Turn} {t : Trail} {as : List Alternative}
    (h : s.Ledger turns t as) :
    t.tests.map (·.node) = (turns.flatMap fun turn => turn.step.choices.map (·.1)).map s.idOf := by
  have hnodes : t.tests.map (·.node) =
      (turns.flatMap Turn.tests).map fun test => s.idOf test.2.1 := by
    rw [← List.forall₂_eq_eq_eq, List.forall₂_map_left_iff, List.forall₂_map_right_iff]
    exact h.tests.flip.imp fun _ _ htells => htells.node
  rw [hnodes, List.map_flatMap, List.map_flatMap]
  refine List.flatMap_congr fun turn _ => ?_
  rw [Turn.tests, List.map_map, List.map_map]
  rfl

/-! ## Tests -/

/-- Where everything is explained, the test of a guard makes one entry, which is about that test. -/
theorem exists_testGuard_trail (hverbose : s.verbose = true) (turn : Turn) {node : Nat}
    {n : PlanNode} (hn : s.planNode node = .ok n) (g : Guard) :
    ∃ e, (s.testGuard turn.fired turn.index n.id g).trail = [e] ∧ e.kind.isOfTest = true ∧
      s.TellsOf (turn, node, g) e := by
  have hid := (idOf_of_planNode hn).symm
  unfold testGuard verbosely
  by_cases hcovers : s.mask.covers g.mask = true
  · rw [if_pos hcovers]
    cases hrun : g.program.run (s.env turn.fired) with
    | error fault => exact ⟨_, rfl, rfl, rfl, hid, by simp [Passes, hrun]⟩
    | ok passes =>
      cases passes with
      | true => exact ⟨_, if_pos hverbose, rfl, rfl, hid, by simp [Passes, hcovers, hrun]⟩
      | false => exact ⟨_, if_pos hverbose, rfl, rfl, hid, by simp [Passes, hrun]⟩
  · rw [if_neg hcovers]
    exact ⟨_, if_pos hverbose, rfl, rfl, hid, by simp [Passes, hcovers]⟩

/-- What is written between two points of a run accounts for some turns. -/
def Writes (s : Situation) (p p' : Progress) (turns : List Turn) : Prop :=
  ∃ t as, p'.trail = p.trail ++ t ∧ p'.alternatives = p.alternatives ++ as ∧ s.Ledger turns t as

/-! ## Steps with one node -/

/-- The entry about the test of its only node, and the one that the node fires if it does, account
for a step. -/
theorem writes_of_test (hverbose : s.verbose = true) {turn : Turn} {node : Nat} {n : PlanNode}
    {g : Guard} (detail : Bytes) (htests : turn.tests = [(turn, node, g)])
    (hfires : turn.fires s = if s.Passes turn.fired g then [s.idOf node] else [])
    (hsettles : turn.settles s = []) (hover : turn.passesOver s = [])
    (hn : s.planNode node = .ok n)
    (htrail : p'.trail = p.trail ++ (s.testGuard turn.fired turn.index n.id g).trail ++
      if s.Passes turn.fired g then [⟨.fired, some turn.index, n.id, 0, detail⟩] else [])
    (halternatives : p'.alternatives = p.alternatives) : s.Writes p p' [turn] := by
  obtain ⟨e, he, hkind, htells⟩ := exists_testGuard_trail hverbose turn hn g
  rw [he, List.append_assoc] at htrail
  have htest := Trail.only_singleton hkind
  refine ⟨_, [], htrail, halternatives.trans (List.append_nil _).symm, ?_, ?_, ?_, ?_⟩
  · rw [List.flatMap_singleton, htests, Trail.tests_append, htest.tests_eq]
    refine .cons htells ?_
    split <;> exact .nil
  · rw [List.flatMap_singleton, hfires, Trail.ofKind_append, htest.ofKind_eq_nil rfl,
      idOf_of_planNode hn]
    split <;> rfl
  · rw [List.flatMap_singleton, hsettles, Trail.ofKind_append, htest.ofKind_eq_nil rfl]
    split <;> rfl
  · rw [List.flatMap_singleton, hover]
    rfl

theorem writes_runSequential (hverbose : s.verbose = true) {node : Nat} {g : Guard}
    (h : s.runSequential index node g p = .ok p') :
    s.Writes p p' [⟨.sequential node g, index, p.fired⟩] := by
  obtain ⟨n, q, hn, rfl, rfl⟩ := runSequential_eq_ok h
  refine writes_of_test hverbose n.kind.name rfl rfl rfl rfl hn ?_ ?_
  · split
    · rfl
    · exact (List.append_nil _).symm
  · split <;> rfl

theorem writes_runTask (hverbose : s.verbose = true) {node : Nat} {g : Guard} {o : Outcome}
    (h : s.runTask index node g o p = .ok p') :
    s.Writes p p' [⟨.task node g o, index, p.fired⟩] := by
  obtain ⟨n, q, hn, rfl, rfl⟩ := runTask_eq_ok h
  refine writes_of_test hverbose (utf8 "emitted " ++ Bytes.quoted o.action) rfl rfl rfl rfl hn ?_ ?_
  · split
    · rfl
    · exact (List.append_nil _).symm
  · split <;> rfl

/-! ## Selections -/

/-- The kinds of entries that testing branches makes. -/
def isOfTestOrCandidate (k : TrailKind) : Bool := k.isOfTest || k == .candidate

/-- Tests were made between two points of a run: there is one entry about each of them, in their
order, and beside them are only entries about candidates. -/
structure Tested (s : Situation) (p q : Progress) (tests : List (Turn × Nat × Guard)) (t : Trail) :
    Prop where
  trail : q.trail = p.trail ++ t
  alternatives : q.alternatives = p.alternatives
  entries : List.Forall₂ s.TellsOf tests t.tests
  only : t.Only isOfTestOrCandidate

/-- Branches are tested one after another, and those that pass are found by their places. -/
theorem exists_tested (hverbose : s.verbose = true) (turn : Turn) {bs : List (Branch × Nat)}
    {places : List Nat} (hfired : p.fired = turn.fired)
    (h : s.testBranches turn.index bs p = .ok (places, p')) :
    ∃ t, s.Tested p p' (bs.map fun b => (turn, b.1.node, b.1.guard)) t ∧
      places = (bs.filter fun b => s.Passes turn.fired b.1.guard).map (·.2) := by
  induction bs generalizing p places with
  | nil =>
    cases h
    exact ⟨[], ⟨(List.append_nil _).symm, rfl, .nil, Trail.only_nil⟩, rfl⟩
  | cons head bs ih =>
    obtain ⟨n, q, others, hn, hq, hothers, rfl⟩ := testBranches_cons_eq_ok h
    have hqfired : q.fired = turn.fired := by
      rw [hq]
      exact hfired
    obtain ⟨e, he, hkind, htells⟩ := exists_testGuard_trail hverbose turn hn head.1.guard
    obtain ⟨t, ⟨htrail, halternatives, hentries, honly⟩, rfl⟩ := ih hqfired hothers
    rw [hq, hfired] at htrail halternatives
    have htest := Trail.only_singleton hkind
    -- a branch that passes is a candidate, which is noted behind the entry about its test
    let entry : TrailEntry := ⟨.candidate, some turn.index, n.id, head.1.guard.mask,
      utf8 "priority " ++ Bytes.signedDecimal head.1.priority.toInt⟩
    let note := if s.Passes turn.fired head.1.guard then s.verbosely entry else []
    have hnote : Trail.Only (· == .candidate) note :=
      Trail.only_ite (only_verbosely rfl) Trail.only_nil
    have hnone : note.tests = [] := hnote.tests_eq_nil fun k hk => by rw [eq_of_beq hk]; rfl
    refine ⟨[e] ++ note ++ t, ⟨?_, halternatives, ?_, ?_⟩, ?_⟩
    · rw [htrail, ← he, ← List.append_assoc, ← List.append_assoc]
      rfl
    · rw [Trail.tests_append, Trail.tests_append, htest.tests_eq, hnone]
      exact .cons htells hentries
    · refine ((htest.mono fun k hk => ?_).append (hnote.mono fun k hk => ?_)).append honly
      · rw [isOfTestOrCandidate, hk, Bool.true_or]
      · rw [isOfTestOrCandidate, hk, Bool.or_true]
    · rw [hfired, List.filter_cons]
      by_cases hpass : s.Passes turn.fired head.1.guard <;> simp [hpass]

/-- The entries about the tests of its branches and one about how it was settled account for a
selection. -/
theorem Tested.ledger {q : Progress} {sel : Selector} {turn : Turn} {t : Trail}
    (h : s.Tested p q turn.tests t) (hstep : turn.step = .selector sel) {e : TrailEntry}
    {as : List Alternative} (hkind : e.kind = .arbitration) (hindex : e.step = some turn.index)
    (hsettles : turn.settles s = [e.node])
    (hover : as.map (fun a => (a.step, a.node, a.action)) =
      (turn.passesOver s).map fun b => (turn.index, b)) : s.Ledger [turn] (t ++ [e]) as := by
  have hkinds : Trail.Only (· == .arbitration) [e] :=
    Trail.only_singleton (by rw [hkind]; rfl)
  have hnotests : Trail.tests [e] = [] := hkinds.tests_eq_nil fun k hk => by rw [eq_of_beq hk]; rfl
  have hfires : turn.fires s = [] := by rw [Turn.fires, hstep]
  constructor
  · rw [List.flatMap_singleton, Trail.tests_append, hnotests, List.append_nil]
    exact h.entries
  · rw [List.flatMap_singleton, hfires, Trail.ofKind_append, h.only.ofKind_eq_nil rfl,
      hkinds.ofKind_eq_nil rfl]
    rfl
  · rw [List.flatMap_singleton, hsettles, Trail.ofKind_append, h.only.ofKind_eq_nil rfl,
      Trail.ofKind, List.nil_append, List.filter_cons_of_pos (by rw [hkind]; rfl),
      List.filter_nil, List.map_cons, hindex]
    rfl
  · rw [List.flatMap_singleton, hover]

theorem pairwise_passing (s : Situation) (fired : List Bool) (sel : Selector) :
    ((s.passing fired sel).map (·.2)).Pairwise (· < ·) := by
  have hplaces : ((s.passing fired sel).map (·.2)).Sublist (sel.branches.zipIdx.map (·.2)) :=
    List.filter_sublist.map _
  rw [List.zipIdx_map_snd, ← List.range_eq_range'] at hplaces
  exact List.pairwise_lt_range.sublist hplaces

theorem alternativeOf_eq_ok {sel : Selector} {l : Loss} {a : Alternative}
    (h : s.alternativeOf index sel l = .ok a) : ∃ br, sel.branches[l.branch]? = some br ∧
      (a.step, a.node, a.action) = (index, s.idOf br.node, actionOf br) := by
  unfold alternativeOf at h
  split at h
  · cases h
  · rename_i br hbr
    obtain ⟨n, hn, h⟩ := bind_eq_ok.1 h
    cases h
    exact ⟨br, hbr, by rw [idOf_of_planNode hn]⟩

theorem forall₂_of_common {α β γ : Type} {R : α → β → Prop} {S : α → γ → Prop} {T : β → γ → Prop}
    (hT : ∀ x y z, R x y → S x z → T y z) {xs : List α} {ys : List β} {zs : List γ}
    (h : List.Forall₂ R xs ys) (h' : List.Forall₂ S xs zs) : List.Forall₂ T ys zs := by
  induction h generalizing zs with
  | nil =>
    cases h'
    exact .nil
  | cons hxy _ ih =>
    cases h' with
    | cons hxz hrest => exact .cons (hT _ _ _ hxy hxz) (ih hrest)

/-- The losers of an arbitration become the alternatives: the branches that pass, in their order,
without the winner. -/
theorem map_alternatives {sel : Selector} {fired : List Bool} {v : Selection}
    {as : List Alternative}
    (hv : sel.arbitrate s.comparators s.blueprint.nodes ((s.passing fired sel).map (·.2)) = .ok v)
    (h : v.losers.mapM (s.alternativeOf index sel) = .ok as) :
    as.map (fun a => (a.step, a.node, a.action)) =
      ((s.passing fired sel).filter fun b => v.winner != some b.2).map fun b =>
        (index, s.idOf b.1.node, actionOf b.1) := by
  obtain ⟨hlosers, -, -⟩ := Selector.losers_of_arbitrate (s.pairwise_passing fired sel) hv
  rw [List.filter_map, ← List.forall₂_eq_eq_eq, List.forall₂_map_left_iff,
    List.forall₂_map_right_iff] at hlosers
  have hplaces : ∀ b ∈ (s.passing fired sel).filter fun b => v.winner != some b.2,
      sel.branches[b.2]? = some b.1 := fun b hb =>
    List.mem_zipIdx_iff_getElem?.1 (List.mem_filter.1 (List.mem_filter.1 hb).1).1
  have hplaced := (List.forall₂_and_left _ _).2 ⟨hplaces, hlosers.flip⟩
  rw [← List.forall₂_eq_eq_eq, List.forall₂_map_left_iff, List.forall₂_map_right_iff]
  refine forall₂_of_common (fun l a b ha hb => ?_) (forall₂_of_mapM_eq_ok h) hplaced.flip
  obtain ⟨br, hbr, halternative⟩ := alternativeOf_eq_ok ha
  rw [hb.2] at hbr
  rw [halternative, Option.some.inj (hbr.symm.trans hb.1)]

/-- The winner of an arbitration of the branches that pass is the branch that the selection lets
win, and without a winner none of them passes. -/
theorem selected?_eq {sel : Selector} {fired : List Bool} {v : Selection}
    (hv : sel.arbitrate s.comparators s.blueprint.nodes ((s.passing fired sel).map (·.2)) = .ok v) :
    s.selected? fired sel = (v.winner.bind fun w => sel.branches[w]?.map fun b => (b, w)) ∧
      (v.winner = none → s.passing fired sel = []) := by
  obtain ⟨-, hnone, -⟩ := Selector.losers_of_arbitrate (s.pairwise_passing fired sel) hv
  refine ⟨?_, fun hwinner => List.map_eq_nil_iff.1 (hnone.1 hwinner)⟩
  unfold selected?
  rw [hv]

section

variable {q : Progress} {sel : Selector} {v : Selection} {t : Trail}

theorem tests_selector (sel : Selector) (index : Nat) (fired : List Bool) :
    Turn.tests ⟨.selector sel, index, fired⟩ = sel.branches.zipIdx.map fun b =>
      (⟨.selector sel, index, fired⟩, b.1.node, b.1.guard) := by
  conv_lhs => rw [Turn.tests, Step.choices, ← List.zipIdx_map_fst 0 sel.branches]
  rw [List.map_map, List.map_map]
  rfl

/-- A selection without a winner says so. -/
theorem writes_unselected (h : s.Tested p q (Turn.tests ⟨.selector sel, index, p.fired⟩) t)
    (hv : sel.arbitrate s.comparators s.blueprint.nodes ((s.passing p.fired sel).map (·.2)) = .ok v)
    (hwinner : v.winner = none) :
    s.Writes p (unselected index sel q) [⟨.selector sel, index, p.fired⟩] := by
  obtain ⟨hselected, hempty⟩ := selected?_eq hv
  rw [hwinner] at hselected
  let entry : TrailEntry := ⟨.arbitration, some index, [], 0,
    utf8 "no eligible branch in " ++ sel.group ++ utf8 "; no decision"⟩
  refine ⟨t ++ [entry], [], ?_, h.alternatives.trans (List.append_nil _).symm,
    h.ledger rfl rfl rfl ?_ ?_⟩
  · rw [← List.append_assoc, ← h.trail]
    rfl
  · dsimp only [Turn.settles]
    rw [hselected]
    rfl
  · dsimp only [Turn.passesOver]
    rw [hempty hwinner]
    rfl

/-- A selection with a winner names it, and its losers are the alternatives. -/
theorem writes_selected {w : Nat}
    (h : s.Tested p q (Turn.tests ⟨.selector sel, index, p.fired⟩) t)
    (hv : sel.arbitrate s.comparators s.blueprint.nodes ((s.passing p.fired sel).map (·.2)) = .ok v)
    (hwinner : v.winner = some w) (hrun : s.selected index sel w v q = .ok p') :
    s.Writes p p' [⟨.selector sel, index, p.fired⟩] := by
  obtain ⟨br, n, as, q', hbr, hn, has, rfl, rfl⟩ := selected_eq_ok hrun
  have hselected : s.selected? p.fired sel = some (br, w) := by
    rw [(selected?_eq hv).1, hwinner, Option.bind_some, hbr]
    rfl
  let entry : TrailEntry := ⟨.arbitration, some index, n.id, br.guard.mask, v.rationale⟩
  refine ⟨t ++ [entry], as, ?_, ?_, h.ledger rfl rfl rfl ?_ ?_⟩
  · rw [← List.append_assoc, ← h.trail]
    rfl
  · rw [← h.alternatives]
    rfl
  · dsimp only [Turn.settles]
    rw [hselected, Option.map_some, idOf_of_planNode hn]
    rfl
  · rw [map_alternatives hv has, hwinner]
    dsimp only [Turn.passesOver]
    rw [hselected, List.map_map]
    rfl

theorem writes_runSelector (hverbose : s.verbose = true) (h : s.runSelector index sel p = .ok p') :
    s.Writes p p' [⟨.selector sel, index, p.fired⟩] := by
  obtain ⟨places, q, v, hbranches, hv, hend⟩ := runSelector_eq_ok h
  obtain ⟨t, htested, hplaces⟩ :=
    exists_tested hverbose ⟨.selector sel, index, p.fired⟩ rfl hbranches
  rw [← tests_selector] at htested
  rw [show places = (s.passing p.fired sel).map (·.2) from hplaces] at hv
  rcases hend with ⟨hwinner, rfl⟩ | ⟨w, hwinner, hselected⟩
  · exact writes_unselected htested hv hwinner
  · exact writes_selected htested hv hwinner hselected

end

/-! ## Runs -/

/-- What a step writes accounts for it. -/
theorem writes_runStep (hverbose : s.verbose = true) {step : Step}
    (h : s.runStep index step p = .ok p') : s.Writes p p' [⟨step, index, p.fired⟩] := by
  cases step with
  | sequential node g => exact writes_runSequential hverbose h
  | task node g o => exact writes_runTask hverbose h
  | selector sel => exact writes_runSelector hverbose h

theorem Writes.trans {q : Progress} {turns more : List Turn} (h : s.Writes p q turns)
    (h' : s.Writes q p' more) : s.Writes p p' (turns ++ more) := by
  obtain ⟨t, as, htrail, halternatives, hledger⟩ := h
  obtain ⟨u, bs, htrail', halternatives', hledger'⟩ := h'
  refine ⟨t ++ u, as ++ bs, ?_, ?_, hledger.append hledger'⟩
  · rw [htrail', htrail, List.append_assoc]
  · rw [halternatives', halternatives, List.append_assoc]

/-- What steps write, one after another, accounts for all of them, and each of them has its turn. -/
theorem writes_runSteps (hverbose : s.verbose = true) {steps : List (Step × Nat)}
    (h : s.runSteps steps p = .ok p') :
    s.Writes p p' (s.turns steps p) ∧
      (s.turns steps p).map (fun t => (t.step, t.index)) = steps := by
  induction steps generalizing p with
  | nil =>
    cases h
    exact ⟨⟨[], [], (List.append_nil _).symm, (List.append_nil _).symm, ledger_nil⟩, rfl⟩
  | cons head rest ih =>
    obtain ⟨step, index⟩ := head
    obtain ⟨q, hq, h⟩ := runSteps_cons_eq_ok h
    obtain ⟨hwrites, hsteps⟩ := ih h
    have hturns : s.turns ((step, index) :: rest) p =
        [⟨step, index, p.fired⟩] ++ s.turns rest q := by
      rw [turns, hq]
      rfl
    rw [hturns]
    exact ⟨(writes_runStep hverbose hq).trans hwrites, by rw [List.map_append, hsteps]; rfl⟩

/-- What is written about other things than steps accounts for no turns. -/
theorem ledger_of_foreign {t : Trail} (h : t.Only fun k => !k.isOfStep) : s.Ledger [] t [] where
  tests := by
    rw [h.tests_eq_nil fun k hk => by cases k <;> first | rfl | cases hk]
    exact .nil
  fired := by
    rw [h.ofKind_eq_nil rfl]
    rfl
  settled := by
    rw [h.ofKind_eq_nil rfl]
    rfl
  passedOver := rfl

/-- The turns of a whole run, one for each step of the plan. -/
def allTurns (s : Situation) : List Turn :=
  s.turns s.blueprint.steps.zipIdx (.start s.blueprint)

/-- **A run accounts for its steps.**  What a run writes where everything is explained accounts for
all steps of the plan. -/
theorem ledger_run (hverbose : s.verbose = true) {result : RunResult} (h : s.run = .ok result) :
    s.Ledger s.allTurns result.trail result.alternatives ∧
      s.allTurns.map (fun t => (t.step, t.index)) = s.blueprint.steps.zipIdx := by
  obtain ⟨p, review, hp, hreview, rfl⟩ := run_eq_ok h
  obtain ⟨⟨t, as, htrail, halternatives, hledger⟩, hturns⟩ := writes_runSteps hverbose hp
  have hrails : review.trail.Only fun k => !k.isOfStep :=
    (Blueprint.only_applyGuardrails hreview).mono fun k hk => by
      cases k <;> first | rfl | cases hk
  refine ⟨?_, hturns⟩
  have hall := hledger.append (ledger_of_foreign hrails)
  rw [List.append_nil, List.append_nil] at hall
  have hstart : p.trail = t := htrail
  have hstart' : p.alternatives = as := halternatives
  rw [hstart, hstart']
  exact hall

end Situation
end DecisionEngine
