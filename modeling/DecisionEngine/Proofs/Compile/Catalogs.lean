import DecisionEngine.Proofs.Compile.Correctness
import DecisionEngine.Proofs.Compile.Decisions
import DecisionEngine.Proofs.Plan.Agreement
/-!
# Catalogs do not show

A catalog settles which labels of a rule are tested by a mask, and which by the program of its
guard.  Either way the labels are tested before everything else, and none of them can fault; so the
plans of a revision by two catalogs, and with room for different numbers of bits, come to the same.

* `EmissionContext.conjunctList_eq` — what no mask can stand for comes behind the labels.
* `EmissionContext.Guards.verdict_iff` — a guard in terms of labels, wherever they are tested.
* `EmissionContext.Plans.stepsMatch` — steps that a contest is emitted as by two catalogs.
* `Revision.agree_run_catalogs` — runs by two catalogs agree.
-/

namespace DecisionEngine

open Program (FaultCause)

/-! ## Conjuncts and lists -/

/-- Predicates come before everything else, and do not fault. -/
theorem Conjunct.allTrue_categorical_append (e : Evidence) (ps : List Predicate)
    (rest : List Conjunct) : allTrue e (ps.map .categorical ++ rest) =
      if ∀ p ∈ ps, p.holds e.context = true then allTrue e rest else .ok false := by
  induction ps with
  | nil => simp
  | cons p ps ih =>
    rw [List.map_cons, List.cons_append, allTrue, ih]
    simp only [truth, bind, Except.bind, List.forall_mem_cons]
    cases p.holds e.context with
    | true => simp
    | false => simp [pure, Except.pure]

/-- What two lists have in common with a third one, they have with each other. -/
theorem forall₂_join {α β γ : Type} {R : α → β → Prop} {S : α → γ → Prop} {T : β → γ → Prop}
    {xs : List α} {ys : List β} {zs : List γ} (hys : List.Forall₂ R xs ys)
    (hzs : List.Forall₂ S xs zs)
    (h : ∀ x ∈ xs, ∀ y ∈ ys, ∀ z ∈ zs, R x y → S x z → T y z) : List.Forall₂ T ys zs := by
  induction hys generalizing zs with
  | nil =>
    cases hzs
    exact .nil
  | cons hy _ ih =>
    obtain _ | ⟨hz, hzs⟩ := hzs
    refine .cons (h _ (List.mem_cons_self ..) _ (List.mem_cons_self ..) _ (List.mem_cons_self ..) hy
      hz) (ih hzs fun x hx y hy z hz => ?_)
    exact h x (List.mem_cons_of_mem _ hx) y (List.mem_cons_of_mem _ hy) z
      (List.mem_cons_of_mem _ hz)

namespace EmissionContext

variable {c c' : EmissionContext} {n : FlatNode} {b b' : Blueprint} {g g' : Guard}
variable {attributes inputs : AttributeSet} {verbose : Bool} {comparators : Comparators}
variable {fired : List Bool}

/-- What the program of a guard tests behind the labels. -/
def unlabelled (c : EmissionContext) (n : FlatNode) : List Conjunct :=
  n.expressions.map (fun x => .expression x.tree) ++
  (c.required n.id).map (fun i => .fired (UInt32.ofNat i)) ++
  (c.neutralizing n.id).map (fun i => .notFired (UInt32.ofNat i)) ++
  (if (c.flowing n.id).isEmpty then []
    else [.anyFired ((c.flowing n.id).map UInt32.ofNat)])

theorem conjunctList_eq (c : EmissionContext) (n : FlatNode) : c.conjunctList n =
    ((c.residual n).filterMap Predicate.ofLabel?).map .categorical ++ c.unlabelled n := by
  unfold conjunctList unlabelled
  simp only [List.append_assoc]

/-- Two contexts that number the same rules, with the same edges. -/
structure Numbers (c c' : EmissionContext) : Prop where
  edges : c.edges = c'.edges
  table : c.table = c'.table

namespace Numbers

theorem number (h : c.Numbers c') : c.number = c'.number := by
  funext id
  unfold EmissionContext.number
  rw [h.table]

theorem unlabelled (h : c.Numbers c') (n : FlatNode) : c.unlabelled n = c'.unlabelled n := by
  unfold EmissionContext.unlabelled required neutralizing flowing numbers
  rw [h.edges, h.number]

theorem pairs (h : c.Numbers c') (contest : Contest) : c.pairs contest = c'.pairs contest := by
  unfold EmissionContext.pairs
  rw [h.number]

end Numbers

/-! ## Guards -/

/-- Where the mask of a guard is covered, its program says anything but no exactly if all labels of
the rule hold, and what is tested behind them says so. -/
theorem Guards.verdict_iff (h : c.Guards n g b.symbols) (hn : n.Usable) (hsize : b.Addressable)
    (hcode : g.program.code.length < 2 ^ 32) {answer : Except FaultCause Bool}
    (hanswer : answer ≠ .ok false) :
    ((c.situation b attributes inputs verbose comparators).mask.covers g.mask = true ∧
        (g.program.run ((c.situation b attributes inputs verbose comparators).env fired)).mapError
          (·.cause) = answer) ↔
      (∀ l ∈ n.labels, ∃ p, Predicate.ofLabel? l = some p ∧ p.holds attributes = true) ∧
        Conjunct.allTrue ⟨attributes, inputs, .empty, fired⟩ (c.unlabelled n) = answer := by
  have hrun := h.answer _ List.prefix_rfl hsize.symbols hcode ⟨attributes, inputs, .empty, fired⟩
  rw [conjunctList_eq, Conjunct.allTrue_categorical_append] at hrun
  change (c.catalog.maskOf attributes).covers g.mask = true ∧
    (g.program.run (Evidence.env ⟨attributes, inputs, .empty, fired⟩ b.symbols.names)).mapError
      (·.cause) = answer ↔ _
  rw [hrun, h.mask, ← covers_mask_iff hn, and_assoc]
  refine and_congr_right fun _ => ?_
  split
  · rename_i hresidual
    exact (and_iff_right hresidual).symm
  · rename_i hresidual
    exact iff_of_false (fun heq => hanswer heq.symm) fun hboth => hresidual hboth.1

theorem Guards.passes_iff_labels (h : c.Guards n g b.symbols) (hn : n.Usable)
    (hsize : b.Addressable) (hcode : g.program.code.length < 2 ^ 32) :
    (c.situation b attributes inputs verbose comparators).Passes fired g ↔
      (∀ l ∈ n.labels, ∃ p, Predicate.ofLabel? l = some p ∧ p.holds attributes = true) ∧
        Conjunct.allTrue ⟨attributes, inputs, .empty, fired⟩ (c.unlabelled n) = .ok true := by
  rw [← h.verdict_iff hn hsize hcode (by simp), mapError_eq_ok]
  rfl

theorem Guards.faults_iff_labels (h : c.Guards n g b.symbols) (hn : n.Usable)
    (hsize : b.Addressable) (hcode : g.program.code.length < 2 ^ 32) :
    (c.situation b attributes inputs verbose comparators).Faults fired g ↔
      ∃ cause, (∀ l ∈ n.labels, ∃ p, Predicate.ofLabel? l = some p ∧ p.holds attributes = true) ∧
        Conjunct.allTrue ⟨attributes, inputs, .empty, fired⟩ (c.unlabelled n) = .error cause := by
  have hfaults : (c.situation b attributes inputs verbose comparators).Faults fired g ↔
      ∃ cause, (c.situation b attributes inputs verbose comparators).mask.covers g.mask = true ∧
        (g.program.run ((c.situation b attributes inputs verbose comparators).env fired)).mapError
          (·.cause) = .error cause := by
    simp only [mapError_eq_error]
    constructor
    · rintro ⟨hcovers, fault, hfault⟩
      exact ⟨_, hcovers, fault, hfault, rfl⟩
    · rintro ⟨cause, hcovers, fault, hfault, -⟩
      exact ⟨hcovers, fault, hfault⟩
  rw [hfaults]
  exact exists_congr fun cause => h.verdict_iff hn hsize hcode (by simp)

/-- The guards of a rule by two catalogs have the same verdict. -/
theorem Guards.sameVerdict (h : c.Guards n g b.symbols) (h' : c'.Guards n g' b'.symbols)
    (hsame : c.Numbers c') (hn : n.Usable) (hsize : b.Addressable) (hsize' : b'.Addressable)
    (hcode : g.program.code.length < 2 ^ 32) (hcode' : g'.program.code.length < 2 ^ 32) :
    (c.situation b attributes inputs verbose comparators).SameVerdict
      (c'.situation b' attributes inputs verbose comparators) g g' := by
  refine ⟨fun fired _ => ?_, fun fired _ => ?_⟩
  · rw [h.passes_iff_labels hn hsize hcode, h'.passes_iff_labels hn hsize' hcode',
      hsame.unlabelled]
  · rw [h.faults_iff_labels hn hsize hcode, h'.faults_iff_labels hn hsize' hcode',
      hsame.unlabelled]

/-! ## Steps -/

theorem Offers.branchesMatch {br br' : Branch} (h : c.Offers n br b.symbols)
    (h' : c'.Offers n br' b'.symbols) (hsame : c.Numbers c')
    (hverdict : (c.situation b attributes inputs verbose comparators).SameVerdict
      (c'.situation b' attributes inputs verbose comparators) br.guard br'.guard) :
    (c.situation b attributes inputs verbose comparators).BranchesMatch
      (c'.situation b' attributes inputs verbose comparators) br br' := by
  have halike : br.Alike br' := ⟨h.priority.trans h'.priority.symm, h.weight.trans h'.weight.symm,
    h.outcome.trans h'.outcome.symm, h.order.trans h'.order.symm,
    h.guards.labels.trans h'.guards.labels.symm⟩
  refine ⟨?_, halike, ⟨h.alike.2.1, h'.alike.2.1⟩, hverdict⟩
  rw [h.node, h'.node, hsame.number]

/-- Steps that a contest is emitted as by two catalogs do the same. -/
theorem Plans.stepsMatch {policy : SelectionPolicy} {comparator : Bytes} {contest : Contest}
    {step step' : Step} (h : c.Plans policy comparator contest b.symbols step)
    (h' : c'.Plans policy comparator contest b'.symbols step') (hsame : c.Numbers c')
    (husable : ∀ n ∈ contest.members, n.Usable) (hsize : b.Addressable) (hsize' : b'.Addressable)
    (hstep : step ∈ b.steps) (hstep' : step' ∈ b'.steps) :
    (c.situation b attributes inputs verbose comparators).StepsMatch
      (c'.situation b' attributes inputs verbose comparators) step step' := by
  have hverdict : ∀ n ∈ contest.members, ∀ g ∈ step.guards, ∀ g' ∈ step'.guards,
      c.Guards n g b.symbols → c'.Guards n g' b'.symbols →
      (c.situation b attributes inputs verbose comparators).SameVerdict
        (c'.situation b' attributes inputs verbose comparators) g g' := fun n hn g hg g' hg' h h' =>
    h.sameVerdict h' hsame (husable n hn) hsize hsize' (hsize.code step hstep g hg)
      (hsize'.code step' hstep' g' hg')
  cases h with
  | @sequential n g members outcome guards =>
    cases h' with
    | @sequential n' g' members' _ guards' =>
      obtain rfl : n = n' := by simpa [members] using members'
      rw [← hsame.number]
      exact .sequential (hverdict n (by simp [members]) g (by simp [Step.guards]) g'
        (by simp [Step.guards]) guards guards')
    | @task n' _ _ members' outcome' _ =>
      obtain rfl : n = n' := by simpa [members] using members'
      rw [outcome] at outcome'
      cases outcome'
    | selector several => simp [members] at several
  | @task n g o members outcome guards =>
    cases h' with
    | @sequential n' _ members' outcome' _ =>
      obtain rfl : n = n' := by simpa [members] using members'
      rw [outcome] at outcome'
      cases outcome'
    | @task n' g' o' members' outcome' guards' =>
      obtain rfl : n = n' := by simpa [members] using members'
      obtain rfl : o = o' := by simpa [outcome] using outcome'
      rw [← hsame.number]
      exact .task (hverdict n (by simp [members]) g (by simp [Step.guards]) g'
        (by simp [Step.guards]) guards guards')
    | selector several => simp [members] at several
  | selector several offers =>
    cases h' with
    | sequential members => simp [members] at several
    | task members => simp [members] at several
    | selector _ offers' =>
      refine .selector ⟨rfl, rfl, rfl, hsame.pairs contest, forall₂_join offers offers' ?_⟩
      intro n hn br hbr br' hbr' hoffer hoffer'
      exact hoffer.branchesMatch hoffer' hsame (hverdict n hn _ (List.mem_map_of_mem hbr) _
        (List.mem_map_of_mem hbr') hoffer.guards hoffer'.guards)

end EmissionContext

/-- Guardrails do not look at what has fired. -/
theorem Guardrail.allTrue_conjunctList (rail : Guardrail) (attributes inputs params : AttributeSet)
    (fired fired' : List Bool) :
    Conjunct.allTrue ⟨attributes, inputs, params, fired⟩ rail.conjunctList =
      Conjunct.allTrue ⟨attributes, inputs, params, fired'⟩ rail.conjunctList := by
  have hvalue : ∀ x : Expr, x.value ⟨attributes, inputs, params, fired⟩ =
      x.value ⟨attributes, inputs, params, fired'⟩ := fun x =>
    Expr.value_congr (fun ⟨scope, _, _⟩ => by cases scope <;> rfl) x
  unfold conjunctList
  split
  · rfl
  · cases (Expr.parse rail.violation).toOption with
    | none => rfl
    | some x => simp only [Option.map_some, Option.toList_some, Conjunct.allTrue, Conjunct.truth,
        hvalue]

/-- Two plan guardrails that enforce the same one match, whatever has fired in their plans. -/
theorem Guardrail.EnforcedBy.matches {rail : Guardrail} {g g' : PlanGuardrail} {b b' : Blueprint}
    (h : rail.EnforcedBy g b.symbols) (h' : rail.EnforcedBy g' b'.symbols)
    (hsize : b.symbols.names.length ≤ 2 ^ 32) (hsize' : b'.symbols.names.length ≤ 2 ^ 32)
    (hcode : g.violation.code.length < 2 ^ 32) (hcode' : g'.violation.code.length < 2 ^ 32)
    (attributes inputs : AttributeSet) (fired fired' : List Bool) :
    PlanGuardrail.Matches (Evidence.env ⟨attributes, inputs, .empty, fired⟩ b.symbols.names)
      (Evidence.env ⟨attributes, inputs, .empty, fired'⟩ b'.symbols.names) g g' := by
  refine ⟨h.id.trans h'.id.symm, h.mode.trans h'.mode.symm, h.appliesTo.trans h'.appliesTo.symm,
    h.fallback.trans h'.fallback.symm, h.capParam.trans h'.capParam.symm,
    h.capValue.trans h'.capValue.symm, h.defaultOutcome.trans h'.defaultOutcome.symm,
    fun params => ?_⟩
  have hanswer := h.answer _ List.prefix_rfl hsize hcode ⟨attributes, inputs, params, fired⟩
  have hanswer' := h'.answer _ List.prefix_rfl hsize' hcode' ⟨attributes, inputs, params, fired'⟩
  rw [← rail.allTrue_conjunctList attributes inputs params fired fired'] at hanswer'
  exact hanswer.trans hanswer'.symm

/-! ## Plans -/

/-- The guards of a step, by two catalogs, have the same verdicts. -/
theorem Situation.StepsMatch.guards {s s' : Situation} {step step' : Step}
    (h : s.StepsMatch s' step step') :
    List.Forall₂ (s.SameVerdict s') step.guards step'.guards := by
  cases h with
  | sequential verdict => exact .cons verdict .nil
  | task verdict => exact .cons verdict .nil
  | selector selectors =>
    unfold Step.guards
    rw [List.forall₂_map_left_iff, List.forall₂_map_right_iff]
    exact selectors.branches.imp fun _ _ h => h.verdict

namespace Revision

variable {r : Revision} {o : CompilerOptions} {catalog : Catalog} {maxBits : Nat}
variable {b b' : Blueprint}

/-- **Masks agree with programs.**  If a revision is compiled, and compiled by another catalog and
with room for another number of bits, then the two plans can be run on all attributes and inputs,
each with the mask by its own catalog.  They come to the same decisions and alternatives, and the
same guards fault; and whatever has fired, a guard of the one passes exactly if that of the other
does. -/
theorem agree_run_catalogs (h : (r.compile o).blueprint = some b)
    (h' : ({ r with catalog := catalog }.compile { o with maxAttributeBits := maxBits }).blueprint =
      some b')
    (hsize : b.FullyAddressable) (hsize' : b'.FullyAddressable) (attributes inputs : AttributeSet)
    (verbose : Bool) {comparators : Comparators} (himpartial : comparators.Impartial) :
    let s := Situation.ofAttributes b (b.catalog.maskOf attributes) attributes inputs verbose
      comparators false
    let s' := Situation.ofAttributes b' (b'.catalog.maskOf attributes) attributes inputs verbose
      comparators false
    (∃ x x', s.run = .ok x ∧ s'.run = .ok x' ∧ x.decisions = x'.decisions ∧
      x.alternatives = x'.alternatives ∧
      Trail.guardFaults x.trail = Trail.guardFaults x'.trail) ∧
    List.Forall₂ (fun step step' => List.Forall₂ (fun g g' =>
      ∀ fired, fired.length = b.nodes.length → (s.Passes fired g ↔ s'.Passes fired g'))
      step.guards step'.guards) b.steps b'.steps := by
  intro s s'
  have hpassed := passed_of_compile h
  have hpassed' := passed_of_compile h'
  have hplan := hpassed.carriesOut hsize.toAddressable
  have hplan' := hpassed'.carriesOut hsize'.toAddressable
  -- Neither the kept leaves nor their contests depend on a catalog.
  let c := r.context o
  let c' := { r with catalog := catalog }.context { o with maxAttributeBits := maxBits }
  have hsame : c.Numbers c' := ⟨rfl, rfl⟩
  have hs : s = c.situation b attributes inputs verbose comparators := by
    have hcatalog : b.catalog = c.catalog := by
      rw [hpassed.emitted]
      rfl
    exact congrArg (fun catalog : Catalog => Situation.ofAttributes b (catalog.maskOf attributes)
      attributes inputs verbose comparators false) hcatalog
  have hs' : s' = c'.situation b' attributes inputs verbose comparators := by
    have hcatalog : b'.catalog = c'.catalog := by
      rw [hpassed'.emitted]
      rfl
    exact congrArg (fun catalog : Catalog => Situation.ofAttributes b' (catalog.maskOf attributes)
      attributes inputs verbose comparators false) hcatalog
  have hnodes : b.nodes = b'.nodes := by
    rw [hpassed.emitted, hpassed'.emitted]
    rfl
  have hsteps : List.Forall₂ (s.StepsMatch s') b.steps b'.steps := by
    rw [hs, hs']
    refine forall₂_join hplan.plans hplan'.plans fun d hd step hstep step' hstep' hp hp' => ?_
    exact hp.stepsMatch hp' hsame (fun n hn => hpassed.depicts.usable n
      (hplan.arranges.mem_nodes hd hn)) hsize.toAddressable hsize'.toAddressable hstep hstep'
  have hrails : ∀ fired, fired.length = b.nodes.length →
      List.Forall₂ (PlanGuardrail.Matches (s.env fired) (s'.env fired)) b.guardrails
        b'.guardrails := fun fired _ =>
    forall₂_join hpassed.plans.2 hpassed'.plans.2 fun rail _ g hg g' hg' hrail hrail' =>
      hrail.matches hrail' hsize.symbols hsize'.symbols (hsize.violations g hg)
        (hsize'.violations g' hg') attributes inputs fired fired
  have hagree : Agree Situation.RunResult.Alike s.run s'.run :=
    Situation.agree_run ⟨hnodes, rfl, himpartial, rfl⟩ hsteps hrails
  obtain ⟨-, x, -, hrun, -⟩ := hplan.exists_run attributes inputs verbose comparators
  rw [← hs] at hrun
  obtain ⟨x', hrun', halike⟩ := hagree.exists_ok hrun
  refine ⟨⟨x, x', hrun, hrun', halike.decisions, halike.alternatives, halike.faults⟩, ?_⟩
  exact hsteps.imp fun _ _ hstep => hstep.guards.imp fun _ _ hverdict => hverdict.passes

/-- A catalog that gives loyal customers a bit. -/
def loyalty : Catalog :=
  .ofPredicates [⟨utf8 "loyal", none, by decide, by decide⟩] (List.nodup_singleton _) (by decide)

set_option maxRecDepth 100000 in
theorem agree_run_catalogs_sample : ∃ b b', (sample.compile .standard).blueprint = some b ∧
    ({ sample with catalog := loyalty }.compile
      { CompilerOptions.standard with maxAttributeBits := 8 }).blueprint = some b' ∧
    b.FullyAddressable ∧ b'.FullyAddressable ∧ Comparators.empty.Impartial ∧
    ∃ x x', (Situation.ofAttributes b (b.catalog.maskOf (.ofList [(utf8 "loyal", .bool true)]))
        (.ofList [(utf8 "loyal", .bool true)]) .empty false .empty false).run = .ok x ∧
      (Situation.ofAttributes b' (b'.catalog.maskOf (.ofList [(utf8 "loyal", .bool true)]))
        (.ofList [(utf8 "loyal", .bool true)]) .empty false .empty false).run = .ok x' ∧
      x.decisions = x'.decisions := by
  have hb := compile_of_accepted rfl (by cbv : sample.accepted .standard = true)
  have hb' := compile_of_accepted (o := { CompilerOptions.standard with maxAttributeBits := 8 }) rfl
    (by cbv : ({ sample with catalog := loyalty } : Revision).accepted _ = true)
  have hsize : (sample.planned .standard).FullyAddressable :=
    planned_of_draft fun _ _ => of_decide_eq_true (by cbv)
  have hsize' : (({ sample with catalog := loyalty } : Revision).planned
      { CompilerOptions.standard with maxAttributeBits := 8 }).FullyAddressable :=
    planned_of_draft fun _ _ => of_decide_eq_true (by cbv)
  obtain ⟨⟨x, x', hrun, hrun', hdecisions, -⟩, -⟩ := agree_run_catalogs hb hb' hsize hsize'
    (.ofList [(utf8 "loyal", .bool true)]) .empty false Comparators.impartial_empty
  exact ⟨_, _, hb, hb', hsize, hsize', Comparators.impartial_empty, x, x', hrun, hrun',
    hdecisions⟩

end Revision
end DecisionEngine
