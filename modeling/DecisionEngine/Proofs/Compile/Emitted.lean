import DecisionEngine.Proofs.Compile.Guards
import Mathlib.Data.List.Forall2
/-!
# What is emitted for contests

Every contest becomes one step.  The choices of the step are the rules of the contest, in their
order, each with a guard that tests what the rule asks for; emitting further steps and guardrails
only adds symbols, so the guards that are there keep their meaning.

* `Emission.Gives` — what an emission gives, by whatever symbols come later.
* `Guardrail.EnforcedBy` — a guardrail of a plan enforces one of a revision.
* `EmissionContext.Plans` — a step is what a contest is emitted as, so that it `Decides` it.
* `Revision.plans_emit` — so are all steps of a plan, and its guardrails enforce what they should.
-/

namespace DecisionEngine
namespace Emission

variable {α β : Type}

/-! ## Emissions -/

/-- An emission only adds symbols, and gives something that holds by the symbols after it and by
all that grow from them. -/
def Gives (m : Emission α) (P : α → SymbolTable → Prop) : Prop :=
  ∀ t, t.names <+: (m.run t).2.names ∧
    ∀ t' : SymbolTable, (m.run t).2.names <+: t'.names → P (m.run t).1 t'

theorem gives_pure {a : α} {P : α → SymbolTable → Prop} (h : ∀ t, P a t) :
    Gives (pure a) P := fun _ => ⟨List.prefix_rfl, fun t' _ => h t'⟩

theorem gives_bind {m : Emission α} {f : α → Emission β} {P : α → SymbolTable → Prop}
    {Q : β → SymbolTable → Prop} (hm : Gives m P)
    (hf : ∀ a, Gives (f a) fun b t => P a t → Q b t) : Gives (m >>= f) Q := by
  intro t
  obtain ⟨hgrow, hp⟩ := hm t
  obtain ⟨hgrow', hq⟩ := hf (m.run t).1 (m.run t).2
  exact ⟨hgrow.trans hgrow', fun t' ht' => hq t' ht' (hp t' (hgrow'.trans ht'))⟩

theorem gives_mapM {f : α → Emission β} {P : α → β → SymbolTable → Prop} {xs : List α}
    (h : ∀ x ∈ xs, Gives (f x) (P x)) :
    Gives (xs.mapM f) fun ys t => List.Forall₂ (fun x y => P x y t) xs ys := by
  induction xs with
  | nil => exact gives_pure fun _ => .nil
  | cons x xs ih =>
    rw [List.mapM_cons]
    refine gives_bind (h x (List.mem_cons_self ..)) fun y => ?_
    refine gives_bind (ih fun z hz => h z (List.mem_cons_of_mem _ hz)) fun ys => ?_
    exact gives_pure fun _ hys hy => .cons hy hys

end Emission

open Emission

/-! ## Programs -/

theorem Assembly.finish_symbols (s : Assembly) : s.finish.2.symbols = s.symbols := by
  unfold finish
  split <;> rfl

theorem run_assembled {outcome : Bool} {conjuncts : Assembly.Emitter Unit} {symbols : SymbolTable}
    {u : Unit} {s : Assembly} (h : Assembly.Emits conjuncts (.start symbols outcome) u s) :
    (assembled outcome conjuncts).run symbols = (s.finish.1, s.symbols) := by
  have hrun : (ExceptT.run conjuncts).run (.start symbols outcome) = (.ok u, s) := h
  rw [← s.finish_symbols]
  unfold assembled
  simp only [StateT.run, bind, StateT.bind, get, getThe, MonadStateOf.get, StateT.get, pure,
    set] at hrun ⊢
  rw [hrun]
  rfl

/-- What is assembled answers what its conjuncts come to, and asks about nodes what they ask. -/
theorem gives_assembled {outcome : Bool} {cs : List Conjunct}
    (haccepts : Assembly.Accepts outcome (cs.forM Conjunct.emit))
    (hplain : ∀ c ∈ cs, c.hasNegativeZero = false) :
    Gives (assembled outcome (cs.forM Conjunct.emit)) fun p t => (∀ names, t.names <+: names →
      names.length ≤ 2 ^ 32 → p.code.length < 2 ^ 32 → ∀ e : Evidence,
        (p.run (e.env names)).mapError (·.cause) = Conjunct.allTrue e cs) ∧
      p.code.filter Instruction.isTest = cs.flatMap Conjunct.tests := by
  intro t
  obtain ⟨u, s, hs, -⟩ := haccepts (.start t outcome) rfl
  rw [run_assembled hs]
  refine ⟨Assembly.symbols_prefix hs hplain, fun t' ht' => ⟨fun names hnames hle hcode e => ?_, ?_⟩⟩
  · exact Assembly.answer_finish hs hplain hcode (ht'.trans hnames) hle e
  · exact Assembly.tests_finish hs

/-- The violation of a guardrail as a list of at most one conjunct. -/
def Guardrail.conjunctList (r : Guardrail) : List Conjunct :=
  if r.violation.isEmpty then []
  else ((Expr.parse r.violation).toOption.map Conjunct.expression).toList

/-- A guardrail of a plan enforces one of a revision: it says the same, and its program answers
whether the violation holds. -/
structure Guardrail.EnforcedBy (r : Guardrail) (g : PlanGuardrail) (symbols : SymbolTable) :
    Prop where
  id : g.id = r.id
  mode : g.mode = r.mode
  appliesTo : g.appliesTo = sortedDistinct r.appliesTo
  fallback : g.fallback = r.fallback
  capParam : g.capParam = r.capParam
  capValue : g.capValue = r.capValue
  defaultOutcome : g.defaultOutcome = r.defaultOutcome
  answer : ∀ names, symbols.names <+: names → names.length ≤ 2 ^ 32 →
    g.violation.code.length < 2 ^ 32 → ∀ e : Evidence,
      (g.violation.run (e.env names)).mapError (·.cause) = Conjunct.allTrue e r.conjunctList

/-- Guardrails are emitted as what enforces them. -/
theorem gives_emitted (r : Guardrail) : Gives r.emitted r.EnforcedBy := by
  unfold Guardrail.emitted
  dsimp only
  split
  · rename_i hempty
    have hnone : r.conjunctList = [] := if_pos hempty
    exact gives_pure fun _ => ⟨rfl, rfl, rfl, rfl, rfl, rfl, rfl, fun _ _ _ _ _ => hnone ▸ rfl⟩
  · rename_i hempty
    cases hx : Expr.parse r.violation with
    | error e =>
      have hnone : r.conjunctList = [] := by
        rw [Guardrail.conjunctList, if_neg hempty, hx]
        rfl
      exact gives_pure fun _ => ⟨rfl, rfl, rfl, rfl, rfl, rfl, rfl, fun _ _ _ _ _ => hnone ▸ rfl⟩
    | ok x =>
      have hlist : r.conjunctList = [.expression x] := by
        rw [Guardrail.conjunctList, if_neg hempty, hx]
        rfl
      have hsingle : Assembly.emitExpression x = [Conjunct.expression x].forM Conjunct.emit :=
        (bind_pure_unit (x := Assembly.emitExpression x)).symm
      have haccepts : Assembly.Accepts true (Assembly.emitExpression x) :=
        Assembly.accepts_emitExpression (.inl rfl)
      dsimp only
      rw [hsingle] at haccepts ⊢
      have hplain : ∀ c ∈ [Conjunct.expression x], c.hasNegativeZero = false := fun c hc => by
        rw [List.mem_singleton.1 hc]
        exact Expr.hasNegativeZero_of_parse hx
      refine gives_bind (gives_assembled haccepts hplain) fun p => gives_pure fun _ hp => ?_
      exact ⟨rfl, rfl, rfl, rfl, rfl, rfl, rfl, hlist ▸ hp.1⟩

/-! ## Steps -/

theorem Step.guards_eq (step : Step) : step.guards = step.choices.map (·.2) := by
  cases step <;> simp [guards, choices]

namespace EmissionContext

variable {c : EmissionContext} {contest : Contest}

/-- A branch offers a rule: it has its number and guard, and is ranked like it. -/
structure Offers (c : EmissionContext) (n : FlatNode) (b : Branch) (symbols : SymbolTable) :
    Prop where
  node : b.node = c.number n.id
  guards : c.Guards n b.guard symbols
  priority : b.priority = n.priority
  weight : b.weight = n.weight
  outcome : b.outcome = n.outcome
  order : b.order = n.order

/-- The winners and losers of a contest by their numbers, in order. -/
def pairs (c : EmissionContext) (contest : Contest) : List (Nat × Nat) :=
  (contest.dominates.map fun p => (c.number p.1, c.number p.2)).mergeSort pairBefore

/-- A step is what a contest is emitted as: a single rule by itself, several ones as branches of a
selector. -/
inductive Plans (c : EmissionContext) (policy : SelectionPolicy) (comparator : Bytes)
    (contest : Contest) (symbols : SymbolTable) : Step → Prop
  | sequential {n : FlatNode} {g : Guard} (members : contest.members = [n])
      (outcome : n.outcome = none) (guards : c.Guards n g symbols) :
      Plans c policy comparator contest symbols (.sequential (c.number n.id) g)
  | task {n : FlatNode} {g : Guard} {o : Outcome} (members : contest.members = [n])
      (outcome : n.outcome = some o) (guards : c.Guards n g symbols) :
      Plans c policy comparator contest symbols (.task (c.number n.id) g o)
  | selector {branches : List Branch} (several : 1 < contest.members.length)
      (offers : List.Forall₂ (fun n b => c.Offers n b symbols) contest.members branches) :
      Plans c policy comparator contest symbols
        (.selector ⟨contest.group, policy, comparator, branches, c.pairs contest⟩)

/-- A step decides a contest: its choices are the rules of the contest, and it knows which of them
dominate others if there are several. -/
structure Decides (c : EmissionContext) (contest : Contest) (step : Step) (symbols : SymbolTable) :
    Prop where
  choices : List.Forall₂ (fun n ch => ch.1 = c.number n.id ∧ c.Guards n ch.2 symbols)
    contest.members step.choices
  dominance : ∀ x, x ∈ step.dominance ↔ 1 < contest.members.length ∧
    ∃ p ∈ contest.dominates, (c.number p.1, c.number p.2) = x

theorem mem_pairs_iff {x : Nat × Nat} :
    x ∈ c.pairs contest ↔ ∃ p ∈ contest.dominates, (c.number p.1, c.number p.2) = x := by
  simp only [pairs, List.mem_mergeSort, List.mem_map]

theorem Plans.decides {policy : SelectionPolicy} {comparator : Bytes} {symbols : SymbolTable}
    {step : Step} (h : c.Plans policy comparator contest symbols step) :
    c.Decides contest step symbols := by
  cases h with
  | sequential members _ guards =>
    refine ⟨?_, fun x => by simp [Step.dominance, members]⟩
    rw [members]
    exact .cons ⟨rfl, guards⟩ .nil
  | task members _ guards =>
    refine ⟨?_, fun x => by simp [Step.dominance, members]⟩
    rw [members]
    exact .cons ⟨rfl, guards⟩ .nil
  | selector several offers =>
    refine ⟨?_, fun x => by simp [Step.dominance, several, mem_pairs_iff]⟩
    rw [Step.choices, List.forall₂_map_right_iff]
    exact offers.imp fun _ _ hb => ⟨hb.node, hb.guards⟩

theorem gives_guard {n : FlatNode} (hn : n.Usable) : Gives (c.guard n) (c.Guards n) := by
  unfold guard
  rw [conjuncts_eq]
  refine gives_bind (gives_assembled (Assembly.accepts_conjuncts (acceptable_conjunctList hn))
    (plain_conjunctList hn)) fun p => gives_pure fun t hp => ?_
  exact ⟨rfl, rfl, hp.1, hp.2⟩

theorem gives_branch {n : FlatNode} (hn : n.Usable) : Gives (c.branch n) (c.Offers n) := by
  unfold branch
  exact gives_bind (gives_guard hn) fun g => gives_pure fun _ hg => ⟨rfl, hg, rfl, rfl, rfl, rfl⟩

/-- Every contest is emitted as one step. -/
theorem gives_steps {policy : SelectionPolicy} {comparator : Bytes}
    (hne : contest.members ≠ []) (husable : ∀ n ∈ contest.members, n.Usable) :
    Gives (c.steps policy comparator contest)
      fun steps t => ∃ step, steps = [step] ∧ c.Plans policy comparator contest t step := by
  unfold steps
  split
  · rename_i hmembers
    exact absurd hmembers hne
  · rename_i n hmembers
    refine gives_bind (gives_guard (husable n (by simp [hmembers]))) fun g => ?_
    cases houtcome : n.outcome with
    | some o => exact gives_pure fun t hg => ⟨_, rfl, .task hmembers houtcome hg⟩
    | none => exact gives_pure fun t hg => ⟨_, rfl, .sequential hmembers houtcome hg⟩
  · rename_i hnotEmpty hnotSingle
    have hmany : 1 < contest.members.length := by
      rcases hmembers : contest.members with _ | ⟨n, _ | ⟨m, rest⟩⟩
      · exact absurd hmembers hne
      · exact absurd hmembers (hnotSingle n)
      · simp
    unfold selector
    simp only [bind_assoc, pure_bind]
    refine gives_bind (gives_mapM fun n hn => gives_branch (husable n hn)) fun branches =>
      gives_pure fun t hbranches => ⟨_, rfl, ?_⟩
    exact .selector hmany hbranches

end EmissionContext

/-! ## Plans -/

theorem forall₂_flatten {α β : Type} {R : α → β → Prop} {xs : List α} {yss : List (List β)}
    (h : List.Forall₂ (fun x ys => ∃ y, ys = [y] ∧ R x y) xs yss) :
    List.Forall₂ R xs yss.flatten := by
  induction h with
  | nil => exact .nil
  | cons hx _ ih =>
    obtain ⟨y, rfl, hy⟩ := hx
    exact .cons hy ih

/-- What the contests of a plan are emitted with. -/
def Revision.emissionContext (r : Revision) (maxBits : Nat) (k : FlatGraph)
    (contests : List Contest) : EmissionContext :=
  ⟨r.catalog, maxBits, k.edges, (contests.flatMap (·.members)).map (·.id)⟩

/-- The steps of the contests of a plan, and the symbols after them. -/
def Revision.emittedSteps (r : Revision) (maxBits : Nat) (k : FlatGraph) (cs : List Contest) :
    List (List Step) × SymbolTable :=
  (cs.mapM ((r.emissionContext maxBits k cs).steps r.policy r.comparator)).run .empty

/-- The guardrails of a plan, and the symbols after them. -/
def Revision.emittedRails (r : Revision) (maxBits : Nat) (k : FlatGraph) (cs : List Contest) :
    List PlanGuardrail × SymbolTable :=
  (r.guardrails.mapM Guardrail.emitted).run (r.emittedSteps maxBits k cs).2

/-- A plan before it is sealed with its bytes and their hash. -/
def Revision.emitted (r : Revision) (maxBits : Nat) (k : FlatGraph) (cs : List Contest) :
    Blueprint :=
  ⟨⟨r.graph, r.version, 0⟩, r.tenant, r.decisionType, r.catalog, (r.emittedRails maxBits k cs).2,
    (cs.flatMap (·.members)).map fun n => ⟨n.id, n.kind, n.label⟩,
    (r.emittedSteps maxBits k cs).1.flatten, (r.emittedRails maxBits k cs).1, []⟩

theorem Revision.emit_eq (r : Revision) (maxBits : Nat) (k : FlatGraph) (cs : List Contest) :
    (r.emit maxBits k cs).1 = (r.emitted maxBits k cs).sealed := rfl

/-- A plan with whatever bytes and whatever hash of them. -/
def Blueprint.resealed (b : Blueprint) (bytes : Bytes) (hash : UInt64) : Blueprint :=
  { b with encoded := bytes, id := { b.id with contentHash := hash } }

/-- The steps of a plan are what its contests are emitted as, and its guardrails enforce those of
the revision. -/
theorem Revision.plans_emit {r : Revision} {maxBits : Nat} {k : FlatGraph}
    {contests : List Contest} (hne : ∀ c ∈ contests, c.members ≠ [])
    (husable : ∀ c ∈ contests, ∀ n ∈ c.members, n.Usable) :
    List.Forall₂ (fun contest step => (r.emissionContext maxBits k contests).Plans r.policy
        r.comparator contest (r.emit maxBits k contests).1.symbols step)
      contests (r.emit maxBits k contests).1.steps ∧
    List.Forall₂ (fun rail g => rail.EnforcedBy g (r.emit maxBits k contests).1.symbols)
      r.guardrails (r.emit maxBits k contests).1.guardrails := by
  let c := r.emissionContext maxBits k contests
  have hsteps : Gives (contests.mapM (c.steps r.policy r.comparator)) _ :=
    gives_mapM fun x hx => EmissionContext.gives_steps (hne x hx) (husable x hx)
  have hall : Gives (do
      let steps ← contests.mapM (c.steps r.policy r.comparator)
      return (steps.flatten, ← r.guardrails.mapM Guardrail.emitted))
      fun plan t => List.Forall₂ (fun contest step =>
          c.Plans r.policy r.comparator contest t step) contests plan.1 ∧
        List.Forall₂ (fun rail g => rail.EnforcedBy g t) r.guardrails plan.2 :=
    gives_bind hsteps fun steps => gives_bind (gives_mapM fun g _ => gives_emitted g)
      fun _ => gives_pure fun _ hrails h => ⟨forall₂_flatten h, hrails⟩
  exact (hall .empty).2 _ List.prefix_rfl

theorem Revision.nodes_emit (r : Revision) (maxBits : Nat) (k : FlatGraph)
    (contests : List Contest) :
    (r.emit maxBits k contests).1.nodes.map (·.id) =
      (r.emissionContext maxBits k contests).table := by
  have hnodes : (r.emit maxBits k contests).1.nodes =
      (contests.flatMap (·.members)).map fun n => ⟨n.id, n.kind, n.label⟩ := rfl
  rw [hnodes, List.map_map]
  rfl

end DecisionEngine
