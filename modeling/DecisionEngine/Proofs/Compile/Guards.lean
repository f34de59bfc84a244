import DecisionEngine.Compile.Emission
import DecisionEngine.Proofs.Catalog.Masks
import DecisionEngine.Proofs.Compile.Kept
import DecisionEngine.Proofs.Expr.Literals
import DecisionEngine.Proofs.Plan.Ranking
import DecisionEngine.Proofs.Plan.Steps
import DecisionEngine.Proofs.Program.Acceptance
import DecisionEngine.Proofs.Program.Tests
/-!
# What an emitted guard tests

The guard of a rule passes exactly if the conditions of the rule are met, everything it requires
has fired, nothing that neutralizes it has, and one of the rules that flow to it has, if any do.

* `EmissionContext.conjunctList` — the conjuncts of a guard as a list.
* `EmissionContext.Guards` — a guard tests what a rule asks for, by the symbols of a plan.
* `EmissionContext.Asks` — what a rule asks for, in terms of what has fired.
* `EmissionContext.Guards.passes_iff` — the guard of a rule passes exactly if that is so.
-/

namespace DecisionEngine

/-! ## Conjuncts -/

theorem forIn_eq_forM {m : Type → Type} [Monad m] [LawfulMonad m] {α : Type} (xs : List α)
    (f : α → m PUnit) :
    (forIn xs PUnit.unit fun x _ => do
      f x
      pure (ForInStep.yield PUnit.unit)) = xs.forM f := by
  induction xs with
  | nil => rfl
  | cons x xs ih =>
    have hcons : (x :: xs).forM f = (f x >>= fun _ => xs.forM f) := rfl
    rw [List.forIn_cons, hcons, bind_assoc]
    congr 1
    funext _
    rw [pure_bind]
    exact ih

/-- Expressions do not look at what has fired. -/
theorem Expr.value_congr {e e' : Evidence} (h : ∀ r, e.lookup r = e'.lookup r) (x : Expr) :
    x.value e = x.value e' := by
  induction x with
  | literal position v => rfl
  | reference r => simp only [Expr.value, h]
  | present position r => simp only [Expr.value, h]
  | unary position op x ih => simp only [Expr.value, ih]
  | binary position op l r ihl ihr => simp only [Expr.value, ihl, ihr]

namespace Conjunct

variable {e : Evidence}

theorem nodeFired_eq_iff {i : Nat} (hi : i < 2 ^ 32) {b : Bool} :
    e.nodeFired (UInt32.ofNat i) = .ok b ↔ e.fired[i]? = some b := by
  unfold Evidence.nodeFired
  rw [UInt32.toNat_ofNat_of_lt' hi]
  cases e.fired[i]? <;> simp

theorem truth_notFired_iff {i : Nat} (hi : i < 2 ^ 32) :
    (notFired (UInt32.ofNat i)).truth e = .ok true ↔ e.fired[i]? = some false := by
  rw [← nodeFired_eq_iff hi]
  cases hi : e.nodeFired (UInt32.ofNat i) with
  | error f => simp [truth, hi, bind, Except.bind]
  | ok b => cases b <;> simp [truth, hi, bind, Except.bind, pure, Except.pure]

/-- One of some nodes has fired, all of which the plan has. -/
theorem someFired_iff {is : List Nat} (hsmall : ∀ i ∈ is, i < 2 ^ 32)
    (his : ∀ i ∈ is, i < e.fired.length) :
    someFired e (is.map UInt32.ofNat) = .ok true ↔ ∃ i ∈ is, e.fired[i]? = some true := by
  induction is with
  | nil => simp [someFired]
  | cons i is ih =>
    have hrest := ih (fun j hj => hsmall j (List.mem_cons_of_mem _ hj))
      fun j hj => his j (List.mem_cons_of_mem _ hj)
    have hlt := his i (List.mem_cons_self ..)
    have hnode := nodeFired_eq_iff (e := e) (hsmall i (List.mem_cons_self ..))
      (b := e.fired[i])
    rw [List.map_cons, someFired, hnode.2 (List.getElem?_eq_getElem hlt)]
    simp only [bind, Except.bind, List.exists_mem_cons_iff, List.getElem?_eq_getElem hlt,
      Option.some.injEq]
    cases e.fired[i] with
    | true => simp [pure, Except.pure]
    | false => simpa using hrest

end Conjunct

namespace EmissionContext

variable {c : EmissionContext} {n : FlatNode}

/-- The conjuncts of the program of a guard, in their order. -/
def conjunctList (c : EmissionContext) (n : FlatNode) : List Conjunct :=
  ((c.residual n).filterMap Predicate.ofLabel?).map .categorical ++
  n.expressions.map (fun x => .expression x.tree) ++
  (c.required n.id).map (fun i => .fired (UInt32.ofNat i)) ++
  (c.neutralizing n.id).map (fun i => .notFired (UInt32.ofNat i)) ++
  (if (c.flowing n.id).isEmpty then []
    else [.anyFired ((c.flowing n.id).map UInt32.ofNat)])

theorem conjuncts_eq (c : EmissionContext) (n : FlatNode) :
    c.conjuncts n = (c.conjunctList n).forM Conjunct.emit := by
  unfold conjuncts conjunctList
  simp only [forIn_eq_forM]
  cases (c.flowing n.id).isEmpty <;> simp [Conjunct.emit]

/-- What the conjuncts of a guard are about: labels and expressions of its rule, and nodes that edges
lead from to the rule. -/
inductive HasConjunct (c : EmissionContext) (n : FlatNode) : Conjunct → Prop
  | label (p : Predicate) : HasConjunct c n (.categorical p)
  | expression {x : SourcedExpr} (mem : x ∈ n.expressions) :
    HasConjunct c n (.expression x.tree)
  | required {i : Nat} (mem : i ∈ c.required n.id) : HasConjunct c n (.fired (UInt32.ofNat i))
  | neutralizing {i : Nat} (mem : i ∈ c.neutralizing n.id) :
    HasConjunct c n (.notFired (UInt32.ofNat i))
  | flowing (some : c.flowing n.id ≠ []) :
    HasConjunct c n (.anyFired ((c.flowing n.id).map UInt32.ofNat))

theorem hasConjunct_of_mem {cj : Conjunct} (hcj : cj ∈ c.conjunctList n) : c.HasConjunct n cj := by
  unfold conjunctList at hcj
  simp only [List.mem_append, List.mem_map] at hcj
  rcases hcj with (((⟨p, -, rfl⟩ | ⟨x, hx, rfl⟩) | ⟨i, hi, rfl⟩) | ⟨i, hi, rfl⟩) | hcj
  · exact .label p
  · exact .expression hx
  · exact .required hi
  · exact .neutralizing hi
  · split at hcj
    · exact absurd hcj List.not_mem_nil
    · rename_i hne
      rw [List.mem_singleton.1 hcj]
      exact .flowing (by simpa using hne)

theorem acceptable_conjunctList (hn : n.Usable) : ∀ cj ∈ c.conjunctList n, cj.Acceptable := by
  intro cj hcj
  cases hasConjunct_of_mem hcj with
  | label p => trivial
  | expression hx =>
    obtain ⟨source, hsource⟩ := hn.expressions _ hx
    exact refersToOutcome_of_checked hsource
  | required _ => trivial
  | neutralizing _ => trivial
  | flowing hne => simpa [Conjunct.Acceptable] using hne

theorem plain_conjunctList (hn : n.Usable) :
    ∀ cj ∈ c.conjunctList n, cj.hasNegativeZero = false := by
  intro cj hcj
  cases hasConjunct_of_mem hcj with
  | label p => rfl
  | expression hx =>
    obtain ⟨source, hsource⟩ := hn.expressions _ hx
    exact Expr.hasNegativeZero_of_parse (parse_of_checkedExpression hsource)
  | required _ => rfl
  | neutralizing _ => rfl
  | flowing _ => rfl

/-! ## What a rule asks for -/

/-- A rule has fired. -/
def Fired (c : EmissionContext) (fired : List Bool) (id : Bytes) : Prop :=
  fired[c.number id]? = some true

/-- Everything holds that a rule asks for, given what has fired. -/
structure Asks (c : EmissionContext) (n : FlatNode) (e : Evidence) : Prop where
  met : n.Met e
  required : ∀ b, ⟨n.id, .requires, b⟩ ∈ c.edges → c.Fired e.fired b
  neutralized : ∀ a, ⟨a, .neutralizes, n.id⟩ ∈ c.edges → ¬c.Fired e.fired a
  reached : (∃ a, ⟨a, .flowsTo, n.id⟩ ∈ c.edges) →
    ∃ a, ⟨a, .flowsTo, n.id⟩ ∈ c.edges ∧ c.Fired e.fired a

/-- The edges of a plan join its rules, of which there are not more than can be addressed. -/
structure Numbered (c : EmissionContext) : Prop where
  ends : ∀ e ∈ c.edges, e.source ∈ c.table ∧ e.target ∈ c.table
  size : c.table.length ≤ 2 ^ 32

theorem mem_required_iff {i : Nat} :
    i ∈ c.required n.id ↔ ∃ b, ⟨n.id, .requires, b⟩ ∈ c.edges ∧ c.number b = i := by
  simp only [required, numbers, List.mem_mergeSort, List.map_map, List.mem_map, List.mem_filter,
    Bool.and_eq_true, beq_iff_eq, Function.comp_apply]
  constructor
  · rintro ⟨⟨_, _, b⟩, ⟨he, rfl, rfl⟩, hi⟩
    exact ⟨b, he, hi⟩
  · rintro ⟨b, he, hi⟩
    exact ⟨_, ⟨he, rfl, rfl⟩, hi⟩

theorem mem_numbers_source_iff {kind : EdgeKind} {id : Bytes} {i : Nat} :
    i ∈ c.numbers ((c.edges.filter fun e => e.kind == kind && e.target == id).map (·.source)) ↔
      ∃ a, ⟨a, kind, id⟩ ∈ c.edges ∧ c.number a = i := by
  simp only [numbers, List.mem_mergeSort, List.map_map, List.mem_map, List.mem_filter,
    Bool.and_eq_true, beq_iff_eq, Function.comp_apply]
  constructor
  · rintro ⟨⟨a, _, _⟩, ⟨he, rfl, rfl⟩, hi⟩
    exact ⟨a, he, hi⟩
  · rintro ⟨a, he, hi⟩
    exact ⟨_, ⟨he, rfl, rfl⟩, hi⟩

/-! ## Guards -/

/-- A guard tests what a rule asks for, wherever its program is run with the names of a table or
of one that grew from it, and asks about the nodes that the rule depends on. -/
structure Guards (c : EmissionContext) (n : FlatNode) (g : Guard) (symbols : SymbolTable) :
    Prop where
  mask : g.mask = c.mask n
  labels : g.labels = n.labels
  answer : ∀ names, symbols.names <+: names → names.length ≤ 2 ^ 32 →
    g.program.code.length < 2 ^ 32 → ∀ e : Evidence,
      (g.program.run (e.env names)).mapError (·.cause) = Conjunct.allTrue e (c.conjunctList n)
  tests : g.program.code.filter Instruction.isTest = (c.conjunctList n).flatMap Conjunct.tests

/-- A mask has no more bits than the rule has labels. -/
theorem count_mask_le (c : EmissionContext) (n : FlatNode) :
    (c.mask n).count ≤ n.labels.length := by
  refine (Mask.count_union_le fun b hb => ?_).trans (List.length_filterMap_le ..)
  obtain ⟨l, -, hl⟩ := List.mem_filterMap.1 hb
  exact (Catalog.bitOf?_spec (Option.filter_eq_some_iff.1 hl).1).1

/-- The labels of a rule are met if those with a bit are, and those without. -/
theorem covers_mask_iff {attributes : AttributeSet} (hn : n.Usable) :
    ((c.catalog.maskOf attributes).covers (c.mask n) = true ∧
        ∀ p ∈ (c.residual n).filterMap Predicate.ofLabel?, p.holds attributes = true) ↔
      ∀ l ∈ n.labels, ∃ p, Predicate.ofLabel? l = some p ∧ p.holds attributes = true := by
  have hbit : ∀ l i, c.bit? l = some i → c.catalog.bitOf? l = some i := fun l i h =>
    (Option.filter_eq_some_iff.1 h).1
  unfold mask
  rw [Catalog.covers_union_iff hbit]
  constructor
  · rintro ⟨hbits, hothers⟩ l hl
    cases hl' : (c.bit? l).isSome with
    | true => exact hbits l hl hl'
    | false =>
      obtain ⟨p, hp⟩ := Option.isSome_iff_exists.1 (hn.labels l hl)
      have hresidual : l ∈ c.residual n := List.mem_filter.2 ⟨hl, by simpa using hl'⟩
      exact ⟨p, hp, hothers p (List.mem_filterMap.2 ⟨l, hresidual, hp⟩)⟩
  · intro h
    refine ⟨fun l hl _ => h l hl, fun p hp => ?_⟩
    obtain ⟨l, hl, hlp⟩ := List.mem_filterMap.1 hp
    obtain ⟨q, hq, hholds⟩ := h l (List.mem_filter.1 hl).1
    rw [hlp] at hq
    cases hq
    exact hholds

section

variable {e : Evidence}

theorem Numbered.number_lt (hc : c.Numbered) {id : Bytes} (h : id ∈ c.table) :
    c.number id < c.table.length ∧ c.number id < 2 ^ 32 :=
  have hlt : c.number id < c.table.length := List.idxOf_lt_length_iff.2 h
  ⟨hlt, Nat.lt_of_lt_of_le hlt hc.size⟩

theorem truth_required_iff (hc : c.Numbered) :
    (∀ i ∈ c.required n.id, (Conjunct.fired (UInt32.ofNat i)).truth e = .ok true) ↔
      ∀ b, ⟨n.id, .requires, b⟩ ∈ c.edges → c.Fired e.fired b := by
  simp only [mem_required_iff]
  constructor
  · intro h b hb
    exact (Conjunct.nodeFired_eq_iff (hc.number_lt (hc.ends _ hb).2).2).1 (h _ ⟨b, hb, rfl⟩)
  · rintro h _ ⟨b, hb, rfl⟩
    exact (Conjunct.nodeFired_eq_iff (hc.number_lt (hc.ends _ hb).2).2).2 (h b hb)

theorem truth_neutralizing_iff (hc : c.Numbered) (he : e.fired.length = c.table.length) :
    (∀ i ∈ c.neutralizing n.id, (Conjunct.notFired (UInt32.ofNat i)).truth e = .ok true) ↔
      ∀ a, ⟨a, .neutralizes, n.id⟩ ∈ c.edges → ¬c.Fired e.fired a := by
  have hnot : ∀ a, ⟨a, .neutralizes, n.id⟩ ∈ c.edges →
      ((Conjunct.notFired (UInt32.ofNat (c.number a))).truth e = .ok true ↔
        ¬c.Fired e.fired a) := by
    intro a ha
    obtain ⟨hlt, hsmall⟩ := hc.number_lt (hc.ends _ ha).1
    rw [Conjunct.truth_notFired_iff hsmall, Fired,
      List.getElem?_eq_getElem (l := e.fired) (he ▸ hlt)]
    simp
  simp only [neutralizing, mem_numbers_source_iff]
  constructor
  · intro h a ha
    exact (hnot a ha).1 (h _ ⟨a, ha, rfl⟩)
  · rintro h _ ⟨a, ha, rfl⟩
    exact (hnot a ha).2 (h a ha)

theorem truth_flowing_iff (hc : c.Numbered) (he : e.fired.length = c.table.length) :
    (∀ cj ∈ (if (c.flowing n.id).isEmpty then []
        else [Conjunct.anyFired ((c.flowing n.id).map UInt32.ofNat)]), cj.truth e = .ok true) ↔
      ((∃ a, ⟨a, .flowsTo, n.id⟩ ∈ c.edges) →
        ∃ a, ⟨a, .flowsTo, n.id⟩ ∈ c.edges ∧ c.Fired e.fired a) := by
  have hmem : ∀ i, i ∈ c.flowing n.id ↔ ∃ a, ⟨a, .flowsTo, n.id⟩ ∈ c.edges ∧ c.number a = i :=
    fun i => mem_numbers_source_iff
  have hlt : ∀ i ∈ c.flowing n.id, i < e.fired.length ∧ i < 2 ^ 32 := by
    intro i hi
    obtain ⟨a, ha, rfl⟩ := (hmem i).1 hi
    rw [he]
    exact hc.number_lt (hc.ends _ ha).1
  have hsome := Conjunct.someFired_iff (fun i hi => (hlt i hi).2) fun i hi => (hlt i hi).1
  by_cases hempty : c.flowing n.id = []
  · have hnone : ¬∃ a, (⟨a, .flowsTo, n.id⟩ : Edge) ∈ c.edges := by
      rintro ⟨a, ha⟩
      have hnumber := (hmem _).2 ⟨a, ha, rfl⟩
      rw [hempty] at hnumber
      exact List.not_mem_nil hnumber
    simp [hempty, hnone]
  · have hreached : ∃ a, (⟨a, .flowsTo, n.id⟩ : Edge) ∈ c.edges := by
      obtain ⟨i, hi⟩ := List.exists_mem_of_ne_nil _ hempty
      exact ((hmem i).1 hi).imp fun _ ha => ha.1
    rw [if_neg (by simpa using hempty)]
    simp only [List.forall_mem_singleton, hreached, true_implies]
    refine hsome.trans ⟨?_, ?_⟩
    · rintro ⟨i, hi, hfired⟩
      obtain ⟨a, ha, rfl⟩ := (hmem i).1 hi
      exact ⟨a, ha, hfired⟩
    · rintro ⟨a, ha, hfired⟩
      exact ⟨_, (hmem _).2 ⟨a, ha, rfl⟩, hfired⟩

/-- The bits of a rule are there and its conjuncts are true exactly if everything holds that the
rule asks for. -/
theorem allTrue_conjunctList_iff (hc : c.Numbered) (hn : n.Usable)
    (he : e.fired.length = c.table.length) :
    ((c.catalog.maskOf e.context).covers (c.mask n) = true ∧
        Conjunct.allTrue e (c.conjunctList n) = .ok true) ↔ c.Asks n e := by
  have hcategorical : ∀ p, (Conjunct.categorical p).truth e = .ok true ↔
      p.holds e.context = true := by
    intro p
    rw [Conjunct.truth, Except.ok.injEq]
  have hlabels := @covers_mask_iff c n e.context hn
  rw [Conjunct.allTrue_eq_true_iff]
  unfold conjunctList
  simp only [List.forall_mem_append, List.forall_mem_map, Conjunct.truth_expression_iff,
    hcategorical, truth_required_iff hc, truth_neutralizing_iff hc he, truth_flowing_iff hc he]
  constructor
  · rintro ⟨hcovers, ⟨⟨⟨hresidual, hexpressions⟩, hrequired⟩, hneutralized⟩, hreached⟩
    exact ⟨⟨hlabels.1 ⟨hcovers, hresidual⟩, hexpressions⟩, hrequired, hneutralized, hreached⟩
  · rintro ⟨⟨hmet, hexpressions⟩, hrequired, hneutralized, hreached⟩
    obtain ⟨hcovers, hresidual⟩ := hlabels.2 hmet
    exact ⟨hcovers, ⟨⟨⟨hresidual, hexpressions⟩, hrequired⟩, hneutralized⟩, hreached⟩

end

/-- The guard of a rule passes exactly if everything holds that the rule asks for. -/
theorem Guards.passes_iff {g : Guard} {b : Blueprint} {attributes inputs : AttributeSet}
    {verbose expired : Bool} {comparators : Comparators} {fired : List Bool}
    (h : c.Guards n g b.symbols) (hc : c.Numbered) (hn : n.Usable)
    (hnames : b.symbols.names.length ≤ 2 ^ 32) (hcode : g.program.code.length < 2 ^ 32)
    (hfired : fired.length = c.table.length) :
    (Situation.ofAttributes b (c.catalog.maskOf attributes) attributes inputs verbose comparators
      expired).Passes fired g ↔ c.Asks n ⟨attributes, inputs, .empty, fired⟩ := by
  rw [← allTrue_conjunctList_iff hc hn (by exact hfired),
    ← h.answer _ List.prefix_rfl hnames hcode, mapError_eq_ok, ← h.mask]
  rfl

end EmissionContext
end DecisionEngine
