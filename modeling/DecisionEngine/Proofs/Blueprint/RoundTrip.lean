import DecisionEngine.Proofs.Catalog.Labels
import DecisionEngine.Proofs.Compile.Correctness
import DecisionEngine.Proofs.Wire.Items
import DecisionEngine.Trace.Record
/-!
# Reading blueprints back

A blueprint is read back from its bytes as it was written, but for negative zeros, which are
written as zeros.  The bytes of what was read are those that were read.

* `Blueprint.withoutNegativeZero` — what a blueprint is read back as.
* `Blueprint.Closed` — the numbers of nodes in a blueprint are numbers of its nodes.
* `Blueprint.decode_encode` — reading what was written.
* `Revision.Passed.closed` — compiled blueprints are closed.
* `Blueprint.round_trip` — blueprints are read back, compiled ones with their ids.
-/

namespace DecisionEngine

/-! ## What is read back -/

/-- The program with positive zeros in the place of negative ones among its constants. -/
def Program.withoutNegativeZero (p : Program) : Program :=
  { p with constants := p.constants.map Value.withoutNegativeZero }

/-- The outcome with positive zeros in the place of negative ones among its parameters. -/
def Outcome.withoutNegativeZero (o : Outcome) : Outcome :=
  { o with params := o.params.withoutNegativeZero }

/-- The guard with positive zeros in the place of negative ones in its program. -/
def Guard.withoutNegativeZero (g : Guard) : Guard :=
  { g with program := g.program.withoutNegativeZero }

/-- The candidate with positive zeros in the place of negative ones. -/
def Branch.withoutNegativeZero (b : Branch) : Branch :=
  { b with
    guard := b.guard.withoutNegativeZero
    weight := b.weight.withoutNegativeZero
    outcome := b.outcome.map Outcome.withoutNegativeZero }

/-- The step with positive zeros in the place of negative ones. -/
def Step.withoutNegativeZero : Step → Step
  | .sequential node g => .sequential node g.withoutNegativeZero
  | .task node g o => .task node g.withoutNegativeZero o.withoutNegativeZero
  | .selector s => .selector { s with branches := s.branches.map Branch.withoutNegativeZero }

/-- The guardrail with positive zeros in the place of negative ones. -/
def PlanGuardrail.withoutNegativeZero (g : PlanGuardrail) : PlanGuardrail :=
  { g with
    violation := g.violation.withoutNegativeZero
    capValue := g.capValue.withoutNegativeZero
    defaultOutcome := g.defaultOutcome.withoutNegativeZero }

/-- The blueprint with positive zeros in the place of negative ones. -/
def Blueprint.withoutNegativeZero (b : Blueprint) : Blueprint :=
  { b with
    steps := b.steps.map Step.withoutNegativeZero
    guardrails := b.guardrails.map PlanGuardrail.withoutNegativeZero }

/-! ## Bytes without negative zeros -/

theorem Binary64.withoutNegativeZero_idem (x : Binary64) :
    x.withoutNegativeZero.withoutNegativeZero = x.withoutNegativeZero := by
  unfold withoutNegativeZero
  by_cases hx : x = .negativeZero
  · rw [if_pos hx]
    rfl
  · rw [if_neg hx, if_neg hx]

namespace Wire

variable {α : Type}

theorem real_withoutNegativeZero (x : Binary64) : real x.withoutNegativeZero = real x := by
  unfold real
  rw [x.withoutNegativeZero_idem]

theorem value_withoutNegativeZero (v : Value) : value v.withoutNegativeZero = value v := by
  cases v with
  | real x => exact real_withoutNegativeZero x
  | _ => rfl

/-- Lists have the bytes of their items. -/
theorem list_congr {write : α → Bytes} {xs ys : List α} (h : xs.map write = ys.map write) :
    list write xs = list write ys := by
  have hlength := congrArg List.length h
  rw [List.length_map, List.length_map] at hlength
  unfold list
  rw [List.flatMap_def, List.flatMap_def, h, hlength]

theorem list_map {write : α → Bytes} {f : α → α} (h : ∀ x, write (f x) = write x) (xs : List α) :
    list write (xs.map f) = list write xs := by
  refine list_congr ?_
  rw [List.map_map]
  exact List.map_congr_left fun x _ => h x

theorem attributes_withoutNegativeZero (a : AttributeSet) :
    attributes a.withoutNegativeZero = attributes a := by
  unfold attributes
  rw [a.entries_withoutNegativeZero, List.flatMap_map]
  refine congrArg _ (List.flatMap_congr fun e _ => ?_)
  rw [value_withoutNegativeZero]

theorem program_withoutNegativeZero (p : Program) : program p.withoutNegativeZero = program p := by
  unfold program Program.withoutNegativeZero
  rw [list_map value_withoutNegativeZero]

theorem outcome_withoutNegativeZero (o : Outcome) : outcome o.withoutNegativeZero = outcome o := by
  unfold outcome Outcome.withoutNegativeZero
  rw [attributes_withoutNegativeZero]

theorem guard_withoutNegativeZero (g : Guard) : guard g.withoutNegativeZero = guard g := by
  unfold guard Guard.withoutNegativeZero
  rw [program_withoutNegativeZero]

theorem branch_withoutNegativeZero (b : Branch) : branch b.withoutNegativeZero = branch b := by
  unfold branch Branch.withoutNegativeZero
  rw [guard_withoutNegativeZero, real_withoutNegativeZero]
  cases b.outcome with
  | none => rfl
  | some o => simp only [Option.map_some, outcome_withoutNegativeZero]

theorem step_withoutNegativeZero (s : Step) : step s.withoutNegativeZero = step s := by
  cases s with
  | sequential node g => simp only [step, Step.withoutNegativeZero, guard_withoutNegativeZero]
  | task node g o =>
    simp only [step, Step.withoutNegativeZero, guard_withoutNegativeZero,
      outcome_withoutNegativeZero]
  | selector s =>
    simp only [step, Step.withoutNegativeZero, list_map branch_withoutNegativeZero]

theorem guardrail_withoutNegativeZero (g : PlanGuardrail) :
    guardrail g.withoutNegativeZero = guardrail g := by
  unfold guardrail PlanGuardrail.withoutNegativeZero
  rw [program_withoutNegativeZero, value_withoutNegativeZero, outcome_withoutNegativeZero]

end Wire

/-- Negative zeros make no difference to the bytes. -/
theorem Blueprint.encode_withoutNegativeZero (b : Blueprint) :
    b.withoutNegativeZero.encode = b.encode := by
  unfold encode withoutNegativeZero
  rw [Wire.list_map Wire.step_withoutNegativeZero,
    Wire.list_map Wire.guardrail_withoutNegativeZero]

/-! ## What can be read back -/

/-- The numbers of nodes in the steps of a blueprint are numbers of its nodes. -/
structure Blueprint.Closed (b : Blueprint) : Prop where
  choices : ∀ step ∈ b.steps, ∀ ch ∈ step.choices, ch.1 < b.nodes.length
  dominance : ∀ step ∈ b.steps, ∀ p ∈ step.dominance, p.1 < b.nodes.length ∧ p.2 < b.nodes.length

/-- A blueprint can be held in memory: its bytes, and every list of texts in it. -/
structure Blueprint.Storable (b : Blueprint) : Prop where
  bytes : Wire.Reader.Short b.encode
  symbols : b.symbols.names.length ≤ Wire.Reader.maxTexts
  labels : ∀ step ∈ b.steps, ∀ g ∈ step.guards, g.labels.length ≤ Wire.Reader.maxTexts
  appliesTo : ∀ g ∈ b.guardrails, g.appliesTo.length ≤ Wire.Reader.maxTexts

namespace Wire
namespace Reader

/-! ## Programs -/

theorem ofCode?_code (op : Opcode) : Opcode.ofCode? op.code = some op := by
  cases op <;> rfl

theorem word32_littleEndian (w : UInt32) : word32 (littleEndian 4 w.toNat) = w := by
  unfold word32
  rw [ofLittleEndian_littleEndian, show 256 ^ 4 = 2 ^ 32 from rfl, Nat.mod_eq_of_lt w.toNat_lt,
    UInt32.ofNat_toNat]

/-- Instructions are read from bytes that are there already. -/
theorem reads_instructions (position : Nat) (is : List Instruction) :
    Reads (instructions position (is.flatMap Wire.instruction)) [] is := by
  induction is with
  | nil => exact reads_pure []
  | cons i is ih =>
    obtain ⟨op, a, b⟩ := i
    have hbytes : (⟨op, a, b⟩ :: is).flatMap Wire.instruction =
        op.code :: littleEndian 4 a.toNat ++ littleEndian 4 b.toNat ++
          is.flatMap Wire.instruction := rfl
    rw [hbytes]
    simp only [littleEndian, List.cons_append, List.nil_append, instructions, ofCode?_code]
    have ha := word32_littleEndian a
    have hb := word32_littleEndian b
    simp only [littleEndian] at ha hb
    rw [ha, hb]
    exact ih.map fun others => ⟨op, a, b⟩ :: others

theorem length_instructions (is : List Instruction) :
    (is.flatMap Wire.instruction).length = 9 * is.length := by
  induction is with
  | nil => rfl
  | cons i is ih =>
    rw [List.flatMap_cons, List.length_append, ih, List.length_cons]
    unfold Wire.instruction
    rw [List.cons_append, List.length_cons, List.length_append, length_littleEndian,
      length_littleEndian]
    omega

/-- A number of 32 bits is read back from a signed one. -/
theorem toUInt32_ofNat (w : UInt32) : (Int64.ofNat w.toNat).toUInt64.toUInt32 = w := by
  rw [← UInt32.toNat_inj, UInt64.toNat_toUInt32]
  change w.toNat % 2 ^ 64 % 2 ^ 32 = w.toNat
  have hw := w.toNat_lt
  omega

theorem reads_program (p : Program) :
    Reads program (Wire.program p) p.withoutNegativeZero := by
  unfold program Wire.program
  simp only [List.append_assoc]
  refine (reads_function (by decide)).bind ((reads_int _).bind ?_)
  have hwrite : ∀ v : Value, Wire.value v ≠ [] := by
    intro v
    cases v <;> exact List.cons_ne_nil _ _
  refine (reads_list hwrite fun v _ => reads_value v).bind (Reads.position fun start => ?_)
  refine (reads_binary _).last ?_
  rw [if_neg (by rw [length_instructions, Nat.mul_mod_right]; exact not_not_intro rfl)]
  refine (reads_instructions start p.code).last ?_
  rw [toUInt32_ofNat]
  exact reads_pure _

/-! ## Parts of steps -/

theorem reads_outcome (o : Outcome) : Reads outcome (Wire.outcome o) o.withoutNegativeZero := by
  unfold outcome Wire.outcome
  simp only [List.append_assoc]
  refine (reads_function (by decide)).bind ((reads_text _).bind ?_)
  exact (reads_attributes _).last (reads_pure _)

theorem reads_guard {g : Guard} (h : g.labels.length ≤ maxTexts) :
    Reads guard (Wire.guard g) g.withoutNegativeZero := by
  unfold guard Wire.guard
  simp only [List.append_assoc]
  refine (reads_function (by decide)).bind ((reads_word _).bind ((reads_program _).bind ?_))
  exact (reads_texts h).bind ((reads_text _).last (reads_pure _))

theorem reads_nodeIndex {count n : Nat} (hcount : count < 2 ^ 63) (hn : n < count) :
    Reads (nodeIndex count) (Wire.nat n) n := by
  have hlt : n < 2 ^ 63 := Nat.lt_trans hn hcount
  refine Reads.position fun start => (reads_int _).last ?_
  rw [Int64.toInt_ofNat_of_lt hlt, if_neg (by omega), Int.toNat_natCast]
  exact reads_pure n

theorem reads_planNode (n : PlanNode) : Reads planNode (Wire.planNode n) n := by
  unfold planNode Wire.planNode
  simp only [List.append_assoc]
  have hkind : n.kind ∈ NodeKind.all := by
    cases n.kind <;> decide
  refine (reads_function (by decide)).bind ((reads_text _).bind ?_)
  exact (reads_enumeration hkind (by decide)).bind ((reads_text _).last (reads_pure _))

theorem reads_branch {count : Nat} (hcount : count < 2 ^ 63) {b : Branch} (hnode : b.node < count)
    (hlabels : b.guard.labels.length ≤ maxTexts) :
    Reads (branch count) (Wire.branch b) b.withoutNegativeZero := by
  have hbytes : Wire.branch b = Wire.functionHead (utf8 "Branch") 6 ++ Wire.nat b.node ++
      Wire.guard b.guard ++ Wire.int b.priority.toInt64 ++ Wire.real b.weight ++
      Wire.optional Wire.outcome b.outcome ++ Wire.nat b.order.toNat := by
    unfold Wire.branch
    cases b.outcome <;> rfl
  have houtcome : Reads (orNull "Outcome or Null" outcome)
      (Wire.optional Wire.outcome b.outcome) (b.outcome.map Outcome.withoutNegativeZero) :=
    reads_orNull _ .function (by decide) (fun _ => ⟨_, rfl⟩) reads_outcome b.outcome
  rw [hbytes]
  unfold branch
  simp only [List.append_assoc]
  refine (reads_function (by decide)).bind ((reads_nodeIndex hcount hnode).bind ?_)
  refine (reads_guard hlabels).bind ((reads_int _).bind ((reads_real _).bind ?_))
  refine houtcome.bind ((reads_int _).last ?_)
  rw [toUInt32_ofNat, Int32.toInt32_toInt64]
  exact reads_pure _

theorem reads_dominance {count : Nat} (hcount : count < 2 ^ 63) {p : Nat × Nat}
    (hwinner : p.1 < count) (hloser : p.2 < count) :
    Reads (dominance count) (Wire.dominance p) p := by
  unfold dominance Wire.dominance
  simp only [List.append_assoc]
  refine (reads_listHead (by decide)).bind ((reads_nodeIndex hcount hwinner).bind ?_)
  exact (reads_nodeIndex hcount hloser).last (reads_pure _)

/-! ## Steps and guardrails -/

theorem reads_selector {count : Nat} (hcount : count < 2 ^ 63) {s : Selector}
    (hnodes : ∀ b ∈ s.branches, b.node < count)
    (hdominates : ∀ p ∈ s.dominates, p.1 < count ∧ p.2 < count)
    (hlabels : ∀ b ∈ s.branches, b.guard.labels.length ≤ maxTexts) :
    Reads (step count) (Wire.step (.selector s)) (Step.selector s).withoutNegativeZero := by
  unfold step Wire.step
  simp only [List.append_assoc]
  have hpolicy : s.policy ∈ SelectionPolicy.all := by
    cases s.policy <;> decide
  have hbranches : Reads (list (branch count)) (Wire.list Wire.branch s.branches)
      (s.branches.map Branch.withoutNegativeZero) :=
    reads_list (fun _ => List.cons_ne_nil _ _) fun b hb =>
      reads_branch hcount (hnodes b hb) (hlabels b hb)
  have hdominance : Reads (list (dominance count)) (Wire.list Wire.dominance s.dominates)
      s.dominates :=
    reads_list_self (fun _ => List.cons_ne_nil _ _) fun p hp =>
      reads_dominance hcount (hdominates p hp).1 (hdominates p hp).2
  refine Reads.position fun start => (reads_anyFunction (by decide)).bind ?_
  rw [if_neg (by decide), if_neg (by decide), if_pos rfl]
  refine (reads_text _).bind ((reads_enumeration hpolicy (by decide)).bind ?_)
  exact (reads_text _).bind (hbranches.bind (hdominance.last (reads_pure _)))

theorem reads_step {count : Nat} (hcount : count < 2 ^ 63) {s : Step}
    (hnodes : ∀ ch ∈ s.choices, ch.1 < count)
    (hdominates : ∀ p ∈ s.dominance, p.1 < count ∧ p.2 < count)
    (hlabels : ∀ g ∈ s.guards, g.labels.length ≤ maxTexts) :
    Reads (step count) (Wire.step s) s.withoutNegativeZero := by
  cases s with
  | sequential node g =>
    unfold step Wire.step
    simp only [List.append_assoc]
    refine Reads.position fun start => (reads_anyFunction (by decide)).bind ?_
    rw [if_pos rfl]
    refine (reads_nodeIndex hcount (hnodes (node, g) (List.mem_singleton.2 rfl))).bind ?_
    exact (reads_guard (hlabels g (List.mem_singleton.2 rfl))).last (reads_pure _)
  | task node g o =>
    unfold step Wire.step
    simp only [List.append_assoc]
    refine Reads.position fun start => (reads_anyFunction (by decide)).bind ?_
    rw [if_neg (by decide), if_pos rfl]
    refine (reads_nodeIndex hcount (hnodes (node, g) (List.mem_singleton.2 rfl))).bind ?_
    refine (reads_guard (hlabels g (List.mem_singleton.2 rfl))).bind ?_
    exact (reads_outcome o).last (reads_pure _)
  | selector s =>
    refine reads_selector hcount (fun b hb => ?_) hdominates fun b hb => ?_
    · exact hnodes (b.node, b.guard) (List.mem_map_of_mem (f := fun b => (b.node, b.guard)) hb)
    · exact hlabels b.guard (List.mem_map_of_mem (f := fun b => b.guard) hb)

theorem reads_guardrail {g : PlanGuardrail} (h : g.appliesTo.length ≤ maxTexts) :
    Reads guardrail (Wire.guardrail g) g.withoutNegativeZero := by
  unfold guardrail Wire.guardrail
  simp only [List.append_assoc]
  have hmode : g.mode ∈ GuardrailMode.all := by
    cases g.mode <;> decide
  have hfallback : g.fallback ∈ VetoFallback.all := by
    cases g.fallback <;> decide
  refine (reads_function (by decide)).bind ((reads_text _).bind ((reads_text _).bind ?_))
  refine (reads_enumeration hmode (by decide)).bind ((reads_texts h).bind ?_)
  refine (reads_program _).bind ((reads_text _).bind ?_)
  refine (reads_enumeration hfallback (by decide)).bind ((reads_text _).bind ?_)
  exact (reads_value _).bind ((reads_outcome _).last (reads_pure _))

end Reader
end Wire

/-! ## Symbols -/

theorem SymbolTable.foldl_intern {t known : SymbolTable} {names : List Bytes}
    (h : t.names = known.names ++ names) : names.foldl intern known = t := by
  induction names generalizing known with
  | nil =>
    rcases t with ⟨_, _⟩
    rcases known with ⟨_, _⟩
    rw [List.append_nil] at h
    subst h
    rfl
  | cons name names ih =>
    have hnodup := t.nodup
    rw [h] at hnodup
    have hnew : name ∉ known.names := fun hname =>
      (List.nodup_append.1 hnodup).2.2 name hname name (List.mem_cons_self ..) rfl
    refine ih ?_
    rw [intern, dif_neg hnew, h, List.append_assoc]
    rfl

theorem SymbolTable.ofList_names (t : SymbolTable) : ofList t.names = t :=
  foldl_intern (List.nil_append _).symm

/-! ## Blueprints -/

namespace Blueprint

open Wire Wire.Reader

variable {b : Blueprint}

/-- The bytes up to the labels of the catalog. -/
def front (b : Blueprint) : Bytes :=
  Wire.header ++ Wire.functionHead (utf8 "Blueprint") 6
    ++ Wire.associationHead 4
    ++ Wire.entry "GraphId" (Wire.text b.id.graph)
    ++ Wire.entry "Version" (Wire.word b.id.version)
    ++ Wire.entry "Tenant" (Wire.text b.tenant)
    ++ Wire.entry "DecisionType" (Wire.text b.decisionType)
    ++ Wire.texts b.catalog.labels

/-- The bytes behind the labels of the catalog. -/
def back (b : Blueprint) : Bytes :=
  Wire.texts b.symbols.names ++ Wire.list Wire.planNode b.nodes ++ Wire.list Wire.step b.steps
    ++ Wire.list Wire.guardrail b.guardrails

theorem encode_eq (b : Blueprint) : b.encode = b.front ++ b.back := by
  unfold encode front back
  simp only [List.append_assoc]

theorem reads_front (b : Blueprint) :
    Reads readFront b.front (⟨b.id.graph, b.id.version, b.tenant, b.decisionType⟩,
      b.catalog.labels) := by
  have hlabels : b.catalog.labels.length ≤ maxTexts := by
    unfold Catalog.labels
    rw [List.length_map]
    exact Nat.le_trans b.catalog.size_le (by decide)
  have hheader : Reads (associationWith headerEntry ⟨[], 0, [], []⟩)
      (Wire.associationHead 4 ++ Wire.entry "GraphId" (Wire.text b.id.graph) ++
        Wire.entry "Version" (Wire.word b.id.version) ++ Wire.entry "Tenant" (Wire.text b.tenant) ++
        Wire.entry "DecisionType" (Wire.text b.decisionType))
      ⟨b.id.graph, b.id.version, b.tenant, b.decisionType⟩ := by
    unfold associationWith
    rw [← List.append_nil (_ ++ Wire.entry "DecisionType" _)]
    simp only [List.append_assoc]
    refine (reads_associationHead (by decide)).bind ?_
    refine Reads.entry rfl ((reads_text _).last (reads_pure _)) ?_
    refine Reads.entry rfl ((reads_word _).last (reads_pure _)) ?_
    refine Reads.entry rfl ((reads_text _).last (reads_pure _)) ?_
    refine Reads.entry rfl ((reads_text _).last (reads_pure _)) ?_
    exact reads_pure _
  have hsplit : b.front = Wire.header ++ (Wire.functionHead (utf8 "Blueprint") 6 ++
      ((Wire.associationHead 4 ++ Wire.entry "GraphId" (Wire.text b.id.graph) ++
        Wire.entry "Version" (Wire.word b.id.version) ++ Wire.entry "Tenant" (Wire.text b.tenant) ++
        Wire.entry "DecisionType" (Wire.text b.decisionType)) ++
        Wire.texts b.catalog.labels)) := by
    unfold front
    simp only [List.append_assoc]
  rw [hsplit]
  refine reads_header.bind ((reads_function (by decide)).bind (hheader.bind ?_))
  exact (reads_texts hlabels).last (reads_pure _)

/-- A blueprint has fewer nodes than bytes. -/
theorem Storable.nodes_lt (h : b.Storable) : b.nodes.length < 2 ^ 63 := by
  have hshort := h.bytes
  rw [encode_eq, back, List.append_assoc, List.append_assoc] at hshort
  have hlist : Short (Wire.list Wire.planNode b.nodes) := hshort.right.right.left
  exact Nat.lt_of_le_of_lt (length_le_flatMap fun _ => List.cons_ne_nil _ _) hlist.right

theorem readsAll_back (hclosed : b.Closed) (hstorable : b.Storable) (bytes : Bytes) :
    ReadsAll (readBack ⟨b.id.graph, b.id.version, b.tenant, b.decisionType⟩ b.catalog bytes) b.back
      { b.withoutNegativeZero with
        id := { b.id with contentHash := Fnv.hash bytes }
        encoded := bytes } := by
  have hnodes : Reads (list planNode) (Wire.list Wire.planNode b.nodes) b.nodes :=
    reads_list_self (fun _ => List.cons_ne_nil _ _) fun n _ => reads_planNode n
  have hsteps : Reads (list (step b.nodes.length)) (Wire.list Wire.step b.steps)
      (b.steps.map Step.withoutNegativeZero) := by
    refine reads_list (fun s => ?_) fun s hs => ?_
    · cases s <;> exact List.cons_ne_nil _ _
    · exact reads_step hstorable.nodes_lt (hclosed.choices s hs) (hclosed.dominance s hs)
        (hstorable.labels s hs)
  have hguardrails : Reads (list guardrail) (Wire.list Wire.guardrail b.guardrails)
      (b.guardrails.map PlanGuardrail.withoutNegativeZero) :=
    reads_list (fun _ => List.cons_ne_nil _ _) fun g hg => reads_guardrail (hstorable.appliesTo g hg)
  unfold readBack back
  rw [← List.append_nil (_ ++ Wire.list Wire.guardrail _)]
  simp only [List.append_assoc]
  refine (reads_texts hstorable.symbols).bindAll (hnodes.bindAll (hsteps.bindAll ?_))
  refine hguardrails.bindAll (ReadsAll.finish ?_)
  rw [SymbolTable.ofList_names]
  exact readsAll_pure _

/-- Closed blueprints are read back as they were written, but for negative zeros, and with the hash
of their bytes. -/
theorem decode_encode (hclosed : b.Closed) (hstorable : b.Storable) :
    decode b.encode = .ok { b.withoutNegativeZero with
      id := { b.id with contentHash := Fnv.hash b.encode }
      encoded := b.encode } := by
  have hshort := hstorable.bytes
  rw [encode_eq] at hshort
  have hfront := reads_front b hshort.left 0 b.back
  have hback := readsAll_back hclosed hstorable b.encode hshort.right (0 + b.front.length)
  unfold decode Cursor.start
  rw [encode_eq] at hback ⊢
  rw [hfront]
  simp only [Except.mapError, bind, Except.bind, Catalog.ofLabels_labels]
  rw [hback]
  rfl

end Blueprint

/-! ## Compiled blueprints -/

/-- What is compiled carries its bytes and their hash. -/
theorem Revision.Passed.sealed {r : Revision} {o : CompilerOptions} {b : Blueprint}
    (h : r.Passed o b) : b.encoded = b.encode ∧ b.id.contentHash = Fnv.hash b.encode := by
  rw [h.emitted]
  exact ⟨rfl, rfl⟩

/-- The numbers of nodes in a compiled blueprint are numbers of its nodes. -/
theorem Revision.Passed.closed {r : Revision} {o : CompilerOptions} {b : Blueprint}
    (h : r.Passed o b) : b.Closed := by
  have hlength : (r.context o).table.length = b.nodes.length := by
    rw [← h.nodes, List.length_map]
  have hnumber : ∀ d ∈ r.contests o, ∀ id, d.Has id → (r.context o).number id < b.nodes.length := by
    rintro d hd _ ⟨n, hn, rfl⟩
    have hmem : n.id ∈ (r.context o).table :=
      List.mem_map_of_mem (List.mem_flatMap.2 ⟨d, hd, hn⟩)
    rw [← hlength]
    exact List.idxOf_lt_length_of_mem hmem
  refine ⟨fun step hstep ch hch => ?_, fun step hstep p hp => ?_⟩
  · obtain ⟨d, hd, hplans⟩ := forall₂_of_mem_left h.plans.1.flip hstep
    obtain ⟨n, hn, hnode, -⟩ := forall₂_of_mem_left hplans.decides.choices.flip hch
    rw [hnode]
    exact hnumber d hd n.id ⟨n, hn, rfl⟩
  · obtain ⟨d, hd, hplans⟩ := forall₂_of_mem_left h.plans.1.flip hstep
    obtain ⟨-, q, hq, rfl⟩ := (hplans.decides.dominance p).1 hp
    obtain ⟨hwinner, hloser, -⟩ := (h.arranges.dominates d hd q.1 q.2).1 hq
    exact ⟨hnumber d hd q.1 hwinner, hnumber d hd q.2 hloser⟩

/-- **Blueprints are read back.**  The bytes of a blueprint that can be held in memory, and whose
numbers of nodes are numbers of its nodes, are read as the blueprint with positive zeros in the
place of negative ones; the hash of the bytes becomes part of its id, and written again it has the
same bytes.  Compiled blueprints are of this kind, and are read back with their own ids. -/
theorem Blueprint.round_trip (b : Blueprint) (hstorable : b.Storable) :
    (b.Closed → ∃ d, decode b.encode = .ok d ∧ d.encode = b.encode ∧
      d = { b.withoutNegativeZero with
        id := ⟨b.id.graph, b.id.version, Fnv.hash b.encode⟩
        encoded := b.encode }) ∧
    ∀ (r : Revision) (o : CompilerOptions), (r.compile o).blueprint = some b →
      b.Closed ∧ b.encoded = b.encode ∧
        ∃ d, decode b.encode = .ok d ∧ d = b.withoutNegativeZero ∧ d.id = b.id := by
  refine ⟨fun hclosed => ⟨_, decode_encode hclosed hstorable, ?_, rfl⟩, fun r o hb => ?_⟩
  · exact b.encode_withoutNegativeZero
  · have hpassed := Revision.passed_of_compile hb
    obtain ⟨hencoded, hhash⟩ := hpassed.sealed
    refine ⟨hpassed.closed, hencoded, _, ?_, rfl, rfl⟩
    rw [decode_encode hpassed.closed hstorable, ← hhash, ← hencoded]
    rfl

/-- The offers of the sample, of which each weighs negative zero. -/
def Revision.weightless : Revision :=
  { Revision.sample with
    nodes := Revision.sample.nodes.map fun n => { n with weight := .negativeZero } }

/-- Whether a plan is short and has few texts, and has a negative zero. -/
def Blueprint.isSmallWithZero (b : Blueprint) : Bool :=
  decide (Wire.Reader.Short b.encode ∧ b.symbols.names.length ≤ 9 ∧
    (∀ step ∈ b.steps, ∀ g ∈ step.guards, g.labels.length ≤ 9) ∧
    (∀ g ∈ b.guardrails, g.appliesTo.length ≤ 9) ∧
    ∃ step ∈ b.steps, step.withoutNegativeZero ≠ step)

set_option maxRecDepth 100000 in
theorem Blueprint.round_trip_weightless :
    ∃ b d, (Revision.weightless.compile .standard).blueprint = some b ∧ b.Storable ∧ b.Closed ∧
      decode b.encode = .ok d ∧ d.id = b.id ∧ d.encode = b.encode ∧ d.steps ≠ b.steps := by
  have hb := Revision.compile_of_accepted rfl
    (by cbv : Revision.weightless.accepted .standard = true)
  have hdecided : (Revision.weightless.planned .standard).isSmallWithZero = true :=
    Revision.planned_of_draft (P := fun b => b.isSmallWithZero = true) fun _ _ => by cbv
  generalize Revision.weightless.planned .standard = b at hb hdecided
  obtain ⟨hbytes, hsymbols, hlabels, happlies, hzero⟩ := of_decide_eq_true hdecided
  have hsmall : 9 ≤ Wire.Reader.maxTexts := by decide
  have hstorable : b.Storable :=
    ⟨hbytes, Nat.le_trans hsymbols hsmall,
      fun step hstep g hg => Nat.le_trans (hlabels step hstep g hg) hsmall,
      fun g hg => Nat.le_trans (happlies g hg) hsmall⟩
  obtain ⟨hclosed, -, d, hdecode, rfl, hid⟩ := (Blueprint.round_trip b hstorable).2 _ _ hb
  refine ⟨b, _, hb, hstorable, hclosed, hdecode, hid, b.encode_withoutNegativeZero, fun hsame => ?_⟩
  obtain ⟨step, hstep, hne⟩ := hzero
  exact hne (List.map_inj_left.1 (hsame.trans (List.map_id _).symm) step hstep)

end DecisionEngine
