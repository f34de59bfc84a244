import DecisionEngine.Proofs.Program.Conjunction
/-!
# What a guard program asks about nodes

The instructions of an assembled program that ask whether a node has fired are those that its
conjuncts ask for, in their order.  Expressions and labels write no such instruction, and a jump
that gets its target stays a jump.

* `Conjunct.tests` — the instructions by which a conjunct asks about nodes.
* `Assembly.Asks` — an assembly grows by a block that asks about nodes in a certain way.
* `Assembly.tests_finish` — a finished program asks what its conjuncts ask.
-/

namespace DecisionEngine

/-- Whether an instruction asks if a node has fired, or if it has not. -/
def Instruction.isTest (ins : Instruction) : Bool := ins.op == .fired || ins.op == .notFired

/-- The instructions by which a conjunct asks about nodes. -/
def Conjunct.tests : Conjunct → List Instruction
  | .fired node => [⟨.fired, node, 0⟩]
  | .notFired node => [⟨.notFired, node, 0⟩]
  | .anyFired nodes => nodes.map fun node => ⟨.fired, node, 0⟩
  | _ => []

namespace Assembly

variable {s t s' : Assembly} {block more : List Instruction}

/-! ## Blocks -/

/-- One assembly becomes another by a block that asks about nodes by the given instructions. -/
def Asks (s s' : Assembly) (tests : List Instruction) : Prop :=
  ∃ block, Adds s s' block ∧ block.filter Instruction.isTest = tests

theorem Asks.trans (h : Asks s t block) (h' : Asks t s' more) : Asks s s' (block ++ more) := by
  obtain ⟨b, hb, rfl⟩ := h
  obtain ⟨b', hb', rfl⟩ := h'
  exact ⟨b ++ b', hb.trans hb', List.filter_append ..⟩

/-- What asks nothing behind something that asks nothing. -/
theorem Asks.silent (h : Asks s t []) (h' : Asks t s' []) : Asks s s' [] := h.trans h'

theorem Adds.asks (h : Adds s s' block) : Asks s s' (block.filter Instruction.isTest) :=
  ⟨block, h, rfl⟩

theorem asks_emit {op : Opcode} {a b : UInt32} {u : Unit} (h : Emits (emit op a b) s u s') :
    Asks s s' (if op = .fired ∨ op = .notFired then [⟨op, a, b⟩] else []) := by
  refine ⟨_, adds_emit h, ?_⟩
  simp [List.filter_cons, Instruction.isTest]

/-! ## Expressions -/

theorem asks_load {r : Reference} (h : Emits (load r) s () s') : Asks s s' [] := by
  obtain ⟨n, t, u, hn, he, hp⟩ := emits_load h
  have hload : Asks t u [] := by
    revert he
    cases r.scope <;> exact asks_emit
  exact ((adds_symbol hn).asks.silent hload).silent (adds_pushed hp).asks

/-- Expressions ask nothing about nodes. -/
theorem asks_expression {x : Expr} (h : Emits (expression x) s () s') : Asks s s' [] := by
  replace h := transcribed_of_emits h
  induction h with
  | literal hi he hp =>
    exact ((adds_constant hi).asks.silent (asks_emit he)).silent (adds_pushed hp).asks
  | reference hload => exact asks_load hload
  | present hload he => exact (asks_load hload).silent (asks_emit he)
  | not _ he ih => exact ih.silent (asks_emit he)
  | neg _ he ih => exact ih.silent (asks_emit he)
  | @strict _ op _ _ _ _ _ t' t'' _ hop _ _ he hp ihl ihr =>
    have hcode : Asks t' t'' [] := by
      cases op <;> cases hop <;> exact asks_emit he
    exact ((ihl.silent ihr).silent hcode).silent (adds_popped hp).asks
  | deciding hdecides _ hj hp _ hc hland ihl ihr =>
    obtain ⟨right, hadds, hright⟩ := ihr
    -- The jump over the right operand gets its target when the operand is there.
    have hlanded := Adds.landHere
      ((((adds_emit hj).trans (adds_popped hp)).trans hadds).trans (adds_emit hc)) hland
    refine ihl.silent ⟨_, hlanded, ?_⟩
    cases hdecides <;> simp [List.filter_append, hright, Instruction.isTest]

/-! ## Conjuncts -/

theorem filter_orBlock (target : UInt32) (nodes : List UInt32) :
    (orBlock target nodes).filter Instruction.isTest =
      nodes.map fun node => ⟨.fired, node, 0⟩ := by
  induction nodes with
  | nil => rfl
  | cons node rest ih =>
    have hblock : orBlock target (node :: rest) =
        ⟨.jumpIfTrue, target, 0⟩ :: ⟨.fired, node, 0⟩ :: orBlock target rest := rfl
    rw [hblock, List.filter_cons_of_neg (by simp [Instruction.isTest]),
      List.filter_cons_of_pos (by rfl), ih]
    rfl

theorem asks_body {c : Conjunct} {u : Unit} (h : Emits c.body s u s') : Asks s s' c.tests := by
  cases c with
  | categorical q =>
    obtain ⟨key, t, hkey, ⟨-, t', he, hp⟩ | ⟨text, -, i, t', t'', hi, he, hp⟩⟩ :=
      emits_categorical h
    · exact ((adds_symbol hkey).asks.silent (asks_emit he)).silent (adds_pushed hp).asks
    · exact (((adds_symbol hkey).asks.silent (adds_constant hi).asks).silent
        (asks_emit he)).silent (adds_pushed hp).asks
  | expression x => exact asks_expression h
  | fired node =>
    obtain ⟨_, t, he, hp⟩ := emits_bind.1 h
    exact (asks_emit he).trans (adds_pushed hp).asks
  | notFired node =>
    obtain ⟨_, t, he, hp⟩ := emits_bind.1 h
    exact (asks_emit he).trans (adds_pushed hp).asks
  | anyFired nodes =>
    cases nodes with
    | nil => exact absurd h not_emits_throw
    | cons node rest =>
      refine ⟨_, (adds_anyFired h).1, ?_⟩
      rw [List.filter_cons_of_pos (by rfl), filter_orBlock]
      rfl

/-- Starting a conjunct asks nothing about nodes, wherever false conjuncts jump to. -/
theorem asks_beginConjunct {u : Unit} (h : Emits beginConjunct s u t) (hexits : ExitsInside s) :
    ExitsInside t ∧ t.conjuncts = s.conjuncts + 1 ∧
      ∀ target, (patched target t).filter Instruction.isTest =
        (patched target s).filter Instruction.isTest := by
  rcases Nat.eq_zero_or_pos s.conjuncts with hfirst | hnext
  · rw [emits_beginConjunct_first h hfirst]
    exact ⟨hexits, rfl, fun _ => rfl⟩
  · have ht := emits_beginConjunct_next h hnext
    refine ⟨exitsInside_next hexits (by rw [ht]) (by rw [ht]), by rw [ht], fun target => ?_⟩
    rw [patched_next hexits (by rw [ht]) (by rw [ht]), List.filter_append]
    exact List.append_nil _

theorem asks_conjunct {c : Conjunct} {u : Unit} (h : Emits c.emit s u s')
    (hexits : ExitsInside s) : ExitsInside s' ∧ s'.conjuncts = s.conjuncts + 1 ∧
      ∀ target, (patched target s').filter Instruction.isTest =
        (patched target s).filter Instruction.isTest ++ c.tests := by
  obtain ⟨t, hbegin, hbody⟩ := emits_conjunct h
  obtain ⟨hinside, hcount, hsame⟩ := asks_beginConjunct hbegin hexits
  obtain ⟨block, hadds, htests⟩ := asks_body hbody
  refine ⟨hadds.exitsInside hinside, hadds.conjuncts.trans hcount, fun target => ?_⟩
  unfold patched
  rw [hadds.exits, hadds.code, foldl_patch_append hinside, List.filter_append, htests]
  exact congrArg (· ++ c.tests) (hsame target)

/-- A chain of conjuncts asks what its conjuncts ask, one after another. -/
theorem asks_conjuncts {cs : List Conjunct} {u : Unit} (h : Emits (cs.forM Conjunct.emit) s u s')
    (hexits : ExitsInside s) : ExitsInside s' ∧ s'.conjuncts = s.conjuncts + cs.length ∧
      ∀ target, (patched target s').filter Instruction.isTest =
        (patched target s).filter Instruction.isTest ++ cs.flatMap Conjunct.tests := by
  induction cs generalizing s with
  | nil =>
    obtain ⟨-, rfl⟩ := emits_pure.1 h
    exact ⟨hexits, rfl, fun _ => (List.append_nil _).symm⟩
  | cons c cs ih =>
    obtain ⟨_, t, hc, hrest⟩ := emits_bind.1 h
    obtain ⟨hinside, hcount, hfirst⟩ := asks_conjunct hc hexits
    obtain ⟨hinside', hcount', hmore⟩ := ih hrest hinside
    refine ⟨hinside', by rw [hcount', hcount, List.length_cons]; omega, fun target => ?_⟩
    rw [hmore, hfirst, List.append_assoc, List.flatMap_cons]

/-- A finished program asks about nodes what its conjuncts ask, in their order. -/
theorem tests_finish {cs : List Conjunct} {symbols : SymbolTable} {outcome : Bool} {u : Unit}
    (h : Emits (cs.forM Conjunct.emit) (.start symbols outcome) u s) :
    s.finish.1.code.filter Instruction.isTest = cs.flatMap Conjunct.tests := by
  obtain ⟨hinside, hcount, htests⟩ := asks_conjuncts h fun _ hj => absurd hj List.not_mem_nil
  cases cs with
  | nil =>
    obtain ⟨-, rfl⟩ := emits_pure.1 h
    rfl
  | cons c cs =>
    have hne : s.conjuncts ≠ 0 := by
      rw [hcount, List.length_cons]
      omega
    rw [finish_eq hne hinside, List.filter_append, htests]
    exact List.append_nil _

end Assembly
end DecisionEngine
