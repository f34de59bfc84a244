import DecisionEngine.Proofs.Program.Emission

/-!
# Running pieces of a program

A run is followed by its answer, which is the truth value or the cause of the fault.  A piece of
code that leaves one value has a meaning of its own: wherever it stands in a program, the answer
from its first instruction on is that of its value, pushed on the stack, from its end on.

* `Program.answerFrom_step` — one instruction.
* `Assembly.Writes` — an emitter wrote a block that computes a value.
* `Assembly.writes_expression` — the block of an expression computes the value of the expression,
  by induction on the expression.
-/

namespace DecisionEngine

/-! ## Answers -/

namespace Program

variable {p : Program} {env : Env} {pc : Nat} {stack : List Value}

/-- The answer from an instruction on: a truth value or the cause of a fault. -/
def answerFrom (p : Program) (env : Env) (pc : Nat) (stack : List Value) :
    Except FaultCause Bool := (p.runFrom env pc stack).mapError (·.cause)

/-- The answer behind an instruction. -/
def follow (p : Program) (env : Env) (pc : Nat) : Next → Except FaultCause Bool
  | .done b => .ok b
  | .proceed stack => p.answerFrom env (pc + 1) stack
  | .jump target stack =>
    if pc < target ∧ target ≤ p.code.length then p.answerFrom env target stack
    else .error .jumpTarget

/-- The answer is that of the instruction, and then of what comes behind it. -/
theorem answerFrom_step {ins : Instruction} (h : p.code[pc]? = some ins) :
    p.answerFrom env pc stack = p.step env ins stack >>= p.follow env pc := by
  rw [answerFrom, runFrom]
  split
  · rename_i hnone
    rw [h] at hnone
    cases hnone
  · rename_i ins' hins
    obtain rfl : ins = ins' := Option.some.inj (h.symm.trans hins)
    cases hstep : p.step env ins stack with
    | error cause => rfl
    | ok next =>
      cases next with
      | done b => rfl
      | proceed stack' => rfl
      | jump target stack' =>
        show _ = p.follow env pc (.jump target stack')
        simp only [follow]
        split <;> rfl

/-- A jump forward is taken with the value that is asked for, which stays; any other truth value is
dropped. -/
theorem answerFrom_jumpIf {op : Opcode} {taken : Bool} {target : Nat}
    (h : p.code[pc]? = some ⟨op, UInt32.ofNat target, 0⟩)
    (hop : ∀ stack, p.step env ⟨op, UInt32.ofNat target, 0⟩ stack =
      jumpIf taken (UInt32.ofNat target) stack)
    (hforward : pc < target ∧ target ≤ p.code.length) (hsize : p.code.length < 2 ^ 32) (v : Value) :
    p.answerFrom env pc (v :: stack) = (do
      if (← Operation.toBool v) = taken then p.answerFrom env target (v :: stack)
      else p.answerFrom env (pc + 1) stack) := by
  have htarget : (UInt32.ofNat target).toNat = target := by
    rw [UInt32.toNat_ofNat', Nat.mod_eq_of_lt (by omega)]
  rw [answerFrom_step h, hop]
  simp only [jumpIf, topBool, htarget]
  cases Operation.toBool v with
  | error f => rfl
  | ok b =>
    simp only [Bind.bind, Except.bind]
    by_cases hb : b = taken
    · rw [if_pos hb, if_pos hb]
      simp only [pure, Except.pure, follow, if_pos hforward]
    · rw [if_neg hb, if_neg hb]
      rfl

/-- A block of instructions stands in a code at a place. -/
def CodeAt (code : List Instruction) (pc : Nat) (block : List Instruction) : Prop :=
  ∃ before after, code = before ++ block ++ after ∧ before.length = pc

namespace CodeAt

variable {code block more : List Instruction} {ins : Instruction}

theorem left (h : CodeAt code pc (block ++ more)) : CodeAt code pc block := by
  obtain ⟨before, after, rfl, hpc⟩ := h
  exact ⟨before, more ++ after, by simp, hpc⟩

theorem right (h : CodeAt code pc (block ++ more)) : CodeAt code (pc + block.length) more := by
  obtain ⟨before, after, rfl, hpc⟩ := h
  exact ⟨before ++ block, after, by simp, by simp [hpc]⟩

theorem head (h : CodeAt code pc (ins :: block)) : code[pc]? = some ins := by
  obtain ⟨before, after, rfl, rfl⟩ := h
  simp

theorem tail (h : CodeAt code pc (ins :: block)) : CodeAt code (pc + 1) block := by
  have h' : CodeAt code pc ([ins] ++ block) := h
  exact h'.right

end CodeAt

/-! ## Bound names -/

/-- The slot of a name that was bound holds the value of the name. -/
theorem slot_bind {names : List Bytes} {a : AttributeSet} {n : UInt32} {name : Bytes}
    (h : names[n.toNat]? = some name) :
    slot (bind names a) n = (a.find? name).getD .null := by
  simp [slot, bind, List.getElem?_map, h]

theorem outcomeValue_env {names : List Bytes} {e : Evidence} {n : UInt32} {name : Bytes}
    (h : names[n.toNat]? = some name) :
    (e.env names).outcomeValue n = (e.outcome.find? name).getD .null := by
  simp [Env.outcomeValue, Evidence.env, h]

theorem nodeFired_env {names : List Bytes} {e : Evidence} {n : UInt32} :
    (e.env names).nodeFired n = e.nodeFired n := rfl

end Program

namespace Assembly

open Program (CodeAt FaultCause)

/-! ## Blocks that compute a value -/

/-- One assembly becomes another by a block that computes a value and leaves it on the stack. -/
structure Writes (s s' : Assembly) (block : List Instruction)
    (meaning : Evidence → Except FaultCause Value) : Prop where
  adds : Adds s s' block
  sound : Sound s'
  runs : ∀ (p : Program) (names : List Bytes) (e : Evidence), Linked p names s' →
    CodeAt p.code s.code.length block → ∀ stack,
      p.answerFrom (e.env names) s.code.length stack =
        meaning e >>= fun v => p.answerFrom (e.env names) s'.code.length (v :: stack)

variable {s s' t : Assembly}

theorem adds_emit {op : Opcode} {a b : UInt32} {u : Unit} (h : Emits (emit op a b) s u s') :
    Adds s s' [⟨op, a, b⟩] := by
  obtain rfl := emits_emit.1 h
  exact ⟨rfl, List.prefix_rfl, List.prefix_rfl, rfl, rfl, rfl⟩

theorem adds_pushed {u : Unit} (h : Emits pushed s u s') : Adds s s' [] := by
  obtain rfl := emits_modify.1 h
  exact ⟨by simp, List.prefix_rfl, List.prefix_rfl, rfl, rfl, rfl⟩

theorem adds_popped {u : Unit} (h : Emits popped s u s') : Adds s s' [] := by
  obtain rfl := emits_modify.1 h
  exact ⟨by simp, List.prefix_rfl, List.prefix_rfl, rfl, rfl, rfl⟩

theorem adds_symbol {name : Bytes} {n : UInt32} (h : Emits (symbol name) s n s') :
    Adds s s' [] := by
  obtain ⟨-, rfl⟩ := emits_symbol.1 h
  exact ⟨by simp, List.prefix_rfl, prefix_intern _ _, rfl, rfl, rfl⟩

theorem symbol_linked {name : Bytes} {n : UInt32} (h : Emits (symbol name) s n s')
    {p : Program} {names : List Bytes} (hl : Linked p names s') :
    names[n.toNat]? = some name := by
  obtain ⟨rfl, rfl⟩ := emits_symbol.1 h
  exact getElem?_index (mem_intern _ _) hl.symbols hl.names_le

/-- What changes nothing but the code keeps an assembly sound. -/
theorem Sound.of_code {block : List Instruction} (hs : Sound s)
    (h : s'.code = s.code ++ block) (hc : s'.constants = s.constants) : Sound s' := by
  refine ⟨?_, by rw [hc]; exact hs.plain⟩
  have := hs.constants_le
  rw [hc, h, List.length_append]
  omega

/-- A single instruction that pushes a value. -/
theorem Writes.push {op : Opcode} {a b : UInt32} {t t' : Assembly} {u u' : Unit}
    {m : Evidence → Except FaultCause Value} (ha : Adds s t []) (he : Emits (emit op a b) t u t')
    (hp : Emits pushed t' u' s') (hplain : ∀ c ∈ t.constants, c ≠ .real .negativeZero)
    (hlen : t.constants.length ≤ s.code.length + 1)
    (hstep : ∀ (p : Program) names (e : Evidence), Linked p names s' →
      t.constants.length < 2 ^ 32 → ∀ stack,
        p.step (e.env names) ⟨op, a, b⟩ stack = (m e).map fun v => .proceed (v :: stack)) :
    Writes s s' [⟨op, a, b⟩] m := by
  have hadds : Adds s s' [⟨op, a, b⟩] := by
    simpa using (ha.trans (adds_emit he)).trans (adds_pushed hp)
  have hconst : s'.constants = t.constants := by
    rw [emits_modify.1 hp, emits_emit.1 he]
  refine ⟨hadds, ⟨by rw [hconst, hadds.length]; exact hlen, by rw [hconst]; exact hplain⟩, ?_⟩
  intro p names e hlink hc stack
  have hlt : t.constants.length < 2 ^ 32 := by
    have hlength := hadds.length
    have hle := hlink.code_le
    have hsize := hlink.code_lt
    rw [List.length_singleton] at hlength
    omega
  rw [Program.answerFrom_step hc.head, hstep p names e hlink hlt, hadds.length]
  cases m e <;> rfl

theorem writes_literal {v : Value} {i : UInt32} {t t' : Assembly} (hi : Emits (constant v) s i t)
    (he : Emits (emit .pushConst i 0) t () t') (hp : Emits pushed t' () s') (hs : Sound s)
    (hv : v ≠ .real .negativeZero) :
    ∃ block, Writes s s' block fun _ => .ok v := by
  obtain ⟨ha, hplain, hlen, hfind⟩ := emits_constant hi hs hv
  refine ⟨_, Writes.push ha he hp hplain hlen fun p names e hlink hlt stack => ?_⟩
  have hconst : s'.constants = t.constants := by
    rw [emits_modify.1 hp, emits_emit.1 he]
  have hget : p.constants[i.toNat]? = some v := by
    refine hfind _ ?_ hlt
    rw [← hconst]
    exact hlink.constants
  simp [Program.step, Program.constant, hget, bind, Except.bind, pure, Except.pure, Except.map]

theorem writes_load {r : Reference} (h : Emits (load r) s () s') (hs : Sound s) :
    ∃ block, Writes s s' block fun e => .ok (e.lookup r) := by
  obtain ⟨n, t, u, hn, he, hp⟩ := emits_load h
  obtain ⟨-, rfl⟩ := emits_symbol.1 hn
  refine ⟨_, Writes.push (adds_symbol hn) he hp hs.plain ?_ fun p names e hlink _ stack => ?_⟩
  · exact Nat.le_succ_of_le hs.constants_le
  · have hlink' := (hlink.mono (adds_pushed hp)).mono (adds_emit he)
    have hname := symbol_linked hn hlink'
    cases hscope : r.scope with
    | context =>
      simp [loadOpcode, Program.step, Evidence.env, Program.slot_bind hname, Evidence.lookup,
        Evidence.attributes, hscope, Except.map]
    | input =>
      simp [loadOpcode, Program.step, Evidence.env, Program.slot_bind hname, Evidence.lookup,
        Evidence.attributes, hscope, Except.map]
    | outcome =>
      simp [loadOpcode, Program.step, Program.outcomeValue_env hname, Evidence.lookup,
        Evidence.attributes, hscope, Except.map]

/-- A block that computes a value, and an instruction that changes the value on top. -/
theorem Writes.onTop {op : Opcode} {block : List Instruction} {u : Unit}
    {meaning : Evidence → Except FaultCause Value} {f : Value → Except FaultCause Value}
    (h : Writes s t block meaning) (he : Emits (emit op 0 0) t u s')
    (hf : ∀ (p : Program) env stack, p.step env ⟨op, 0, 0⟩ stack = Program.onTop f stack) :
    Writes s s' (block ++ [⟨op, 0, 0⟩]) fun e => meaning e >>= f := by
  have ha := adds_emit he
  have hcode : s'.code.length = t.code.length + 1 := ha.length
  refine ⟨h.adds.trans ha, h.sound.of_code ha.code (by rw [emits_emit.1 he]), ?_⟩
  intro p names e hl hc stack
  have hat : p.code[t.code.length]? = some ⟨op, 0, 0⟩ := by
    rw [h.adds.length]
    exact hc.right.head
  rw [h.runs p names e (hl.mono ha) hc.left stack]
  cases hm : meaning e with
  | error f => rfl
  | ok v =>
    simp only [bind, Except.bind]
    rw [Program.answerFrom_step hat, hf, hcode]
    simp only [Program.onTop, bind, Except.bind, pure, Except.pure]
    cases f v <;> rfl

/-- Two blocks that compute values, and an instruction that takes both. -/
theorem Writes.onTopTwo {op : Opcode} {left right : List Instruction} {t' t'' : Assembly}
    {u u' : Unit}
    {l r : Evidence → Except FaultCause Value} {f : Value → Value → Except FaultCause Value}
    (hl : Writes s t left l) (hr : Writes t t' right r) (he : Emits (emit op 0 0) t' u s')
    (hp : Emits popped s' u' t'')
    (hf : ∀ (p : Program) env stack, p.step env ⟨op, 0, 0⟩ stack = Program.onTopTwo f stack) :
    Writes s t'' (left ++ (right ++ [⟨op, 0, 0⟩])) fun e => (do f (← l e) (← r e)) := by
  have ha := adds_emit he
  have hb := adds_popped hp
  have hadds : Adds t t'' (right ++ [⟨op, 0, 0⟩]) := by
    simpa using (hr.adds.trans ha).trans hb
  have hcode : t''.code.length = t'.code.length + 1 := by
    rw [hb.length, ha.length]
    rfl
  refine ⟨hl.adds.trans hadds, ?_, ?_⟩
  · have hcode : t''.code = t'.code ++ [⟨op, 0, 0⟩] := by
      rw [hb.code, ha.code, List.append_nil]
    exact hr.sound.of_code hcode (by rw [emits_modify.1 hp, emits_emit.1 he])
  intro p names e hlink hc stack
  have hright := hc.right
  rw [← hl.adds.length] at hright
  have hat : p.code[t'.code.length]? = some ⟨op, 0, 0⟩ := by
    rw [hr.adds.length]
    exact hright.right.head
  rw [hl.runs p names e (hlink.mono hadds) hc.left stack]
  cases hm : l e with
  | error f => rfl
  | ok a =>
    simp only [bind, Except.bind]
    rw [hr.runs p names e ((hlink.mono hb).mono ha) hright.left (a :: stack)]
    cases hm' : r e with
    | error f => rfl
    | ok b =>
      simp only [bind, Except.bind]
      rw [Program.answerFrom_step hat, hf, hcode]
      simp only [Program.onTopTwo, bind, Except.bind, pure, Except.pure]
      cases f a b <;> rfl

/-- How the sides of an operator stand in the code of a program when the left one may decide: behind
the left block a jump leads forward to the end, and behind the right block its value is checked. -/
structure SidesAt (code : List Instruction) (s t t₂ t₃ t₄ : Assembly) (op : Opcode)
    (left right : List Instruction) : Prop where
  left : CodeAt code s.code.length left
  jump : code[t.code.length]? = some ⟨op, UInt32.ofNat t₄.code.length, 0⟩
  forward : t.code.length < t₄.code.length
  right : CodeAt code t₂.code.length right
  check : code[t₃.code.length]? = some ⟨.checkBool, 0, 0⟩

/-- Where the sides stand follows from what was added for them. -/
theorem sidesAt_of_adds {code left right : List Instruction} {op : Opcode} {t₂ t₃ t₄ : Assembly}
    {ins : Instruction} (hl : Adds s t left) (hj : Adds t t₂ [ins]) (hr : Adds t₂ t₃ right)
    (hc : Adds t₃ t₄ [⟨.checkBool, 0, 0⟩])
    (hat : CodeAt code s.code.length
      (left ++ (⟨op, UInt32.ofNat t₄.code.length, 0⟩ :: (right ++ [⟨.checkBool, 0, 0⟩])))) :
    SidesAt code s t t₂ t₃ t₄ op left right := by
  have hlen₂ : t₂.code.length = t.code.length + 1 := hj.length
  have hlen₄ : t₄.code.length = t₃.code.length + 1 := hc.length
  have hright := hat.right
  rw [← hl.length] at hright
  refine ⟨hat.left, hright.head, ?_, by rw [hlen₂]; exact hright.tail.left, ?_⟩
  · rw [hlen₄, hr.length, hlen₂]
    omega
  · rw [hr.length, hlen₂]
    exact hright.tail.right.head

/-- Two blocks of which the second is jumped over where the first decides. -/
theorem Writes.shortCircuit {decides : Bool} {op : Opcode} {left right : List Instruction}
    {t₁ t₂ t₃ t₄ : Assembly} {u u' v w : Unit} {l r : Evidence → Except FaultCause Value}
    (hl : Writes s t left l) (hj : Emits (emit op 0 0) t u t₁) (hp : Emits popped t₁ u' t₂)
    (hr : Writes t₂ t₃ right r) (hc : Emits (emit .checkBool 0 0) t₃ v t₄)
    (hland : Emits (landHere t.code.length) t₄ w s')
    (hop : ∀ (p : Program) env target stack,
      p.step env ⟨op, target, 0⟩ stack = Program.jumpIf decides target stack) :
    Writes s s' (left ++ (⟨op, UInt32.ofNat s'.code.length, 0⟩ :: (right ++ [⟨.checkBool, 0, 0⟩])))
      fun e => (do
        if (← Operation.toBool (← l e)) = decides then return .bool decides
        else return .bool (← Operation.toBool (← r e))) := by
  have hj' := (adds_emit hj).trans (adds_popped hp)
  have hc' := adds_emit hc
  have hadds := Adds.landHere ((hj'.trans hr.adds).trans hc') hland
  obtain rfl := emits_landHere.1 hland
  have hlen₂ : t₂.code.length = t.code.length + 1 := hj'.length
  have hlen₄ : t₄.code.length = t₃.code.length + 1 := hc'.length
  have hsound := hr.sound.of_code hc'.code (by rw [emits_emit.1 hc])
  refine ⟨by simpa using hl.adds.trans hadds, ⟨by simpa using hsound.constants_le, hsound.plain⟩, ?_⟩
  intro p names e hlink hat stack
  simp only [patch_length] at hat ⊢
  have hsides := sidesAt_of_adds hl.adds hj' hr.adds hc' hat
  have hle : t₄.code.length ≤ p.code.length := by
    simpa using hlink.code_le
  have hlink₃ : Linked p names t₃ := by
    have h : Linked p names t₄ :=
      ⟨hlink.constants, hlink.symbols, hlink.names_le, hle, hlink.code_lt⟩
    exact h.mono hc'
  rw [hl.runs p names e (hlink.mono hadds) hsides.left stack]
  cases hm : l e with
  | error f => rfl
  | ok a =>
    simp only [bind, Except.bind]
    rw [Program.answerFrom_jumpIf hsides.jump (hop p _ _) ⟨hsides.forward, hle⟩ hlink.code_lt]
    cases hb : Operation.toBool a with
    | error f => rfl
    | ok b =>
      obtain rfl : a = .bool b := by
        cases a <;> simp [Operation.toBool] at hb
        rw [hb]
      simp only [bind, Except.bind]
      by_cases hd : b = decides
      · -- the jump is taken and the value of the first block stays
        rw [if_pos hd, if_pos hd, hd]
        rfl
      · rw [if_neg hd, if_neg hd, ← hlen₂, hr.runs p names e hlink₃ hsides.right stack]
        cases hm' : r e with
        | error f => rfl
        | ok c =>
          simp only [bind, Except.bind]
          rw [Program.answerFrom_step hsides.check]
          cases c <;>
            simp [Program.step, Program.topBool, Operation.toBool, bind, Except.bind, pure,
              Except.pure, Program.follow, hlen₄]

/-! ## Expressions -/

theorem strictOpcode?_some {op : BinaryOp} {code : Opcode} (h : strictOpcode? op = some code) :
    op.decidedBy? = none ∧ ∀ (p : Program) env stack,
      p.step env ⟨code, 0, 0⟩ stack = Program.onTopTwo op.apply stack := by
  cases op <;> cases h <;> exact ⟨rfl, fun _ _ _ => rfl⟩

/-- The block of an expression computes the value of the expression. -/
theorem writes_expression {x : Expr} {s s' : Assembly} (h : Emits (expression x) s () s')
    (hs : Sound s) (hx : x.hasNegativeZero = false) :
    ∃ block, Writes s s' block fun e => x.value e := by
  replace h := transcribed_of_emits h
  induction h with
  | literal hi he hp =>
    refine writes_literal hi he hp hs fun hv => ?_
    simp [Expr.hasNegativeZero, hv] at hx
  | reference hload => exact writes_load hload hs
  | present hload he =>
    obtain ⟨block, hw⟩ := writes_load hload hs
    exact ⟨_, hw.onTop he fun _ _ _ => rfl⟩
  | not _ he ih =>
    obtain ⟨block, hw⟩ := ih hs hx
    exact ⟨_, hw.onTop he fun _ _ _ => rfl⟩
  | neg _ he ih =>
    obtain ⟨block, hw⟩ := ih hs hx
    exact ⟨_, hw.onTop he fun _ _ _ => rfl⟩
  | strict hop _ _ he hp ihl ihr =>
    simp only [Expr.hasNegativeZero, Bool.or_eq_false_iff] at hx
    obtain ⟨left, hwl⟩ := ihl hs hx.1
    obtain ⟨right, hwr⟩ := ihr hwl.sound hx.2
    obtain ⟨hstrict, hstep⟩ := strictOpcode?_some hop
    have hw := hwl.onTopTwo hwr he hp hstep
    exact ⟨_, by simpa only [Expr.value, hstrict] using hw⟩
  | deciding hdecides _ hj hp _ hc hland ihl ihr =>
    simp only [Expr.hasNegativeZero, Bool.or_eq_false_iff] at hx
    obtain ⟨left, hwl⟩ := ihl hs hx.1
    have hs₂ := hwl.sound.of_code ((adds_emit hj).trans (adds_popped hp)).code
      (by rw [emits_modify.1 hp, emits_emit.1 hj])
    obtain ⟨right, hwr⟩ := ihr hs₂ hx.2
    cases hdecides with
    | and => exact ⟨_, hwl.shortCircuit hj hp hwr hc hland fun _ _ _ _ => rfl⟩
    | or => exact ⟨_, hwl.shortCircuit hj hp hwr hc hland fun _ _ _ _ => rfl⟩

end Assembly
end DecisionEngine
