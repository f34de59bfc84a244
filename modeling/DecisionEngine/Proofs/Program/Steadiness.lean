import DecisionEngine.Proofs.Program.Blocks
import Mathlib.Logic.Relation
/-!
# Steady runs

A run can end with a fault of the values it computes with, or with one of the code: the stack is
too short, a constant is missing, a jump leads nowhere, or there is no return with one value on the
stack.  A run is steady from a place on if it ends with no fault of the code and never has more
values on the stack than there is to be room for.

* `Program.Blameless` — what operations on values end with is no fault of the code.
* `Program.Moves`, `Program.Reaches` — the places that a run comes to.
* `Program.steady_of_step` — one step; the lemmas behind it are the kinds of instructions.
-/

namespace DecisionEngine

namespace Program

/-! ## Causes of faults -/

/-- The causes that lie in the code, whatever it is run on. -/
def FaultCause.ofCode : List FaultCause :=
  [.stackUnderflow, .constantIndex, .jumpTarget, .unbalancedStack, .noReturn]

/-- A result that is no fault of the code. -/
def Blameless {α : Type} (r : Except FaultCause α) : Prop :=
  ∀ cause, r = .error cause → cause ∉ FaultCause.ofCode

section

variable {α β : Type}

theorem blameless_ok (a : α) : Blameless (.ok a : Except FaultCause α) := nofun

theorem blameless_error {cause : FaultCause} (h : cause ∉ FaultCause.ofCode) :
    Blameless (.error cause : Except FaultCause α) := by
  rintro _ ⟨⟩
  exact h

theorem Blameless.bind {x : Except FaultCause α} {f : α → Except FaultCause β}
    (hx : Blameless x) (hf : ∀ a, Blameless (f a)) : Blameless (x >>= f) := by
  cases x with
  | error cause => exact blameless_error (hx cause rfl)
  | ok a => exact hf a

theorem Blameless.map {x : Except FaultCause α} (hx : Blameless x) (f : α → β) :
    Blameless (x.map f) := by
  cases x with
  | error cause => exact blameless_error (hx cause rfl)
  | ok a => exact blameless_ok (f a)

/-- A test in front of a result, with a cause that is none of the code. -/
theorem Blameless.unless {r : Except FaultCause α} (hr : Blameless r) {cause : FaultCause}
    (h : cause ∉ FaultCause.ofCode) (c : Prop) [Decidable c] :
    Blameless (if c then .error cause else r) := by
  split
  · exact blameless_error h
  · exact hr

theorem blameless_toBool (v : Value) : Blameless (Operation.toBool v) := by
  cases v with
  | bool b => exact blameless_ok b
  | _ => exact blameless_error (by simp [FaultCause.ofCode])

theorem blameless_exact (n : Int) : Blameless (Operation.exact n) := by
  unfold Operation.exact
  split
  · exact blameless_ok _
  · exact blameless_error (by decide)

theorem blameless_negate (v : Value) : Blameless (Operation.negate v) := by
  cases v with
  | int n => exact blameless_exact _
  | real x => exact blameless_ok _
  | _ => exact blameless_error (by simp [FaultCause.ofCode])

theorem blameless_onIntegers (op : Operation.Arithmetic) (a b : Int64) :
    Blameless (Operation.onIntegers op a b) := by
  cases op with
  | add => exact blameless_exact _
  | sub => exact blameless_exact _
  | mul => exact blameless_exact _
  | div => exact (blameless_ok _).unless (by decide) _
  | mod => exact (blameless_exact _).unless (by decide) _

theorem blameless_onReals (op : Operation.Arithmetic) (x y : Binary64) :
    Blameless (Operation.onReals op x y) := by
  cases op with
  | add => exact blameless_ok _
  | sub => exact blameless_ok _
  | mul => exact blameless_ok _
  | div => exact (blameless_ok _).unless (by decide) _
  | mod => exact (blameless_ok _).unless (by decide) _

theorem blameless_arithmetic (op : Operation.Arithmetic) (l r : Value) :
    Blameless (Operation.arithmetic op l r) := by
  unfold Operation.arithmetic
  split
  · exact blameless_ok _
  · exact blameless_onIntegers op _ _
  · split
    · exact blameless_onReals op _ _
    · exact blameless_error (by simp [FaultCause.ofCode])

theorem blameless_order (l r : Value) : Blameless (Operation.order l r) := by
  unfold Operation.order
  split
  · exact blameless_ok _
  · exact blameless_ok _
  · split
    · exact (blameless_ok _).unless (by decide) _
    · exact blameless_error (by simp [FaultCause.ofCode])

theorem blameless_nodeFired (env : Env) (node : UInt32) : Blameless (env.nodeFired node) := by
  unfold Env.nodeFired
  split
  · exact blameless_ok _
  · exact blameless_error (by decide)

end

end Program

theorem UnaryOp.blameless_apply (op : UnaryOp) (v : Value) : Program.Blameless (op.apply v) := by
  cases op with
  | not => exact (Program.blameless_toBool v).bind fun _ => Program.blameless_ok _
  | neg => exact Program.blameless_negate v

theorem BinaryOp.blameless_apply (op : BinaryOp) (l r : Value) :
    Program.Blameless (op.apply l r) := by
  have hordered : ∀ accept : Ordering → Bool, Program.Blameless
      (do return .bool (accept (← Operation.order l r)) : Except Program.FaultCause Value) :=
    fun _ => (Program.blameless_order l r).bind fun _ => Program.blameless_ok _
  have hboth : ∀ f : Bool → Bool → Bool, Program.Blameless
      (do return .bool (f (← Operation.toBool l) (← Operation.toBool r)) :
        Except Program.FaultCause Value) :=
    fun _ => (Program.blameless_toBool l).bind fun _ =>
      (Program.blameless_toBool r).bind fun _ => Program.blameless_ok _
  cases op with
  | add => exact Program.blameless_arithmetic .add l r
  | sub => exact Program.blameless_arithmetic .sub l r
  | mul => exact Program.blameless_arithmetic .mul l r
  | div => exact Program.blameless_arithmetic .div l r
  | mod => exact Program.blameless_arithmetic .mod l r
  | eq => exact Program.blameless_ok _
  | ne => exact Program.blameless_ok _
  | lt => exact hordered _
  | le => exact hordered _
  | gt => exact hordered _
  | ge => exact hordered _
  | and => exact hboth _
  | or => exact hboth _

namespace Program

variable {p : Program} {env : Env} {pc : Nat} {stack : List Value}

/-! ## Steps of a run -/

/-- A place of a run: the number of the next instruction and the stack in front of it. -/
abbrev Place := Nat × List Value

/-- One instruction takes a run from one place to another. -/
inductive Moves (p : Program) (env : Env) : Place → Place → Prop
  | proceed {pc : Nat} {ins : Instruction} {stack next : List Value}
    (at_ : p.code[pc]? = some ins) (step : p.step env ins stack = .ok (.proceed next)) :
    Moves p env (pc, stack) (pc + 1, next)
  | jump {pc target : Nat} {ins : Instruction} {stack next : List Value}
    (at_ : p.code[pc]? = some ins) (step : p.step env ins stack = .ok (.jump target next))
    (forward : pc < target ∧ target ≤ p.code.length) :
    Moves p env (pc, stack) (target, next)

/-- A run comes from one place to another. -/
def Reaches (p : Program) (env : Env) : Place → Place → Prop := Relation.ReflTransGen (p.Moves env)

/-- From a place on, a run has at most as many values on the stack as there is to be room for, and
ends with no fault of the code. -/
structure Steady (p : Program) (env : Env) (pc : Nat) (stack : List Value) : Prop where
  fits : ∀ place, p.Reaches env (pc, stack) place → place.2.length ≤ p.maxStack.toNat
  faults : Blameless (p.answerFrom env pc stack)

/-- What an instruction does leads on steadily. -/
def LeadsOn (p : Program) (env : Env) (pc : Nat) : Except FaultCause Next → Prop
  | .error cause => cause ∉ FaultCause.ofCode
  | .ok (.done _) => True
  | .ok (.proceed stack) => p.Steady env (pc + 1) stack
  | .ok (.jump target stack) =>
    (pc < target ∧ target ≤ p.code.length) ∧ p.Steady env target stack

/-- **One step**: where there is room, a run is steady if what the instruction does leads on
steadily. -/
theorem steady_of_step {ins : Instruction} (hat : p.code[pc]? = some ins)
    (hfits : stack.length ≤ p.maxStack.toNat) (hstep : p.LeadsOn env pc (p.step env ins stack)) :
    p.Steady env pc stack := by
  refine ⟨fun place hreaches => ?_, ?_⟩
  · rcases Relation.ReflTransGen.cases_head hreaches with rfl | ⟨next, hmoves, hrest⟩
    · exact hfits
    · cases hmoves with
      | proceed hins hnext =>
        obtain rfl := Option.some.inj (hat.symm.trans hins)
        rw [hnext] at hstep
        exact hstep.fits place hrest
      | jump hins hnext _ =>
        obtain rfl := Option.some.inj (hat.symm.trans hins)
        rw [hnext] at hstep
        exact hstep.2.fits place hrest
  · rw [answerFrom_step hat]
    cases hnext : p.step env ins stack with
    | error cause =>
      rw [hnext] at hstep
      exact blameless_error hstep
    | ok next =>
      rw [hnext] at hstep
      cases next with
      | done b => exact blameless_ok b
      | proceed stack' => exact hstep.faults
      | jump target stack' =>
        show Blameless (p.follow env pc (.jump target stack'))
        rw [follow, if_pos hstep.1]
        exact hstep.2.faults


/-! ## Kinds of instructions -/

theorem steady_push {ins : Instruction} {r : Except FaultCause Value}
    (hat : p.code[pc]? = some ins) (hfits : stack.length ≤ p.maxStack.toNat)
    (hins : p.step env ins stack = r.map fun v => .proceed (v :: stack)) (hr : Blameless r)
    (hnext : ∀ v, p.Steady env (pc + 1) (v :: stack)) : p.Steady env pc stack := by
  refine steady_of_step hat hfits ?_
  rw [hins]
  cases r with
  | error cause => exact hr cause rfl
  | ok v => exact hnext v

theorem steady_onTop {ins : Instruction} {f : Value → Except FaultCause Value} {v : Value}
    (hat : p.code[pc]? = some ins) (hfits : (v :: stack).length ≤ p.maxStack.toNat)
    (hins : p.step env ins (v :: stack) = onTop f (v :: stack)) (hf : ∀ v, Blameless (f v))
    (hnext : ∀ w, p.Steady env (pc + 1) (w :: stack)) : p.Steady env pc (v :: stack) := by
  refine steady_of_step hat hfits ?_
  rw [hins, onTop]
  cases hv : f v with
  | error cause => exact hf v cause hv
  | ok w => exact hnext w

theorem steady_onTopTwo {ins : Instruction} {f : Value → Value → Except FaultCause Value}
    {l r : Value} (hat : p.code[pc]? = some ins)
    (hfits : (r :: l :: stack).length ≤ p.maxStack.toNat)
    (hins : p.step env ins (r :: l :: stack) = onTopTwo f (r :: l :: stack))
    (hf : ∀ l r, Blameless (f l r)) (hnext : ∀ w, p.Steady env (pc + 1) (w :: stack)) :
    p.Steady env pc (r :: l :: stack) := by
  refine steady_of_step hat hfits ?_
  rw [hins, onTopTwo]
  cases hv : f l r with
  | error cause => exact hf l r cause hv
  | ok w => exact hnext w

theorem steady_jumpIf {ins : Instruction} {taken : Bool} {target : UInt32} {v : Value}
    (hat : p.code[pc]? = some ins) (hfits : (v :: stack).length ≤ p.maxStack.toNat)
    (hins : p.step env ins (v :: stack) = jumpIf taken target (v :: stack))
    (hforward : pc < target.toNat ∧ target.toNat ≤ p.code.length)
    (htaken : p.Steady env target.toNat (v :: stack)) (hnext : p.Steady env (pc + 1) stack) :
    p.Steady env pc (v :: stack) := by
  refine steady_of_step hat hfits ?_
  rw [hins, jumpIf, topBool]
  cases hv : Operation.toBool v with
  | error cause => exact blameless_toBool v cause hv
  | ok b =>
    show p.LeadsOn env pc (if b = taken then _ else _)
    by_cases hb : b = taken
    · rw [if_pos hb]
      exact ⟨hforward, htaken⟩
    · rw [if_neg hb]
      exact hnext

theorem steady_checkBool {v : Value} (hat : p.code[pc]? = some ⟨.checkBool, 0, 0⟩)
    (hfits : (v :: stack).length ≤ p.maxStack.toNat)
    (hnext : p.Steady env (pc + 1) (v :: stack)) : p.Steady env pc (v :: stack) := by
  refine steady_of_step hat hfits ?_
  rw [step, topBool]
  cases hv : Operation.toBool v with
  | error cause => exact blameless_toBool v cause hv
  | ok b => exact hnext

theorem steady_return {v : Value} (hat : p.code[pc]? = some ⟨.return, 0, 0⟩)
    (hfits : [v].length ≤ p.maxStack.toNat) : p.Steady env pc [v] := by
  refine steady_of_step hat hfits ?_
  rw [step, topBool]
  cases hv : Operation.toBool v with
  | error cause => exact blameless_toBool v cause hv
  | ok b => trivial

end Program
end DecisionEngine
