import DecisionEngine.Program.Machine
/-!
# Runs that could touch what is not there

The machine of `Program.run` looks up constants, slots, symbols and flags in a way that cannot go
wrong.  Here is a machine that looks them up bare: an entry outside its table, a part of the
environment that is absent, a value of an empty stack and a truth value that is none are nothing at
all, and so is a run that is still going when its number of instructions is used up.  All that keeps
a run from there are the tests that the machine makes in front of its accesses.  They are enough for
every program, compiled or not.

* `Access` — a computation that may touch what is not there.
* `Parts` — the parts of an environment, each of which may be absent.
* `attempt`, `attemptFrom` — instructions and runs with bare accesses.
* `attempt_is`, `attemptFrom_eq` — they come to what `step` and `runFrom` say.
* `attemptWithin_code_length` — so every run ends within the number of its instructions.
-/

namespace DecisionEngine
namespace Program

/-! ## Accesses -/

/-- A computation that is nothing if it touched what is not there, and else has a result or the
cause of a fault. -/
abbrev Access (α : Type) := ExceptT FaultCause Option α

namespace Access

variable {α β : Type}

/-- An access without any test. -/
def bare (x : Option α) : Access α := ExceptT.lift x

/-- A computation that touches nothing. -/
def pureOf (r : Except FaultCause α) : Access α := ExceptT.mk (some r)

/-- A test; a fault if it fails. -/
def demand (holds : Bool) (cause : FaultCause) : Access Unit :=
  if holds then pure () else throw cause

/-- A computation touches nothing that is not there, and comes to a result or a fault. -/
def Is (x : Access α) (r : Except FaultCause α) : Prop := x.run = some r

theorem is_pure (a : α) : Is (pure a) (.ok a) := rfl

theorem is_pureOf (r : Except FaultCause α) : (pureOf r).Is r := rfl

theorem is_bare {x : Option α} {a : α} (h : x = some a) : (bare x).Is (.ok a) := by
  subst h
  rfl

/-- One computation after another. -/
theorem Is.bind {x : Access α} {f : α → Access β} {r : Except FaultCause α}
    {g : α → Except FaultCause β} (hx : x.Is r) (hf : ∀ a, r = .ok a → (f a).Is (g a)) :
    (x >>= f).Is (r >>= g) := by
  unfold Is at hx
  show (x.run >>= ExceptT.bindCont f) = some (r >>= g)
  rw [hx]
  cases r with
  | error cause => rfl
  | ok a => exact hf a rfl

/-- A computation that goes on with a result. -/
theorem Is.andThen {x : Access α} {f : α → Access β} {a : α} {r : Except FaultCause β}
    (hx : x.Is (.ok a)) (hf : (f a).Is r) : (x >>= f).Is r :=
  hx.bind (g := fun _ => r) fun _ hb => Except.ok.inj hb ▸ hf

/-- A test that holds lets a computation go on. -/
theorem is_demand_of_true {holds : Bool} {cause : FaultCause} {f : Unit → Access β}
    {r : Except FaultCause β} (h : holds = true) (hf : (f ()).Is r) :
    (demand holds cause >>= f).Is r := by
  subst h
  exact hf

/-- A test that fails ends a computation. -/
theorem is_demand_of_false {holds : Bool} {cause : FaultCause} {f : Unit → Access β}
    (h : holds = false) : (demand holds cause >>= f).Is (.error cause) := by
  subst h
  rfl

end Access

open Access

/-- The parts of an environment; a caller may leave out any of them. -/
structure Parts where
  context : Option (List (Option Value))
  inputs : Option (List (Option Value))
  outcome : Option AttributeSet
  symbols : Option (List Bytes)
  fired : Option (List Bool)

/-- The environment of some parts: a part that is left out is empty. -/
def Parts.env (parts : Parts) : Env where
  context := parts.context.getD []
  inputs := parts.inputs.getD []
  outcome := parts.outcome.getD .empty
  symbols := parts.symbols.getD []
  fired := parts.fired.getD []

/-! ## Bare instructions -/

/-- The entry of a table. -/
def entry {α : Type} (table : List α) (index : Nat) : Access α := bare table[index]?

/-- The value on top of the stack. -/
def top (stack : List Value) : Access Value := bare stack.head?

/-- The stack without the value on top. -/
def pop : List Value → Access (List Value)
  | [] => bare none
  | _ :: rest => pure rest

/-- The stack with another value on top. -/
def replaceTop (v : Value) (stack : List Value) : Access (List Value) := do
  return v :: (← pop stack)

/-- The truth value that a value is. -/
def asBool : Value → Access Bool
  | .bool b => pure b
  | _ => bare none

/-- Tests that there are so many values on the stack. -/
def demandStack (count : Nat) (stack : List Value) : Access Unit :=
  demand (decide (count ≤ stack.length)) .stackUnderflow

/-- A constant of the program. -/
def constantAt (p : Program) (index : UInt32) : Access Value := do
  demand (decide (index.toNat < p.constants.length)) .constantIndex
  entry p.constants index.toNat

/-- The value of a slot; null if there is none. -/
def slotAt (slots : Option (List (Option Value))) (symbol : UInt32) : Access Value := do
  if slots.isNone then return .null
  else
    let slots ← bare slots
    if slots.length ≤ symbol.toNat then return .null
    else return (← entry slots symbol.toNat).getD .null

/-- The parameter of the outcome that a symbol names. -/
def outcomeAt (parts : Parts) (symbol : UInt32) : Access Value := do
  if parts.outcome.isNone || parts.symbols.isNone then return .null
  else
    let outcome ← bare parts.outcome
    let symbols ← bare parts.symbols
    if symbols.length ≤ symbol.toNat then return .null
    else return (outcome.find? (← entry symbols symbol.toNat)).getD .null

/-- Whether a node has fired. -/
def firedAt (parts : Parts) (node : UInt32) : Access Bool := do
  demand parts.fired.isSome .firedUnavailable
  let fired ← bare parts.fired
  demand (decide (node.toNat < fired.length)) .firedUnavailable
  entry fired node.toNat

/-- The truth value on top. -/
def boolOnTop (stack : List Value) : Access Bool := do
  demandStack 1 stack
  let v ← top stack
  demand (Operation.toBool v).isOk (.expectedBoolean v.kindName)
  asBool v

/-- Replaces the value on top. -/
def replaceOne (f : Value → Except FaultCause Value) (stack : List Value) : Access Next := do
  demandStack 1 stack
  let v ← pureOf (f (← top stack))
  return .proceed (← replaceTop v stack)

/-- Replaces the two values on top; the upper one is the right operand. -/
def replaceTwo (f : Value → Value → Except FaultCause Value) (stack : List Value) :
    Access Next := do
  demandStack 2 stack
  let r ← top stack
  let rest ← pop stack
  let v ← pureOf (f (← top rest) r)
  return .proceed (← replaceTop v rest)

/-- Jumps if the value on top is `taken` and keeps it then; drops it otherwise. -/
def jumpOn (taken : Bool) (target : UInt32) (stack : List Value) : Access Next := do
  if (← boolOnTop stack) = taken then return .jump target.toNat stack
  else return .proceed (← pop stack)

/-- What an instruction does to the stack, with bare accesses. -/
def attempt (p : Program) (parts : Parts) (ins : Instruction) (stack : List Value) : Access Next :=
  match ins.op with
  | .pushConst => do return .proceed ((← constantAt p ins.a) :: stack)
  | .loadContext => do return .proceed ((← slotAt parts.context ins.a) :: stack)
  | .loadInput => do return .proceed ((← slotAt parts.inputs ins.a) :: stack)
  | .loadOutcome => do return .proceed ((← outcomeAt parts ins.a) :: stack)
  | .isPresent => replaceOne (fun v => .ok (.bool (!v.isNull))) stack
  | .testFlag => do return .proceed (.bool (← slotAt parts.context ins.a).truthy :: stack)
  | .testEquals => do
    let v ← slotAt parts.context ins.a
    return .proceed (.bool (textEquals v (← constantAt p ins.b)) :: stack)
  | .fired => do return .proceed (.bool (← firedAt parts ins.a) :: stack)
  | .notFired => do return .proceed (.bool (!(← firedAt parts ins.a)) :: stack)
  | .not => do
    let b ← boolOnTop stack
    return .proceed (← replaceTop (.bool (!b)) stack)
  | .neg => replaceOne Operation.negate stack
  | .add => replaceTwo (Operation.arithmetic .add) stack
  | .sub => replaceTwo (Operation.arithmetic .sub) stack
  | .mul => replaceTwo (Operation.arithmetic .mul) stack
  | .div => replaceTwo (Operation.arithmetic .div) stack
  | .mod => replaceTwo (Operation.arithmetic .mod) stack
  | .eq => replaceTwo (fun l r => .ok (.bool (Operation.equal l r))) stack
  | .ne => replaceTwo (fun l r => .ok (.bool (!Operation.equal l r))) stack
  | .lt => replaceTwo (ordered (·.isLT)) stack
  | .le => replaceTwo (ordered (·.isLE)) stack
  | .gt => replaceTwo (ordered (·.isGT)) stack
  | .ge => replaceTwo (ordered (·.isGE)) stack
  | .jumpIfFalse => jumpOn false ins.a stack
  | .jumpIfTrue => jumpOn true ins.a stack
  | .checkBool => do
    let _ ← boolOnTop stack
    return .proceed stack
  | .return => do
    let b ← boolOnTop stack
    demand (stack.length == 1) .unbalancedStack
    return .done b

/-- Runs at most `limit` instructions from one on, with bare accesses. -/
def attemptFrom (p : Program) (parts : Parts) : Nat → Nat → List Value →
    Option (Except Fault Bool)
  | limit, pc, stack =>
    if pc < p.code.length then
      match limit with
      | 0 => none
      | limit + 1 => do
        let ins ← p.code[pc]?
        match ← (p.attempt parts ins stack).run with
        | .error cause => return .error ⟨cause, pc⟩
        | .ok (.done b) => return .ok b
        | .ok (.proceed stack) => p.attemptFrom parts limit (pc + 1) stack
        | .ok (.jump target stack) =>
          if target ≤ pc ∨ p.code.length < target then return .error ⟨.jumpTarget, pc⟩
          else p.attemptFrom parts limit target stack
    else return .error ⟨.noReturn, pc⟩

/-- The answer of a program after at most `limit` instructions, with bare accesses. -/
def attemptWithin (p : Program) (limit : Nat) (parts : Parts) : Option (Except Fault Bool) :=
  if p.isEmpty then some (.ok true) else p.attemptFrom parts limit 0 []

/-! ## The tests are enough -/

section

variable (p : Program) (parts : Parts)

theorem entry_is {α : Type} {table : List α} {index : Nat} (h : index < table.length) :
    (entry table index).Is (.ok table[index]) := is_bare (List.getElem?_eq_getElem h)

theorem constantAt_is (index : UInt32) : (constantAt p index).Is (p.constant index) := by
  unfold constantAt constant
  by_cases h : index.toNat < p.constants.length
  · rw [List.getElem?_eq_getElem h]
    exact is_demand_of_true (decide_eq_true h) (entry_is h)
  · rw [List.getElem?_eq_none (Nat.le_of_not_lt h)]
    exact is_demand_of_false (decide_eq_false h)

theorem slotAt_is (slots : Option (List (Option Value))) (symbol : UInt32) :
    (slotAt slots symbol).Is (.ok (slot (slots.getD []) symbol)) := by
  unfold slotAt slot
  cases slots with
  | none => exact is_pure _
  | some slots =>
    show Is (if slots.length ≤ symbol.toNat then return .null
      else return (← entry slots symbol.toNat).getD .null) _
    by_cases h : slots.length ≤ symbol.toNat
    · rw [if_pos h, Option.getD_some, List.getElem?_eq_none h]
      exact is_pure _
    · rw [if_neg h, Option.getD_some, List.getElem?_eq_getElem (Nat.lt_of_not_le h)]
      exact (entry_is (Nat.lt_of_not_le h)).andThen (is_pure _)

theorem outcomeAt_is (symbol : UInt32) :
    (outcomeAt parts symbol).Is (.ok (parts.env.outcomeValue symbol)) := by
  obtain ⟨context, inputs, outcome, symbols, fired⟩ := parts
  unfold outcomeAt Env.outcomeValue Parts.env
  dsimp only
  cases symbols with
  | none => cases outcome <;> exact is_pure _
  | some symbols =>
    rw [Option.getD_some]
    cases outcome with
    | none =>
      have hnull : (symbols[symbol.toNat]?.bind AttributeSet.empty.find?).getD .null =
          Value.null := by
        cases symbols[symbol.toNat]? <;> rfl
      rw [Option.getD_none, hnull]
      exact is_pure _
    | some outcome =>
      show Is (if symbols.length ≤ symbol.toNat then return .null
        else return (outcome.find? (← entry symbols symbol.toNat)).getD .null) _
      by_cases h : symbols.length ≤ symbol.toNat
      · rw [if_pos h, List.getElem?_eq_none h]
        exact is_pure _
      · rw [if_neg h, List.getElem?_eq_getElem (Nat.lt_of_not_le h)]
        exact (entry_is (Nat.lt_of_not_le h)).andThen (is_pure _)

theorem firedAt_is (node : UInt32) : (firedAt parts node).Is (parts.env.nodeFired node) := by
  obtain ⟨context, inputs, outcome, symbols, fired⟩ := parts
  unfold firedAt Env.nodeFired Parts.env
  cases fired with
  | none => exact is_demand_of_false rfl
  | some fired =>
    refine is_demand_of_true rfl ?_
    show Is (demand (decide (node.toNat < fired.length)) .firedUnavailable >>= fun _ =>
      entry fired node.toNat) _
    by_cases h : node.toNat < fired.length
    · rw [Option.getD_some, List.getElem?_eq_getElem h]
      exact is_demand_of_true (decide_eq_true h) (entry_is h)
    · rw [Option.getD_some, List.getElem?_eq_none (Nat.le_of_not_lt h)]
      exact is_demand_of_false (decide_eq_false h)

theorem boolOnTop_is (stack : List Value) : (boolOnTop stack).Is (topBool stack) := by
  cases stack with
  | nil => exact is_demand_of_false rfl
  | cons v rest => cases v <;> rfl

/-- There is a value on top wherever a truth value was found there. -/
theorem pop_is {stack : List Value} {b : Bool} (h : topBool stack = .ok b) :
    (pop stack).Is (.ok stack.tail) := by
  cases stack with
  | nil => cases h
  | cons v rest => exact is_pure rest

theorem replaceOne_is (f : Value → Except FaultCause Value) (stack : List Value) :
    (replaceOne f stack).Is (onTop f stack) := by
  cases stack with
  | nil => exact is_demand_of_false rfl
  | cons v rest =>
    refine is_demand_of_true rfl ?_
    exact (is_pureOf (f v)).bind fun w _ => is_pure _

theorem replaceTwo_is (f : Value → Value → Except FaultCause Value) (stack : List Value) :
    (replaceTwo f stack).Is (onTopTwo f stack) := by
  match stack with
  | [] => exact is_demand_of_false rfl
  | [_] => exact is_demand_of_false rfl
  | r :: l :: rest =>
    refine is_demand_of_true rfl ?_
    exact (is_pureOf (f l r)).bind fun w _ => is_pure _

theorem jumpOn_is (taken : Bool) (target : UInt32) (stack : List Value) :
    (jumpOn taken target stack).Is (jumpIf taken target stack) := by
  refine (boolOnTop_is stack).bind fun b hb => ?_
  by_cases h : b = taken
  · rw [if_pos h, if_pos h]
    exact is_pure _
  · rw [if_neg h, if_neg h]
    exact (pop_is hb).andThen (is_pure _)

/-- An instruction touches nothing that is not there, whatever its operands and the stack are. -/
theorem attempt_is (ins : Instruction) (stack : List Value) :
    (p.attempt parts ins stack).Is (p.step parts.env ins stack) := by
  obtain ⟨op, a, b⟩ := ins
  cases op with
  | pushConst => exact (constantAt_is p a).bind fun v _ => is_pure _
  | loadContext => exact (slotAt_is parts.context a).andThen (is_pure _)
  | loadInput => exact (slotAt_is parts.inputs a).andThen (is_pure _)
  | loadOutcome => exact (outcomeAt_is parts a).andThen (is_pure _)
  | isPresent => exact replaceOne_is _ stack
  | testFlag => exact (slotAt_is parts.context a).andThen (is_pure _)
  | testEquals =>
    exact (slotAt_is parts.context a).andThen ((constantAt_is p b).bind fun v _ => is_pure _)
  | fired => exact (firedAt_is parts a).bind fun b _ => is_pure _
  | notFired => exact (firedAt_is parts a).bind fun b _ => is_pure _
  | not =>
    cases stack with
    | nil => rfl
    | cons v rest => cases v <;> rfl
  | neg => exact replaceOne_is _ stack
  | add => exact replaceTwo_is _ stack
  | sub => exact replaceTwo_is _ stack
  | mul => exact replaceTwo_is _ stack
  | div => exact replaceTwo_is _ stack
  | mod => exact replaceTwo_is _ stack
  | eq => exact replaceTwo_is _ stack
  | ne => exact replaceTwo_is _ stack
  | lt => exact replaceTwo_is _ stack
  | le => exact replaceTwo_is _ stack
  | gt => exact replaceTwo_is _ stack
  | ge => exact replaceTwo_is _ stack
  | jumpIfFalse => exact jumpOn_is false a stack
  | jumpIfTrue => exact jumpOn_is true a stack
  | checkBool => exact (boolOnTop_is stack).bind fun _ _ => is_pure _
  | «return» =>
    refine (boolOnTop_is stack).bind fun b _ => ?_
    by_cases h : stack.length = 1
    · rw [if_pos h]
      exact is_demand_of_true (beq_iff_eq.2 h) (is_pure _)
    · rw [if_neg h]
      exact is_demand_of_false (beq_eq_false_iff_ne.2 h)

/-! ## Runs -/

/-- Behind the last instruction there is none that could be run. -/
theorem runFrom_of_length_le {pc : Nat} (h : p.code.length ≤ pc) (env : Env)
    (stack : List Value) : p.runFrom env pc stack = .error ⟨.noReturn, pc⟩ := by
  rw [runFrom]
  split
  · rfl
  · rename_i hins
    rw [List.getElem?_eq_none h] at hins
    cases hins

/-- A run with an instruction in front of it goes on where the instruction says. -/
theorem runFrom_of_lt {pc : Nat} (h : pc < p.code.length) (env : Env) (stack : List Value) :
    p.runFrom env pc stack =
      match p.step env p.code[pc] stack with
      | .error cause => .error ⟨cause, pc⟩
      | .ok (.done b) => .ok b
      | .ok (.proceed stack) => p.runFrom env (pc + 1) stack
      | .ok (.jump target stack) =>
        if pc < target ∧ target ≤ p.code.length then p.runFrom env target stack
        else .error ⟨.jumpTarget, pc⟩ := by
  rw [runFrom]
  split
  · rename_i hins
    rw [List.getElem?_eq_getElem h] at hins
    cases hins
  · rename_i ins hins
    rw [List.getElem?_eq_getElem h] at hins
    cases hins
    rfl

/-- As many instructions as are left are enough: jumps go forward, so each of them is run at most
once. -/
theorem attemptFrom_eq {limit pc : Nat} (h : p.code.length ≤ pc + limit) (stack : List Value) :
    p.attemptFrom parts limit pc stack = some (p.runFrom parts.env pc stack) := by
  induction limit generalizing pc stack with
  | zero =>
    rw [Nat.add_zero] at h
    rw [attemptFrom, if_neg (Nat.not_lt.2 h), runFrom_of_length_le p h]
    rfl
  | succ limit ih =>
    rw [attemptFrom]
    by_cases hlt : pc < p.code.length
    · have hstep : (p.attempt parts p.code[pc] stack).run =
          some (p.step parts.env p.code[pc] stack) := attempt_is p parts p.code[pc] stack
      rw [if_pos hlt, runFrom_of_lt p hlt, List.getElem?_eq_getElem hlt]
      simp only [Option.bind_eq_bind, Option.bind_some, hstep]
      cases p.step parts.env p.code[pc] stack with
      | error cause => rfl
      | ok next =>
        cases next with
        | done b => rfl
        | proceed stack => exact ih (by omega) stack
        | jump target stack =>
          dsimp only
          by_cases hjump : pc < target ∧ target ≤ p.code.length
          · rw [if_pos hjump, if_neg (by omega)]
            exact ih (by omega) stack
          · rw [if_neg hjump, if_pos (by omega)]
            rfl
    · rw [if_neg hlt, runFrom_of_length_le p (Nat.le_of_not_lt hlt)]
      rfl

/-- A fault is at an instruction, or right behind the last one. -/
theorem pc_le_of_runFrom {env : Env} {pc : Nat} {stack : List Value} {f : Fault}
    (hpc : pc ≤ p.code.length) (h : p.runFrom env pc stack = .error f) :
    f.pc ≤ p.code.length := by
  fun_induction p.runFrom env pc stack with
  | case1 pc stack hnone => exact Except.error.inj h ▸ hpc
  | case2 pc stack ins hins hlt cause hstep => exact Except.error.inj h ▸ hpc
  | case3 pc stack ins hins hlt b hstep => cases h
  | case4 pc stack ins hins hlt next hstep ih => exact ih hlt h
  | case5 pc stack ins hins hlt target next hstep hjump ih => exact ih hjump.2 h
  | case6 pc stack ins hins hlt target next hstep hjump => exact Except.error.inj h ▸ hpc

theorem attemptWithin_eq : p.attemptWithin p.code.length parts = some (p.run parts.env) := by
  unfold attemptWithin run
  split
  · rfl
  · exact attemptFrom_eq p parts (by omega) []

theorem pc_le_of_run {env : Env} {f : Fault} (h : p.run env = .error f) :
    f.pc ≤ p.code.length := by
  unfold run at h
  split at h
  · cases h
  · exact pc_le_of_runFrom p (Nat.zero_le _) h

/-- **Programs are safe to run, whatever they are.**  Any program, of any instructions, operands and
constants, on any environment, with any of its parts left out, ends after at most as many
instructions as it has, with a truth value or with a fault that is at most right behind its last
instruction; on the way it takes nothing from an empty stack, and looks up no constant, slot, symbol
or flag outside its table. -/
theorem attemptWithin_code_length :
    p.attemptWithin p.code.length parts = some (p.run parts.env) ∧
      ∀ f, p.run parts.env = .error f → f.pc ≤ p.code.length :=
  ⟨attemptWithin_eq p parts, fun _ => pc_le_of_run p⟩

end

end Program
end DecisionEngine
