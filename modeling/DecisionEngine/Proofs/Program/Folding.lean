import DecisionEngine.Proofs.Failure
import DecisionEngine.Proofs.Program.Acceptance
import DecisionEngine.Proofs.Program.Accesses
import DecisionEngine.Proofs.Program.Tests
/-!
# Expressions that are known beforehand

A program that has no instruction that reads has one answer, whatever there is to read.  So if the
program of an expression is folded to a truth value, the expression has that value on all evidence.

* `Program.constantResult?_eq_some_iff` — what can be folded is what reads nothing and always
  gives the same answer.
* `Program.reads_iff` — the opcodes at which folding stops are those that read.
* `Program.folding_exact` — folding is sound for all programs, and complete for those that read
  nothing.
* `Assembly.Loaded` — every name that is added is loaded by an instruction.
* `Expr.value_of_constantResult?` — what an expression is folded to is its value.
-/

namespace DecisionEngine
namespace Program

variable {p : Program}

/-! ## Programs that read nothing -/

/-- An instruction that reads nothing does the same in every environment. -/
theorem step_congr (env env' : Env) {ins : Instruction} (h : ins.op.readsEnvironment = false)
    (stack : List Value) : p.step env ins stack = p.step env' ins stack := by
  unfold step
  cases hop : ins.op <;> first | rfl | (rw [hop] at h; cases h)

/-- A run over instructions that read nothing is the same in every environment. -/
theorem runFrom_congr (env env' : Env) (h : ∀ ins ∈ p.code, ins.op.readsEnvironment = false)
    {left pc : Nat} (hleft : p.code.length ≤ pc + left) (stack : List Value) :
    p.runFrom env pc stack = p.runFrom env' pc stack := by
  induction left generalizing pc stack with
  | zero =>
    rw [Nat.add_zero] at hleft
    rw [runFrom_of_length_le p hleft, runFrom_of_length_le p hleft]
  | succ left ih =>
    by_cases hlt : pc < p.code.length
    · rw [runFrom_of_lt p hlt, runFrom_of_lt p hlt,
        step_congr env env' (h _ (List.getElem_mem hlt))]
      cases p.step env' p.code[pc] stack with
      | error cause => rfl
      | ok next =>
        cases next with
        | done b => rfl
        | proceed stack => exact ih (by omega) stack
        | jump target stack =>
          dsimp only
          by_cases hjump : pc < target ∧ target ≤ p.code.length
          · rw [if_pos hjump, if_pos hjump]
            exact ih (by omega) stack
          · rw [if_neg hjump, if_neg hjump]
    · have hend := Nat.le_of_not_lt hlt
      rw [runFrom_of_length_le p hend, runFrom_of_length_le p hend]

theorem run_congr (env env' : Env) (h : ∀ ins ∈ p.code, ins.op.readsEnvironment = false) :
    p.run env = p.run env' := by
  unfold run
  rw [runFrom_congr env env' h (Nat.le_add_left _ 0)]

/-- A program is folded exactly if it reads nothing and always gives the same answer. -/
theorem constantResult?_eq_some_iff {b : Bool} :
    p.constantResult? = some b ↔
      (∀ ins ∈ p.code, ins.op.readsEnvironment = false) ∧ ∀ env, p.run env = .ok b := by
  unfold constantResult?
  by_cases hreads : p.code.any (·.op.readsEnvironment) = true
  · rw [if_pos hreads]
    obtain ⟨ins, hins, hop⟩ := List.any_eq_true.1 hreads
    refine ⟨fun h => (nomatch h), fun h => ?_⟩
    rw [h.1 ins hins] at hop
    cases hop
  · rw [if_neg hreads]
    have hsilent : ∀ ins ∈ p.code, ins.op.readsEnvironment = false := by
      simpa [List.any_eq_true] using hreads
    constructor
    · intro h
      refine ⟨hsilent, fun env => ?_⟩
      rw [run_congr env .blank hsilent]
      cases hrun : p.run .blank with
      | error f =>
        rw [hrun] at h
        cases h
      | ok a =>
        rw [hrun] at h
        exact congrArg Except.ok (Option.some.inj h)
    · intro h
      rw [h.2 .blank]
      rfl

/-! ## Folding is exact -/

/-- An opcode reads the environment if what an instruction with it does depends on the context, the
inputs, the outcome or what has fired. -/
def Reads (op : Opcode) : Prop :=
  ∃ (p : Program) (a b : UInt32) (stack : List Value) (env env' : Env),
    p.step env ⟨op, a, b⟩ stack ≠ p.step env' ⟨op, a, b⟩ stack

/-- An environment in which everything that can be read first is there. -/
def Env.filled : Env :=
  ⟨[some (.text [120])], [some (.text [120])], .ofList [([120], .text [120])], [[120]], [true]⟩

/-- The opcodes that the folding of a program stops at are those that read. -/
theorem reads_iff {op : Opcode} : Reads op ↔ op.readsEnvironment = true := by
  constructor
  · rintro ⟨p, a, b, stack, env, env', hne⟩
    by_contra hsilent
    exact hne (step_congr env env' (by simpa using hsilent) stack)
  · intro h
    have hstep : (⟨[], [.text [120]], 0⟩ : Program).step .filled ⟨op, 0, 0⟩ [] ≠
        (⟨[], [.text [120]], 0⟩ : Program).step .blank ⟨op, 0, 0⟩ [] := by
      cases op
      case loadContext | loadInput | loadOutcome | testFlag | testEquals | fired | notFired =>
        exact fun heq => by cases heq
      all_goals cases h
    exact ⟨_, 0, 0, [], .filled, .blank, hstep⟩

/-- **Folding is sound and complete.**  What a program is folded to is its answer in every
environment; and if none of its instructions reads, then what it answers in any environment is what
it is folded to, and it is not folded if it ends with a fault in any. -/
theorem folding_exact (p : Program) :
    (∀ b, p.constantResult? = some b → ∀ env, p.run env = .ok b) ∧
      ((∀ ins ∈ p.code, ¬Reads ins.op) →
        (∀ env b, p.run env = .ok b → p.constantResult? = some b) ∧
          ∀ env f, p.run env = .error f → p.constantResult? = none) := by
  refine ⟨fun b h => (constantResult?_eq_some_iff.1 h).2, fun hsilent => ⟨fun env b hrun => ?_,
    fun env f hrun => ?_⟩⟩
  · have hcode : ∀ ins ∈ p.code, ins.op.readsEnvironment = false := fun ins hins => by
      simpa [reads_iff] using hsilent ins hins
    exact constantResult?_eq_some_iff.2 ⟨hcode, fun env' => (run_congr env' env hcode).trans hrun⟩
  · rw [Option.eq_none_iff_forall_ne_some]
    intro b hfolded
    have hanswer := (constantResult?_eq_some_iff.1 hfolded).2 env
    rw [hrun] at hanswer
    cases hanswer

/-- Nothing or else that two times three is six, with a jump that is not taken. -/
def sixfold : Program where
  code := [⟨.pushConst, 0, 0⟩, ⟨.jumpIfTrue, 7, 0⟩, ⟨.pushConst, 1, 0⟩, ⟨.pushConst, 2, 0⟩,
    ⟨.mul, 0, 0⟩, ⟨.pushConst, 3, 0⟩, ⟨.eq, 0, 0⟩, ⟨.return, 0, 0⟩]
  constants := [.bool false, .int 2, .int 3, .int 6]
  maxStack := 2

theorem folding_exact_sixfold :
    (∀ ins ∈ sixfold.code, ¬Reads ins.op) ∧ sixfold.run .filled = .ok true ∧
      sixfold.constantResult? = some true := by
  have hsilent : ∀ ins ∈ sixfold.code, ¬Reads ins.op := by
    simp only [reads_iff]
    decide
  have hrun : sixfold.run .filled = .ok true := by decide +kernel
  exact ⟨hsilent, hrun, ((folding_exact sixfold).2 hsilent).1 _ _ hrun⟩

end Program

/-! ## Names and instructions -/

namespace Assembly

variable {s t s' : Assembly}

/-- One assembly becomes another, and every name that is added is loaded by an instruction. -/
def Loaded (s s' : Assembly) : Prop :=
  s'.symbols.names.length + s.code.length ≤ s.symbols.names.length + s'.code.length

theorem Loaded.trans (h : Loaded s t) (h' : Loaded t s') : Loaded s s' := by
  unfold Loaded at *
  omega

theorem loaded_emit {op : Opcode} {a b : UInt32} {u : Unit} (h : Emits (emit op a b) s u s') :
    Loaded s s' := by
  obtain rfl := emits_emit.1 h
  simp [Loaded]

theorem loaded_pushed {u : Unit} (h : Emits pushed s u s') : Loaded s s' := by
  obtain rfl := emits_modify.1 h
  exact Nat.le_refl _

theorem loaded_popped {u : Unit} (h : Emits popped s u s') : Loaded s s' := by
  obtain rfl := emits_modify.1 h
  exact Nat.le_refl _

theorem loaded_landHere {jump : Nat} {u : Unit} (h : Emits (landHere jump) s u s') :
    Loaded s s' := by
  obtain rfl := emits_landHere.1 h
  simp [Loaded]

theorem loaded_constant {v : Value} {i : UInt32} (h : Emits (constant v) s i s') :
    Loaded s s' := by
  simp only [constant, emits_bind, emits_get] at h
  obtain ⟨_, _, ⟨rfl, rfl⟩, h⟩ := h
  split at h
  · obtain ⟨-, rfl⟩ := emits_pure.1 h
    exact Nat.le_refl _
  · obtain ⟨_, t, ht, h⟩ := emits_bind.1 h
    obtain rfl := emits_modify.1 ht
    obtain ⟨-, rfl⟩ := emits_pure.1 h
    exact Nat.le_refl _

theorem length_intern_le (t : SymbolTable) (name : Bytes) :
    (t.intern name).names.length ≤ t.names.length + 1 := by
  unfold SymbolTable.intern
  split <;> simp

/-- A name is added together with the instruction that loads it. -/
theorem loaded_symbol {op : Opcode} {name : Bytes} {n b : UInt32} {u : Unit}
    (h : Emits (symbol name) s n t) (h' : Emits (emit op n b) t u s') : Loaded s s' := by
  obtain ⟨-, rfl⟩ := emits_symbol.1 h
  obtain rfl := emits_emit.1 h'
  have hle := length_intern_le s.symbols name
  simp only [Loaded, List.length_append, List.length_cons, List.length_nil]
  omega

theorem loaded_load {r : Reference} (h : Emits (load r) s () s') : Loaded s s' := by
  obtain ⟨n, t, u, hn, he, hp⟩ := emits_load h
  exact (loaded_symbol hn he).trans (loaded_pushed hp)

/-- An expression adds no more names than instructions. -/
theorem loaded_expression {x : Expr} (h : Emits (expression x) s () s') : Loaded s s' := by
  replace h := transcribed_of_emits h
  induction h with
  | literal hi he hp => exact ((loaded_constant hi).trans (loaded_emit he)).trans (loaded_pushed hp)
  | reference hload => exact loaded_load hload
  | present hload he => exact (loaded_load hload).trans (loaded_emit he)
  | not _ he ih => exact ih.trans (loaded_emit he)
  | neg _ he ih => exact ih.trans (loaded_emit he)
  | strict _ _ _ he hp ihl ihr =>
    exact ((ihl.trans ihr).trans (loaded_emit he)).trans (loaded_popped hp)
  | deciding _ _ hj hp _ hc hland ihl ihr =>
    have hleft := (ihl.trans (loaded_emit hj)).trans (loaded_popped hp)
    exact ((hleft.trans ihr).trans (loaded_emit hc)).trans (loaded_landHere hland)

theorem loaded_beginConjunct {u : Unit} (h : Emits beginConjunct s u t) : Loaded s t := by
  simp only [beginConjunct, emits_bind, emits_get] at h
  obtain ⟨s₀, s₁, ⟨hs₀, hs₁⟩, h⟩ := h
  subst s₀ s₁
  split at h
  · simp only [emits_bind, emits_here, emits_modify, emits_emit, popped] at h
    obtain ⟨j, s₁, ⟨-, hs₁⟩, _, _, rfl, _, _, rfl, _, _, rfl, rfl⟩ := h
    subst s₁
    simp [Loaded]
  · obtain rfl := emits_modify.1 h
    exact Nat.le_refl _

/-- A program of one expression has no more names than instructions. -/
theorem names_le_finish {x : Expr} {u : Unit}
    (h : Emits (emitExpression x) (.start .empty false) u s) :
    s.symbols.names.length ≤ s.finish.1.code.length := by
  obtain ⟨hinside, hcount, -⟩ :=
    asks_conjunct (c := .expression x) h fun j hj => absurd hj List.not_mem_nil
  have hne : s.conjuncts ≠ 0 := by
    rw [hcount]
    exact Nat.succ_ne_zero _
  obtain ⟨_, t, hbegin, hx⟩ := emits_bind.1 h
  have hloaded : Loaded (.start .empty false) s :=
    (loaded_beginConjunct hbegin).trans (loaded_expression hx)
  have hstart : (SymbolTable.empty.names).length = 0 := rfl
  simp only [Loaded, start, hstart, List.length_nil] at hloaded
  rw [finish_eq hne hinside, List.length_append, patched_length]
  omega

end Assembly

/-! ## Expressions -/

namespace Expr

/-- The program of an expression by itself. -/
def program (x : Expr) : Program :=
  ((ExceptT.run (Assembly.emitExpression x)).run (.start .empty false)).2.finish.1

/-- The program of an expression answers with the truth value of the expression. -/
theorem run_program {x : Expr} (hrefers : x.refersToOutcome = false)
    (hplain : x.hasNegativeZero = false) (hsize : x.program.code.length < 2 ^ 32)
    (e : Evidence) : ∃ names, (x.program.run (e.env names)).mapError (·.cause) =
      (Conjunct.expression x).truth e := by
  obtain ⟨u, s, hs, -⟩ :=
    Assembly.accepts_emitExpression (.inr hrefers) (.start .empty false) rfl
  have hprogram : x.program = s.finish.1 := by
    unfold program
    rw [show (ExceptT.run (Assembly.emitExpression x)).run (.start .empty false) = (.ok u, s)
      from hs]
  have hone : Assembly.Emits ([Conjunct.expression x].forM Conjunct.emit)
      (.start .empty false) u s :=
    Assembly.emits_bind.2 ⟨u, s, hs, Assembly.emits_pure.2 ⟨rfl, rfl⟩⟩
  have hnames := Assembly.names_le_finish hs
  rw [hprogram] at hsize ⊢
  refine ⟨s.symbols.names, ?_⟩
  rw [Assembly.answer_finish hone (fun c hc => List.mem_singleton.1 hc ▸ hplain) hsize
    List.prefix_rfl (by omega) e, Conjunct.allTrue_singleton]

/-- What an expression is folded to is its value on all evidence. -/
theorem value_of_constantResult? {x : Expr} (hrefers : x.refersToOutcome = false)
    (hplain : x.hasNegativeZero = false) (hsize : x.program.code.length < 2 ^ 32) {b : Bool}
    (h : x.program.constantResult? = some b) (e : Evidence) : x.value e = .ok (.bool b) := by
  obtain ⟨names, hrun⟩ := run_program hrefers hplain hsize e
  rw [(Program.constantResult?_eq_some_iff.1 h).2] at hrun
  exact Conjunct.truth_expression_iff.1 hrun.symm

end Expr
end DecisionEngine
