import DecisionEngine.Proofs.Program.Meaning
import Mathlib.Algebra.Group.Nat.Defs

/-!
# What assembling writes

Every emitter only adds: instructions go behind the code that is there, and constants and symbols
keep their numbers.  Each emitter has one lemma that says what is written; nothing later unfolds
an emitter again.

* `Emits` — an emitter was not refused; `emits_bind` takes a run apart.
* `Adds` — what one run leaves in place; `Linked` — that a finished program contains the result.
* `patch_append`, `patch_length` — how jumps get their targets.
* `Transcribed`, `transcribed_of_emits` — the ways in which expressions are written.
-/

namespace DecisionEngine
namespace Assembly

variable {α β : Type}

/-- An emitter takes one assembly to another and is not refused. -/
def Emits (m : Emitter α) (s : Assembly) (a : α) (s' : Assembly) : Prop :=
  m.run.run s = (.ok a, s')

/-! ## Taking runs apart -/

theorem emits_pure {a b : α} {s s' : Assembly} :
    Emits (pure a) s b s' ↔ b = a ∧ s' = s := by
  constructor
  · intro h
    obtain ⟨h, h'⟩ := Prod.mk.inj h
    exact ⟨(Except.ok.inj h).symm, h'.symm⟩
  · rintro ⟨rfl, rfl⟩
    rfl

theorem emits_bind {m : Emitter α} {f : α → Emitter β} {s s' : Assembly} {b : β} :
    Emits (m >>= f) s b s' ↔ ∃ a t, Emits m s a t ∧ Emits (f a) t b s' := by
  simp only [Emits, ExceptT.run, StateT.run, bind, ExceptT.bind, ExceptT.mk, StateT.bind]
  rcases hm : m s with ⟨r, t⟩
  cases r with
  | error e =>
    simp only [ExceptT.bindCont]
    constructor
    · intro h
      cases h
    · rintro ⟨a, u, h, _⟩
      cases h
  | ok a =>
    simp only [ExceptT.bindCont]
    constructor
    · intro h
      exact ⟨a, t, rfl, h⟩
    · rintro ⟨a', t', h, h'⟩
      cases h
      exact h'

theorem emits_modify {f : Assembly → Assembly} {u : Unit} {s s' : Assembly} :
    Emits (modify f) s u s' ↔ s' = f s := by
  constructor
  · intro h
    exact (Prod.mk.inj h).2.symm
  · rintro rfl
    rfl

theorem emits_get {s s' a : Assembly} : Emits get s a s' ↔ a = s ∧ s' = s := by
  constructor
  · intro h
    obtain ⟨h, h'⟩ := Prod.mk.inj h
    exact ⟨(Except.ok.inj h).symm, h'.symm⟩
  · rintro ⟨rfl, rfl⟩
    rfl

theorem not_emits_throw {e : AssemblyError} {s s' : Assembly} {a : α} :
    ¬ Emits (throw e) s a s' := by
  intro h
  cases (Prod.mk.inj h).1

theorem emits_emit {op : Opcode} {a b : UInt32} {u : Unit} {s s' : Assembly} :
    Emits (emit op a b) s u s' ↔ s' = { s with code := s.code ++ [⟨op, a, b⟩] } :=
  emits_modify

theorem emits_here {n : Nat} {s s' : Assembly} :
    Emits here s n s' ↔ n = s.code.length ∧ s' = s := by
  simp only [here, emits_bind, emits_get, emits_pure]
  constructor
  · rintro ⟨_, _, ⟨rfl, rfl⟩, rfl, rfl⟩
    exact ⟨rfl, rfl⟩
  · rintro ⟨rfl, rfl⟩
    exact ⟨_, _, ⟨rfl, rfl⟩, rfl, rfl⟩

/-- The instruction by which a scope is read. -/
def loadOpcode : Scope → Opcode
  | .context => .loadContext
  | .input => .loadInput
  | .outcome => .loadOutcome

/-- All scopes are loaded in the same way, by the number of the name. -/
theorem emits_load {r : Reference} {s s' : Assembly} (h : Emits (load r) s () s') :
    ∃ n t u, Emits (symbol r.name) s n t ∧ Emits (emit (loadOpcode r.scope) n 0) t () u ∧
      Emits pushed u () s' := by
  unfold load at h
  cases hscope : r.scope with
  | context =>
    simp only [hscope, emits_bind] at h
    obtain ⟨n, t, hn, _, u, he, hp⟩ := h
    exact ⟨n, t, u, hn, he, hp⟩
  | input =>
    simp only [hscope, emits_bind] at h
    obtain ⟨n, t, hn, _, u, he, hp⟩ := h
    exact ⟨n, t, u, hn, he, hp⟩
  | outcome =>
    simp only [hscope, emits_bind, emits_get] at h
    obtain ⟨_, _, ⟨rfl, rfl⟩, h⟩ := h
    split at h
    · simp only [emits_bind] at h
      obtain ⟨n, t, hn, _, u, he, hp⟩ := h
      exact ⟨n, t, u, hn, he, hp⟩
    · obtain ⟨_, _, hthrow, _⟩ := emits_bind.1 h
      exact absurd hthrow not_emits_throw

/-! ## What stays in place -/

/-- Constants do not outnumber instructions, and negative zero is not among them, so equal
constants are the same and have numbers of 32 bits. -/
structure Sound (s : Assembly) : Prop where
  constants_le : s.constants.length ≤ s.code.length
  plain : ∀ c ∈ s.constants, c ≠ .real .negativeZero

/-- One assembly becomes another by instructions that are added behind its code. -/
structure Adds (s s' : Assembly) (block : List Instruction) : Prop where
  code : s'.code = s.code ++ block
  constants : s.constants <+: s'.constants
  symbols : s.symbols.names <+: s'.symbols.names
  exits : s'.exits = s.exits
  conjuncts : s'.conjuncts = s.conjuncts
  allowOutcome : s'.allowOutcome = s.allowOutcome

namespace Adds

variable {s t u : Assembly} {block more : List Instruction}

theorem refl (s : Assembly) : Adds s s [] :=
  ⟨by simp, List.prefix_rfl, List.prefix_rfl, rfl, rfl, rfl⟩

theorem trans (h : Adds s t block) (h' : Adds t u more) : Adds s u (block ++ more) :=
  ⟨by rw [h'.code, h.code, List.append_assoc], h.constants.trans h'.constants,
    h.symbols.trans h'.symbols, h'.exits.trans h.exits, h'.conjuncts.trans h.conjuncts,
    h'.allowOutcome.trans h.allowOutcome⟩

theorem length (h : Adds s t block) : t.code.length = s.code.length + block.length := by
  rw [h.code, List.length_append]

end Adds

/-- A finished program, with the names of its plan, contains everything that was assembled. -/
structure Linked (p : Program) (names : List Bytes) (s : Assembly) : Prop where
  constants : s.constants <+: p.constants
  symbols : s.symbols.names <+: names
  names_le : names.length ≤ 2 ^ 32
  code_le : s.code.length ≤ p.code.length
  code_lt : p.code.length < 2 ^ 32

theorem Linked.mono {p : Program} {names : List Bytes} {s s' : Assembly}
    {block : List Instruction} (h : Linked p names s') (h' : Adds s s' block) :
    Linked p names s :=
  ⟨h'.constants.trans h.constants, h'.symbols.trans h.symbols, h.names_le,
    Nat.le_trans (by rw [h'.length]; omega) h.code_le, h.code_lt⟩

/-! ## Symbols and constants -/

theorem prefix_intern (t : SymbolTable) (name : Bytes) : t.names <+: (t.intern name).names := by
  unfold SymbolTable.intern
  split
  · exact List.prefix_rfl
  · exact List.prefix_append _ _

theorem mem_intern (t : SymbolTable) (name : Bytes) : name ∈ (t.intern name).names := by
  unfold SymbolTable.intern
  split
  · assumption
  · simp

theorem emits_symbol {name : Bytes} {n : UInt32} {s s' : Assembly} :
    Emits (symbol name) s n s' ↔
      n = s'.symbols.index name ∧ s' = { s with symbols := s.symbols.intern name } := by
  simp only [symbol, emits_bind, emits_modify, emits_get, emits_pure]
  constructor
  · rintro ⟨_, _, rfl, _, _, ⟨rfl, rfl⟩, rfl, rfl⟩
    exact ⟨rfl, rfl⟩
  · rintro ⟨rfl, rfl⟩
    exact ⟨(), _, rfl, _, _, ⟨rfl, rfl⟩, rfl, rfl⟩

/-- The number of a name finds the name in every table that extends the one it was taken from. -/
theorem getElem?_index {t : SymbolTable} {names : List Bytes} {name : Bytes}
    (hmem : name ∈ t.names) (h : t.names <+: names) (hle : names.length ≤ 2 ^ 32) :
    names[(t.index name).toNat]? = some name := by
  have hlt : t.names.idxOf name < t.names.length := List.idxOf_lt_length_of_mem hmem
  have hnat : (t.index name).toNat = t.names.idxOf name := by
    have := h.length_le
    simp only [SymbolTable.index, UInt32.toNat_ofNat']
    exact Nat.mod_eq_of_lt (by omega)
  rw [hnat]
  obtain ⟨more, rfl⟩ := h
  rw [List.getElem?_append_left hlt, List.getElem?_eq_getElem hlt, List.getElem_idxOf hlt]

/-- Away from negative zero, numerically equal values are the same. -/
theorem eq_of_same {c v : Value} (hc : c ≠ .real .negativeZero) (hv : v ≠ .real .negativeZero)
    (h : c.same v = true) : c = v := by
  unfold Value.same at h
  split at h
  · rfl
  · rw [eq_of_beq h]
  · rw [eq_of_beq h]
  · rename_i x y
    refine congrArg Value.real ?_
    have hx : x.bits.toNat ≠ 2 ^ 63 := fun e => hc (by
      rw [show x = .negativeZero from congrArg Binary64.mk (UInt64.toNat_inj.1 e)])
    have hy : y.bits.toNat ≠ 2 ^ 63 := fun e => hv (by
      rw [show y = .negativeZero from congrArg Binary64.mk (UInt64.toNat_inj.1 e)])
    have hrank : x.rank = y.rank := by
      simp only [Binary64.same, Bool.and_eq_true, decide_eq_true_eq] at h
      exact h.2
    have hxlt := x.bits.toNat_lt
    have hylt := y.bits.toNat_lt
    simp only [Binary64.rank, Binary64.negative, Binary64.magnitude, decide_eq_true_eq,
      show Nat.pow 2 63 = 2 ^ 63 from rfl] at hrank
    have hbits : x.bits.toNat = y.bits.toNat := by
      split at hrank <;> split at hrank <;> omega
    cases x
    cases y
    exact congrArg Binary64.mk (UInt64.toNat_inj.1 hbits)
  · rw [eq_of_beq h]
  · exact absurd h (by simp)

/-- A constant is added unless it is there, and its number is in range. -/
theorem emits_constant_index {v : Value} {i : UInt32} {s s' : Assembly}
    (h : Emits (constant v) s i s') :
    s' = { s with constants := s'.constants } ∧ s.constants <+: s'.constants ∧
      s'.constants.length ≤ s.constants.length + 1 ∧
      (s'.constants.length < 2 ^ 32 → i.toNat < s'.constants.length) := by
  simp only [constant, emits_bind, emits_get] at h
  obtain ⟨_, _, ⟨rfl, rfl⟩, h⟩ := h
  split at h
  · rename_i n hn
    obtain ⟨rfl, rfl⟩ := emits_pure.1 h
    obtain ⟨hlt, -⟩ := List.findIdx?_eq_some_iff_getElem.1 hn
    refine ⟨rfl, List.prefix_rfl, Nat.le_succ _, fun hsize => ?_⟩
    rw [UInt32.toNat_ofNat', Nat.mod_eq_of_lt (by omega)]
    exact hlt
  · obtain ⟨_, t, ht, h⟩ := emits_bind.1 h
    obtain rfl := emits_modify.1 ht
    obtain ⟨rfl, rfl⟩ := emits_pure.1 h
    refine ⟨rfl, List.prefix_append _ _, by simp, fun hsize => ?_⟩
    simp only [List.length_append, List.length_cons, List.length_nil] at hsize ⊢
    rw [UInt32.toNat_ofNat', Nat.mod_eq_of_lt (by omega)]
    omega

theorem adds_constant {v : Value} {i : UInt32} {s s' : Assembly} (h : Emits (constant v) s i s') :
    Adds s s' [] := by
  obtain ⟨hs, hprefix, -⟩ := emits_constant_index h
  rw [hs]
  exact ⟨by simp, hprefix, List.prefix_rfl, rfl, rfl, rfl⟩

/-- A constant gets a number at which every program that contains the assembly has it. -/
theorem emits_constant {v : Value} {i : UInt32} {s s' : Assembly}
    (h : Emits (constant v) s i s') (hs : Sound s) (hv : v ≠ .real .negativeZero) :
    Adds s s' [] ∧ (∀ c ∈ s'.constants, c ≠ .real .negativeZero) ∧
      s'.constants.length ≤ s.code.length + 1 ∧
      ∀ constants, s'.constants <+: constants → s'.constants.length < 2 ^ 32 →
        constants[i.toNat]? = some v := by
  simp only [constant, emits_bind, emits_get] at h
  obtain ⟨_, _, ⟨rfl, rfl⟩, h⟩ := h
  split at h
  · rename_i n hn
    obtain ⟨rfl, rfl⟩ := emits_pure.1 h
    refine ⟨Adds.refl _, hs.plain, Nat.le_succ_of_le hs.constants_le, fun constants hpre hlt => ?_⟩
    rw [List.findIdx?_eq_some_iff_getElem] at hn
    obtain ⟨hlen, hsame, _⟩ := hn
    have hc := eq_of_same (hs.plain _ (List.getElem_mem hlen)) hv hsame
    rw [UInt32.toNat_ofNat', Nat.mod_eq_of_lt (by omega)]
    obtain ⟨more, rfl⟩ := hpre
    rw [List.getElem?_append_left hlen, List.getElem?_eq_getElem hlen, hc]
  · rw [emits_bind] at h
    obtain ⟨_, t, ht, h⟩ := h
    obtain rfl := emits_modify.1 ht
    obtain ⟨rfl, rfl⟩ := emits_pure.1 h
    refine ⟨⟨by simp, List.prefix_append _ _, List.prefix_rfl, rfl, rfl, rfl⟩, ?_, ?_, ?_⟩
    · intro c hc
      rcases List.mem_append.1 hc with hc | hc
      · exact hs.plain c hc
      · rw [List.mem_singleton.1 hc]
        exact hv
    · have := hs.constants_le
      simp only [List.length_append, List.length_cons, List.length_nil]
      omega
    · rintro constants ⟨more, rfl⟩ hlt
      simp only [List.length_append, List.length_cons, List.length_nil] at hlt
      rw [UInt32.toNat_ofNat', Nat.mod_eq_of_lt (by omega), List.append_assoc,
        List.getElem?_append_right (Nat.le_refl _)]
      simp

/-! ## Patching jumps -/

@[simp] theorem patch_length (jump target : Nat) (code : List Instruction) :
    (patch jump target code).length = code.length := by
  simp [patch]

/-- A jump that stands behind a piece of code is the one that gets the target. -/
theorem patch_append (target : Nat) (before : List Instruction) (ins : Instruction)
    (after : List Instruction) :
    patch before.length target (before ++ ins :: after) =
      before ++ { ins with a := UInt32.ofNat target } :: after := by
  induction before with
  | nil => simp [patch]
  | cons i before ih => simpa [patch] using ih

/-- A jump in front of a piece of code is patched without it. -/
theorem patch_append_left {jump : Nat} (target : Nat) {code : List Instruction}
    (more : List Instruction) (h : jump < code.length) :
    patch jump target (code ++ more) = patch jump target code ++ more := by
  induction code generalizing jump with
  | nil => simp at h
  | cons i code ih =>
    cases jump with
    | zero => simp [patch]
    | succ j =>
      have := @ih j (by simpa using h)
      simpa [patch] using this

theorem emits_landHere {jump : Nat} {u : Unit} {s s' : Assembly} :
    Emits (landHere jump) s u s' ↔ s' = { s with code := patch jump s.code.length s.code } :=
  emits_modify

/-- A jump in front of a block is led behind the block. -/
theorem Adds.landHere {s t s' : Assembly} {ins : Instruction} {block : List Instruction} {u : Unit}
    (h : Adds s t (ins :: block)) (hland : Emits (landHere s.code.length) t u s') :
    Adds s s' ({ ins with a := UInt32.ofNat t.code.length } :: block) := by
  obtain rfl := emits_landHere.1 hland
  refine ⟨?_, h.constants, h.symbols, h.exits, h.conjuncts, h.allowOutcome⟩
  dsimp only
  generalize t.code.length = target
  rw [h.code]
  exact patch_append ..

/-! ## Expressions -/

/-- The operators whose left side may decide, with the jump that leaves out the right side. -/
inductive Decides : BinaryOp → Opcode → Prop
  | and : Decides .and .jumpIfFalse
  | or : Decides .or .jumpIfTrue

/-- How an expression is written, a case for each way. -/
inductive Transcribed : Expr → Assembly → Assembly → Prop
  | literal {position : Nat} {v : Value} {i : UInt32} {s t t' s' : Assembly}
    (constant : Emits (constant v) s i t) (push : Emits (emit .pushConst i 0) t () t')
    (counted : Emits pushed t' () s') : Transcribed (.literal position v) s s'
  | reference {r : Reference} {s s' : Assembly} (load : Emits (load r) s () s') :
    Transcribed (.reference r) s s'
  | present {position : Nat} {r : Reference} {s t s' : Assembly} (load : Emits (load r) s () t)
    (test : Emits (emit .isPresent 0 0) t () s') : Transcribed (.present position r) s s'
  | not {position : Nat} {x : Expr} {s t s' : Assembly} (inner : Transcribed x s t)
    (apply : Emits (emit .not 0 0) t () s') : Transcribed (.unary position .not x) s s'
  | neg {position : Nat} {x : Expr} {s t s' : Assembly} (inner : Transcribed x s t)
    (apply : Emits (emit .neg 0 0) t () s') : Transcribed (.unary position .neg x) s s'
  | strict {position : Nat} {op : BinaryOp} {code : Opcode} {l r : Expr} {s t t' t'' s' : Assembly}
    (both : strictOpcode? op = some code) (left : Transcribed l s t) (right : Transcribed r t t')
    (apply : Emits (emit code 0 0) t' () t'') (counted : Emits popped t'' () s') :
    Transcribed (.binary position op l r) s s'
  | deciding {position : Nat} {op : BinaryOp} {code : Opcode} {l r : Expr}
    {s t t₁ t₂ t₃ t₄ s' : Assembly} (decides : Decides op code) (left : Transcribed l s t)
    (jump : Emits (emit code 0 0) t () t₁) (counted : Emits popped t₁ () t₂)
    (right : Transcribed r t₂ t₃) (check : Emits (emit .checkBool 0 0) t₃ () t₄)
    (land : Emits (landHere t.code.length) t₄ () s') : Transcribed (.binary position op l r) s s'

/-- An expression that is not refused is written in one of these ways. -/
theorem transcribed_of_emits {x : Expr} {s s' : Assembly} (h : Emits (expression x) s () s') :
    Transcribed x s s' := by
  induction x generalizing s s' with
  | literal position v =>
    simp only [expression, emits_bind] at h
    obtain ⟨i, t, hi, _, t', he, hp⟩ := h
    exact .literal hi he hp
  | reference r => exact .reference h
  | present position r =>
    obtain ⟨_, t, hload, he⟩ := emits_bind.1 h
    exact .present hload he
  | unary position op x ih =>
    obtain ⟨_, t, hx, he⟩ := emits_bind.1 h
    cases op with
    | not => exact .not (ih hx) he
    | neg => exact .neg (ih hx) he
  | binary position op l r ihl ihr =>
    obtain ⟨_, t, hl, h⟩ := emits_bind.1 h
    cases hop : strictOpcode? op with
    | some code =>
      simp only [hop, emits_bind] at h
      obtain ⟨_, t', hr, _, t'', he, hp⟩ := h
      exact .strict hop (ihl hl) (ihr hr) he hp
    | none =>
      simp only [hop, emits_bind, emits_here] at h
      obtain ⟨_, _, ⟨rfl, rfl⟩, _, t₁, hj, _, t₂, hp, _, t₃, hr, _, t₄, hc, hland⟩ := h
      cases op with
      | and => exact .deciding .and (ihl hl) hj hp (ihr hr) hc hland
      | or => exact .deciding .or (ihl hl) hj hp (ihr hr) hc hland
      | _ => cases hop

end Assembly
end DecisionEngine
