import DecisionEngine.Proofs.Failure
import DecisionEngine.Proofs.Program.Blocks
/-!
# Guard programs compute conjunctions

The program of a list of conjuncts answers what evaluating the conjuncts from left to right
answers: the truth value if all conjuncts in front of the deciding one are true, or the fault of
the first that faults or has no truth value.  The symbol table may have been filled by programs
assembled before, and may grow by programs assembled later.

* `Assembly.writes_body` — every conjunct is a block that computes its value.
* `Assembly.patched` — the code with the jumps of false conjuncts led to its end.
* `Assembly.answer_conjuncts` — a chain of conjuncts, by induction on the chain.
* `Assembly.answer_finish` — a finished program.
-/

namespace DecisionEngine

open Program (CodeAt FaultCause)

namespace Conjunct

/-- Writes the conjunct, once it is told apart from the one before it. -/
def body : Conjunct → Assembly.Emitter Unit
  | categorical p => do
    let key ← Assembly.symbol p.key
    match p.expected with
    | some text => Assembly.emit .testEquals key (← Assembly.constant (.text text))
    | none => Assembly.emit .testFlag key 0
    Assembly.pushed
  | expression x => Assembly.expression x
  | fired node => do
    Assembly.emit .fired node 0
    Assembly.pushed
  | notFired node => do
    Assembly.emit .notFired node 0
    Assembly.pushed
  | anyFired [] => throw .noNodes
  | anyFired (node :: rest) => do
    Assembly.emit .fired node 0
    Assembly.pushed
    let jumps ← Assembly.orFired rest
    jumps.forM Assembly.landHere

/-- The value that the conjunct leaves. -/
def value (e : Evidence) : Conjunct → Except FaultCause Value
  | expression x => x.value e
  | c => (c.truth e).map .bool

theorem toBool_value (e : Evidence) (c : Conjunct) :
    c.value e >>= Operation.toBool = c.truth e := by
  cases c with
  | expression x => rfl
  | categorical p => rfl
  | fired n => cases h : (fired n).truth e <;> simp [value, h, Except.map, bind, Except.bind,
      Operation.toBool]
  | notFired n => cases h : (notFired n).truth e <;> simp [value, h, Except.map, bind, Except.bind,
      Operation.toBool]
  | anyFired ns => cases h : (anyFired ns).truth e <;> simp [value, h, Except.map, bind,
      Except.bind, Operation.toBool]

end Conjunct

namespace Assembly

variable {s t s' : Assembly}

theorem emits_conjunct {c : Conjunct} {u : Unit} (h : Emits c.emit s u s') :
    ∃ t, Emits beginConjunct s () t ∧ Emits c.body t () s' := by
  cases c with
  | anyFired ns =>
    cases ns with
    | nil => exact absurd h not_emits_throw
    | cons n ns =>
      obtain ⟨_, t, hb, hr⟩ := emits_bind.1 h
      exact ⟨t, hb, hr⟩
  | _ =>
    obtain ⟨_, t, hb, hr⟩ := emits_bind.1 h
    exact ⟨t, hb, hr⟩

/-! ## Tests of what has fired -/

/-- The instructions of a chain of tests, each jumped over when the one before it is true. -/
def orBlock (target : UInt32) (nodes : List UInt32) : List Instruction :=
  nodes.flatMap fun n => [⟨.jumpIfTrue, target, 0⟩, ⟨.fired, n, 0⟩]

/-- The places of the jumps of such a chain. -/
def orJumps (start : Nat) : List UInt32 → List Nat
  | [] => []
  | _ :: rest => start :: orJumps (start + 2) rest

theorem emits_orFired {nodes : List UInt32} {jumps : List Nat}
    (h : Emits (orFired nodes) s jumps s') :
    Adds s s' (orBlock 0 nodes) ∧ s'.constants = s.constants ∧
      jumps = orJumps s.code.length nodes := by
  induction nodes generalizing s jumps with
  | nil =>
    obtain ⟨rfl, rfl⟩ := emits_pure.1 h
    exact ⟨Adds.refl _, rfl, rfl⟩
  | cons n rest ih =>
    simp only [orFired, emits_bind, emits_here, emits_pure] at h
    obtain ⟨_, _, ⟨rfl, rfl⟩, _, t₁, hj, _, t₂, hp, _, t₃, hf, _, t₄, hq, more, t₅, hr, rfl, rfl⟩ :=
      h
    obtain ⟨ha, hc, rfl⟩ := ih hr
    have hadds := ((adds_emit hj).trans (adds_popped hp)).trans
      ((adds_emit hf).trans (adds_pushed hq))
    refine ⟨by simpa [orBlock] using hadds.trans ha, ?_, ?_⟩
    · rw [hc, emits_modify.1 hq, emits_emit.1 hf, emits_modify.1 hp, emits_emit.1 hj]
    · have hlen := hadds.length
      simp only [List.length_append, List.length_cons, List.length_nil] at hlen
      rw [orJumps, hlen]

theorem emits_landAll {jumps : List Nat} {u : Unit}
    (h : Emits (jumps.forM landHere) s u s') :
    s' = { s with code := jumps.foldl (fun code j => patch j s.code.length code) s.code } := by
  induction jumps generalizing s with
  | nil => exact (emits_pure.1 h).2
  | cons j rest ih =>
    obtain ⟨_, t, hj, hr⟩ := emits_bind.1 h
    obtain rfl := emits_landHere.1 hj
    rw [ih hr]
    simp

theorem foldl_patch_orJumps (target : Nat) (before : List Instruction) (nodes : List UInt32) :
    (orJumps before.length nodes).foldl (fun code j => patch j target code)
      (before ++ orBlock 0 nodes) = before ++ orBlock (UInt32.ofNat target) nodes := by
  induction nodes generalizing before with
  | nil => rfl
  | cons n rest ih =>
    have hblock : ∀ a, orBlock a (n :: rest) =
        ⟨.jumpIfTrue, a, 0⟩ :: ⟨.fired, n, 0⟩ :: orBlock a rest := fun a => rfl
    rw [orJumps, List.foldl_cons, hblock, patch_append]
    have h := ih (before ++ [⟨.jumpIfTrue, UInt32.ofNat target, 0⟩, ⟨.fired, n, 0⟩])
    simpa [hblock] using h

/-- A chain of tests whose first answer is on the stack. -/
theorem answer_orBlock {p : Program} {names : List Bytes} {e : Evidence} {target : UInt32}
    {nodes : List UInt32} {pc : Nat} {b : Bool} {stack : List Value}
    (hc : CodeAt p.code pc (orBlock target nodes))
    (ht : target.toNat = pc + (orBlock target nodes).length) (hle : target.toNat ≤ p.code.length) :
    p.answerFrom (e.env names) pc (.bool b :: stack) =
      (if b then .ok true else Conjunct.someFired e nodes) >>= fun v =>
        p.answerFrom (e.env names) target.toNat (.bool v :: stack) := by
  induction nodes generalizing pc b with
  | nil =>
    have hend : target.toNat = pc := by simpa [orBlock] using ht
    rw [hend]
    cases b <;> rfl
  | cons n rest ih =>
    have hblock : orBlock target (n :: rest) =
        ⟨.jumpIfTrue, target, 0⟩ :: ⟨.fired, n, 0⟩ :: orBlock target rest := rfl
    rw [hblock] at hc ht
    simp only [List.length_cons] at ht
    rw [Program.answerFrom_step hc.head]
    cases b with
    | true =>
      have hforward : pc < target.toNat ∧ target.toNat ≤ p.code.length := ⟨by omega, hle⟩
      simp [Program.step, Program.jumpIf, Program.topBool, Operation.toBool, bind, Except.bind,
        pure, Except.pure, Program.follow, hforward]
    | false =>
      have hjump : p.step (e.env names) ⟨.jumpIfTrue, target, 0⟩ (.bool false :: stack) =
          .ok (.proceed stack) := rfl
      rw [hjump]
      simp only [bind, Except.bind, Program.follow, Conjunct.someFired, if_neg Bool.false_ne_true]
      rw [Program.answerFrom_step hc.tail.head]
      simp only [Program.step, Program.nodeFired_env, bind, Except.bind, pure, Except.pure]
      cases hn : e.nodeFired n with
      | error f => rfl
      | ok c =>
        simp only [Program.follow]
        rw [ih hc.tail.tail (by omega)]
        cases c <;> rfl

/-- A test of several nodes is a block of which all jumps go to its end. -/
theorem adds_anyFired {node : UInt32} {rest : List UInt32} {u : Unit}
    (h : Emits (Conjunct.anyFired (node :: rest)).body s u s') :
    Adds s s' (⟨.fired, node, 0⟩ :: orBlock (UInt32.ofNat s'.code.length) rest) ∧
      s'.constants = s.constants := by
  simp only [Conjunct.body, emits_bind] at h
  obtain ⟨_, t₁, hf, _, t₂, hp, jumps, t₃, hr, hland⟩ := h
  obtain ⟨hor, hconst, rfl⟩ := emits_orFired hr
  have hfirst := (adds_emit hf).trans (adds_pushed hp)
  have hadds := hfirst.trans hor
  obtain rfl := emits_landAll hland
  have hpatched := foldl_patch_orJumps t₃.code.length t₂.code rest
  rw [← hor.code] at hpatched
  have hsize : (t₂.code ++ orBlock (UInt32.ofNat t₃.code.length) rest).length =
      t₃.code.length := by
    rw [hor.length]
    simp [orBlock]
  refine ⟨⟨?_, hadds.constants, hadds.symbols, hadds.exits, hadds.conjuncts,
    hadds.allowOutcome⟩, ?_⟩
  · dsimp only
    rw [hpatched, hsize, hfirst.code]
    simp
  · rw [hconst, emits_modify.1 hp, emits_emit.1 hf]

theorem writes_anyFired {node : UInt32} {rest : List UInt32} {u : Unit}
    (h : Emits (Conjunct.anyFired (node :: rest)).body s u s') (hs : Sound s) :
    ∃ block, Writes s s' block fun e => (Conjunct.anyFired (node :: rest)).value e := by
  obtain ⟨hadds, hconst⟩ := adds_anyFired h
  refine ⟨_, hadds, hs.of_code hadds.code hconst, ?_⟩
  intro p names e hlink hc stack
  have hle := hlink.code_le
  have htarget : (UInt32.ofNat s'.code.length).toNat = s'.code.length := by
    have hlt := hlink.code_lt
    rw [UInt32.toNat_ofNat', Nat.mod_eq_of_lt (by omega)]
  rw [Program.answerFrom_step hc.head]
  simp only [Program.step, Program.nodeFired_env, bind, Except.bind, pure, Except.pure,
    Conjunct.value, Conjunct.truth, Conjunct.someFired, Except.map]
  cases hn : e.nodeFired node with
  | error f => rfl
  | ok b =>
    have hlength := hadds.length
    rw [List.length_cons] at hlength
    simp only [Program.follow]
    rw [answer_orBlock hc.tail (by rw [htarget]; omega) (by rw [htarget]; exact hle), htarget]
    cases b with
    | true => rfl
    | false => cases Conjunct.someFired e rest <;> rfl

/-! ## Single conjuncts -/

/-- How a predicate is written: its key, and then a test of it, for a text if it expects one. -/
theorem emits_categorical {q : Predicate} {u : Unit}
    (h : Emits (Conjunct.categorical q).body s u s') : ∃ key t, Emits (symbol q.key) s key t ∧
      (q.expected = none ∧ (∃ t', Emits (emit .testFlag key 0) t () t' ∧ Emits pushed t' () s') ∨
        ∃ text, q.expected = some text ∧ ∃ i t' t'', Emits (constant (.text text)) t i t' ∧
          Emits (emit .testEquals key i) t' () t'' ∧ Emits pushed t'' () s') := by
  simp only [Conjunct.body, emits_bind] at h
  obtain ⟨key, t, hkey, h⟩ := h
  refine ⟨key, t, hkey, ?_⟩
  cases hq : q.expected with
  | none =>
    simp only [hq, emits_bind] at h
    obtain ⟨_, t', he, hp⟩ := h
    exact .inl ⟨rfl, t', he, hp⟩
  | some text =>
    simp only [hq, emits_bind] at h
    obtain ⟨i, t', hi, _, t'', he, hp⟩ := h
    exact .inr ⟨text, rfl, i, t', t'', hi, he, hp⟩

theorem writes_categorical {q : Predicate} {u : Unit}
    (h : Emits (Conjunct.categorical q).body s u s') (hs : Sound s) :
    ∃ block, Writes s s' block fun e => (Conjunct.categorical q).value e := by
  obtain ⟨key, t, hkey, h⟩ := emits_categorical h
  have hsym := adds_symbol hkey
  have hconst : t.constants = s.constants := by rw [(emits_symbol.1 hkey).2]
  have ht : Sound t := hs.of_code hsym.code hconst
  rcases h with ⟨hq, t', he, hp⟩ | ⟨text, hq, i, t', t'', hi, he, hp⟩
  · refine ⟨_, Writes.push hsym he hp ht.plain ?_ fun p names e hlink _ stack => ?_⟩
    · have := ht.constants_le
      have := hsym.length
      simp only [List.length_nil] at this
      omega
    · have hname := symbol_linked hkey ((hlink.mono (adds_pushed hp)).mono (adds_emit he))
      simp only [Program.step, Evidence.env, Program.slot_bind hname, Conjunct.value,
        Conjunct.truth, Except.map, Predicate.holds, hq]
      cases e.context.find? q.key <;> rfl
  · obtain ⟨ha, hplain, hlen, hfind⟩ := emits_constant hi ht (by simp)
    have hadds : Adds s t' [] := hsym.trans ha
    refine ⟨_, Writes.push hadds he hp hplain ?_ fun p names e hlink hlt stack => ?_⟩
    · have := hsym.length
      simp only [List.length_nil] at this
      omega
    · have hlink' := (hlink.mono (adds_pushed hp)).mono (adds_emit he)
      have hname := symbol_linked hkey (hlink'.mono ha)
      simp only [Program.step, Program.constant, hfind _ hlink'.constants hlt, Evidence.env,
        Program.slot_bind hname, Conjunct.value, Conjunct.truth, Except.map, Predicate.holds, hq]
      cases e.context.find? q.key <;> rfl

/-- Every conjunct is a block that computes its value. -/
theorem writes_body {c : Conjunct} {u : Unit} (h : Emits c.body s u s') (hs : Sound s)
    (hc : c.hasNegativeZero = false) : ∃ block, Writes s s' block fun e => c.value e := by
  have flag : ∀ {op : Opcode} {node : UInt32} {m : Evidence → Except FaultCause Value},
      Emits (do emit op node 0; pushed) s u s' →
      (∀ (p : Program) names (e : Evidence) stack,
        p.step (e.env names) ⟨op, node, 0⟩ stack = (m e).map fun v => .proceed (v :: stack)) →
      ∃ block, Writes s s' block m := by
    intro op node m h hstep
    obtain ⟨_, t, he, hp⟩ := emits_bind.1 h
    exact ⟨_, Writes.push (Adds.refl s) he hp hs.plain (Nat.le_succ_of_le hs.constants_le)
      fun p names e _ _ stack => hstep p names e stack⟩
  cases c with
  | categorical q => exact writes_categorical h hs
  | expression x => exact writes_expression h hs hc
  | fired node =>
    refine flag h fun p names e stack => ?_
    simp only [Program.step, Program.nodeFired_env, Conjunct.value, Conjunct.truth]
    cases e.nodeFired node <;> rfl
  | notFired node =>
    refine flag h fun p names e stack => ?_
    simp only [Program.step, Program.nodeFired_env, Conjunct.value, Conjunct.truth]
    cases e.nodeFired node <;> rfl
  | anyFired nodes =>
    cases nodes with
    | nil => exact absurd h not_emits_throw
    | cons node rest => exact writes_anyFired h hs

/-! ## Chains of conjuncts -/

/-- The code with the jumps of false conjuncts led to a target. -/
def patched (target : Nat) (s : Assembly) : List Instruction :=
  s.exits.foldl (fun code j => patch j target code) s.code

/-- Every jump of a false conjunct stands in the code. -/
def ExitsInside (s : Assembly) : Prop := ∀ j ∈ s.exits, j < s.code.length

theorem Adds.exitsInside {block : List Instruction} (h : Adds s s' block) (hs : ExitsInside s) :
    ExitsInside s' := by
  intro j hj
  rw [h.exits] at hj
  rw [h.length]
  exact Nat.lt_add_right _ (hs j hj)

theorem foldl_patch_length (target : Nat) (exits : List Nat) (code : List Instruction) :
    (exits.foldl (fun code j => patch j target code) code).length = code.length := by
  induction exits generalizing code with
  | nil => rfl
  | cons j exits ih => rw [List.foldl_cons, ih, patch_length]

@[simp] theorem patched_length (target : Nat) (s : Assembly) :
    (patched target s).length = s.code.length :=
  foldl_patch_length _ _ _

theorem foldl_patch_append {target : Nat} {exits : List Nat} {code : List Instruction}
    (h : ∀ j ∈ exits, j < code.length) (more : List Instruction) :
    exits.foldl (fun code j => patch j target code) (code ++ more) =
      exits.foldl (fun code j => patch j target code) code ++ more := by
  induction exits generalizing code with
  | nil => rfl
  | cons j exits ih =>
    rw [List.foldl_cons, List.foldl_cons, patch_append_left target more (h j (by simp))]
    refine ih fun i hi => ?_
    rw [patch_length]
    exact h i (List.mem_cons_of_mem _ hi)

/-- The first conjunct of a program starts where the code ends. -/
theorem emits_beginConjunct_first {u : Unit} (h : Emits beginConjunct s u t)
    (hfirst : s.conjuncts = 0) : t = { s with conjuncts := s.conjuncts + 1 } := by
  simp only [beginConjunct, emits_bind, emits_get] at h
  obtain ⟨_, _, ⟨rfl, rfl⟩, h⟩ := h
  rw [if_neg (by omega)] at h
  exact emits_modify.1 h

/-- A further conjunct starts behind a jump, which is taken when the one before it is false. -/
theorem emits_beginConjunct_next {u : Unit} (h : Emits beginConjunct s u t)
    (hnext : 0 < s.conjuncts) :
    t = { s with
      code := s.code ++ [⟨.jumpIfFalse, 0, 0⟩]
      exits := s.exits ++ [s.code.length]
      conjuncts := s.conjuncts + 1
      depth := s.depth - 1 } := by
  simp only [beginConjunct, emits_bind, emits_get] at h
  obtain ⟨_, _, ⟨rfl, rfl⟩, h⟩ := h
  rw [if_pos hnext] at h
  simp only [emits_bind, emits_here, emits_modify, emits_emit, popped] at h
  obtain ⟨_, _, ⟨rfl, rfl⟩, _, _, rfl, _, _, rfl, _, _, rfl, rfl⟩ := h
  rfl

theorem exitsInside_next {ins : Instruction} (h : ExitsInside s)
    (hcode : t.code = s.code ++ [ins]) (hexits : t.exits = s.exits ++ [s.code.length]) :
    ExitsInside t := by
  intro j hj
  rw [hexits] at hj
  rw [hcode, List.length_append]
  rcases List.mem_append.1 hj with hj | hj
  · exact Nat.lt_succ_of_lt (h j hj)
  · rw [List.mem_singleton.1 hj]
    exact Nat.lt_succ_self _

/-- The jump that was written last is led to the target, and what is written behind it stays. -/
theorem patched_next {ins : Instruction} {block : List Instruction} (h : ExitsInside s)
    (hcode : t.code = s.code ++ ins :: block) (hexits : t.exits = s.exits ++ [s.code.length])
    (target : Nat) :
    patched target t = patched target s ++ { ins with a := UInt32.ofNat target } :: block := by
  have hjump := patch_append target (patched target s) ins block
  rw [patched_length] at hjump
  rw [patched, hcode, hexits, List.foldl_append, foldl_patch_append h]
  exact hjump

/-- What a chain of conjuncts leaves in place, and that its jumps are in order. -/
structure Chained (s s' : Assembly) : Prop where
  constants : s.constants <+: s'.constants
  symbols : s.symbols.names <+: s'.symbols.names
  code_le : s.code.length ≤ s'.code.length
  allowOutcome : s'.allowOutcome = s.allowOutcome
  conjuncts : 0 < s'.conjuncts
  exits : ExitsInside s'
  sound : Sound s'

theorem Linked.of_chained {p : Program} {names : List Bytes} (h : Linked p names s')
    (h' : Chained s s') : Linked p names s :=
  ⟨h'.constants.trans h.constants, h'.symbols.trans h.symbols, h.names_le,
    Nat.le_trans h'.code_le h.code_le, h.code_lt⟩

theorem Chained.trans (h : Chained s t) (h' : Chained t s') : Chained s s' :=
  ⟨h.constants.trans h'.constants, h.symbols.trans h'.symbols,
    Nat.le_trans h.code_le h'.code_le, h'.allowOutcome.trans h.allowOutcome, h'.conjuncts,
    h'.exits, h'.sound⟩

/-- The first conjunct of a program. -/
theorem chained_first {c : Conjunct} {u : Unit} (h : Emits c.emit s u s')
    (hfirst : s.conjuncts = 0) (hexits : s.exits = []) (hs : Sound s)
    (hc : c.hasNegativeZero = false) :
    Chained s s' ∧ s'.exits = [] ∧ ∃ block, s'.code = s.code ++ block ∧
      ∀ (p : Program) (names : List Bytes) (e : Evidence), Linked p names s' →
        CodeAt p.code s.code.length block → ∀ stack,
          p.answerFrom (e.env names) s.code.length stack =
            c.value e >>= fun v => p.answerFrom (e.env names) s'.code.length (v :: stack) := by
  obtain ⟨t, hb, hbody⟩ := emits_conjunct h
  have ht := emits_beginConjunct_first hb hfirst
  have hst : Sound t := by
    rw [ht]
    exact ⟨hs.constants_le, hs.plain⟩
  obtain ⟨block, hw⟩ := writes_body hbody hst hc
  have hcode : t.code = s.code := by rw [ht]
  have hexits' : s'.exits = [] := by rw [hw.adds.exits, ht, hexits]
  refine ⟨⟨?_, ?_, ?_, ?_, ?_, ?_, hw.sound⟩, hexits', block, hcode ▸ hw.adds.code, ?_⟩
  · simpa [ht] using hw.adds.constants
  · simpa [ht] using hw.adds.symbols
  · rw [hw.adds.length, hcode]
    omega
  · rw [hw.adds.allowOutcome, ht]
  · rw [hw.adds.conjuncts, ht]
    exact Nat.succ_pos _
  · intro j hj
    rw [hexits'] at hj
    cases hj
  · intro p names e hlink hat stack
    have h := hw.runs p names e hlink (by rw [hcode]; exact hat) stack
    rwa [hcode] at h

/-- A further conjunct: the one before it jumps to the end when it is false. -/
theorem chained_next {c : Conjunct} {u : Unit} (h : Emits c.emit s u s')
    (hnext : 0 < s.conjuncts) (hexits : ExitsInside s) (hs : Sound s)
    (hc : c.hasNegativeZero = false) :
    Chained s s' ∧ ∃ block,
      (∀ target, patched target s' =
        patched target s ++ ⟨.jumpIfFalse, UInt32.ofNat target, 0⟩ :: block) ∧
      ∀ (p : Program) (names : List Bytes) (e : Evidence), Linked p names s' →
        CodeAt p.code (s.code.length + 1) block → ∀ stack,
          p.answerFrom (e.env names) (s.code.length + 1) stack =
            c.value e >>= fun v => p.answerFrom (e.env names) s'.code.length (v :: stack) := by
  obtain ⟨t, hb, hbody⟩ := emits_conjunct h
  have ht : t.code = s.code ++ [⟨.jumpIfFalse, 0, 0⟩] ∧ t.exits = s.exits ++ [s.code.length] ∧
      t.constants = s.constants ∧ t.symbols = s.symbols ∧ t.conjuncts = s.conjuncts + 1 ∧
      t.allowOutcome = s.allowOutcome := by
    rw [emits_beginConjunct_next hb hnext]
    exact ⟨rfl, rfl, rfl, rfl, rfl, rfl⟩
  obtain ⟨hcode, hex, hconst, hsym, hconj, hallow⟩ := ht
  have hst : Sound t := hs.of_code hcode hconst
  obtain ⟨block, hw⟩ := writes_body hbody hst hc
  have hlen : t.code.length = s.code.length + 1 := by rw [hcode]; simp
  refine ⟨⟨?_, ?_, ?_, ?_, ?_, ?_, hw.sound⟩, block, ?_, ?_⟩
  · exact hconst ▸ hw.adds.constants
  · exact hsym ▸ hw.adds.symbols
  · rw [hw.adds.length, hlen]
    omega
  · rw [hw.adds.allowOutcome, hallow]
  · rw [hw.adds.conjuncts, hconj]
    exact Nat.succ_pos _
  · exact hw.adds.exitsInside (exitsInside_next hexits hcode hex)
  · have hfull : s'.code = s.code ++ ⟨.jumpIfFalse, 0, 0⟩ :: block := by
      rw [hw.adds.code, hcode]
      simp
    exact patched_next hexits hfull (by rw [hw.adds.exits, hex])
  · intro p names e hlink hat stack
    have h := hw.runs p names e hlink (by rw [hlen]; exact hat) stack
    rwa [hlen] at h

/-- The end of a program answers the truth value that is left. -/
theorem answer_ending {p : Program} {env : Program.Env} {n : Nat}
    (hat : CodeAt p.code n [⟨.checkBool, 0, 0⟩, ⟨.return, 0, 0⟩]) (v : Value) :
    p.answerFrom env n [v] = Operation.toBool v := by
  rw [Program.answerFrom_step hat.head]
  cases hv : Operation.toBool v with
  | error f => simp [Program.step, Program.topBool, hv, bind, Except.bind]
  | ok b =>
    simp only [Program.step, Program.topBool, hv, bind, Except.bind, pure, Except.pure,
      Program.follow]
    rw [Program.answerFrom_step hat.tail.head]
    cases b <;> simp [Program.step, Program.topBool, hv, bind, Except.bind, pure, Except.pure,
      Program.follow]

/-- A jump to the return at the end is taken with a false value; a true one goes on. -/
theorem answer_exit {p : Program} {env : Program.Env} {n target : Nat}
    (hjump : p.code[n]? = some ⟨.jumpIfFalse, UInt32.ofNat target, 0⟩)
    (hforward : n < target ∧ target ≤ p.code.length) (hsize : p.code.length < 2 ^ 32)
    (hreturn : p.code[target]? = some ⟨.return, 0, 0⟩) (v : Value) :
    p.answerFrom env n [v] = do
      if ← Operation.toBool v then p.answerFrom env (n + 1) [] else return false := by
  rw [Program.answerFrom_jumpIf hjump (fun _ => rfl) hforward hsize]
  cases hv : Operation.toBool v with
  | error f => rfl
  | ok b =>
    cases b with
    | true => rfl
    | false =>
      simp only [bind, Except.bind, if_true]
      rw [Program.answerFrom_step hreturn]
      obtain rfl : v = .bool false := by
        cases v <;> simp [Operation.toBool] at hv
        rw [hv]
      rfl

/-- How a conjunct of a chain stands in the code of a program: a jump in front of its block leads
forward to the return at the end, and behind the block the chain goes on. -/
structure ConjunctAt (code : List Instruction) (s t s' : Assembly)
    (block rest : List Instruction) : Prop where
  jump : code[s.code.length]? = some ⟨.jumpIfFalse, UInt32.ofNat (s'.code.length + 1), 0⟩
  forward : s.code.length < s'.code.length + 1
  exit : code[s'.code.length + 1]? = some ⟨.return, 0, 0⟩
  block : CodeAt code (s.code.length + 1) block
  rest : CodeAt code t.code.length rest

/-- Where the parts of a chain stand follows from what its states have written. -/
theorem conjunctAt_of_patched {code block : List Instruction} {tail : Nat → List Instruction}
    (hblock : ∀ target, patched target t =
      patched target s ++ ⟨.jumpIfFalse, UInt32.ofNat target, 0⟩ :: block)
    (htail : ∀ target, patched target s' = patched target t ++ tail target)
    (hat : CodeAt code s.code.length (⟨.jumpIfFalse, UInt32.ofNat (s'.code.length + 1), 0⟩ ::
      block ++ tail (s'.code.length + 1) ++ [⟨.checkBool, 0, 0⟩, ⟨.return, 0, 0⟩])) :
    ConjunctAt code s t s' block
      (tail (s'.code.length + 1) ++ [⟨.checkBool, 0, 0⟩, ⟨.return, 0, 0⟩]) := by
  have hlent : t.code.length = s.code.length + 1 + block.length := by
    have := congrArg List.length (hblock 0)
    simp only [patched_length, List.length_append, List.length_cons] at this
    omega
  have hlens : s'.code.length = t.code.length + (tail (s'.code.length + 1)).length := by
    have := congrArg List.length (htail (s'.code.length + 1))
    simpa only [patched_length, List.length_append] using this
  have hexit := hat.right.tail.head
  simp only [List.length_append, List.length_cons] at hexit
  simp only [List.append_assoc] at hat
  refine ⟨hat.head, by omega, ?_, hat.tail.left, hlent ▸ hat.tail.right⟩
  rwa [show s.code.length + (block.length + 1 + (tail (s'.code.length + 1)).length) + 1 =
    s'.code.length + 1 by omega] at hexit

/-- A chain of conjuncts behind a value.  The induction is on the chain: a false value leaves over
the jump behind it, a true one goes on with the next conjunct. -/
theorem answer_conjuncts {cs : List Conjunct} {u : Unit} {s s' : Assembly}
    (h : Emits (cs.forM Conjunct.emit) s u s') (hnext : 0 < s.conjuncts) (hexits : ExitsInside s)
    (hs : Sound s) (hcs : ∀ c ∈ cs, c.hasNegativeZero = false) :
    Chained s s' ∧ ∃ tail : Nat → List Instruction,
      (∀ target, patched target s' = patched target s ++ tail target) ∧
      ∀ (p : Program) (names : List Bytes) (e : Evidence), Linked p names s' →
        p.code.length = s'.code.length + 2 →
        CodeAt p.code s.code.length
          (tail (s'.code.length + 1) ++ [⟨.checkBool, 0, 0⟩, ⟨.return, 0, 0⟩]) →
        ∀ v, p.answerFrom (e.env names) s.code.length [v] = do
          if ← Operation.toBool v then Conjunct.allTrue e cs else return false := by
  induction cs generalizing s with
  | nil =>
    obtain ⟨-, rfl⟩ := emits_pure.1 h
    refine ⟨⟨List.prefix_rfl, List.prefix_rfl, Nat.le_refl _, rfl, hnext, hexits, hs⟩,
      fun _ => [], by simp, ?_⟩
    intro p names e hlink hlen hat v
    rw [answer_ending hat]
    cases Operation.toBool v with
    | error f => rfl
    | ok b => cases b <;> rfl
  | cons c cs ih =>
    obtain ⟨_, t, hc, hrest⟩ := emits_bind.1 h
    obtain ⟨hfirst, block, hpatched, hruns⟩ := chained_next hc hnext hexits hs (hcs c (by simp))
    obtain ⟨hmore, tail, htail, hanswer⟩ := ih hrest hfirst.conjuncts hfirst.exits hfirst.sound
      fun d hd => hcs d (List.mem_cons_of_mem _ hd)
    refine ⟨hfirst.trans hmore, fun target => ⟨.jumpIfFalse, UInt32.ofNat target, 0⟩ :: block ++
      tail target, fun target => by rw [htail, hpatched]; simp, ?_⟩
    intro p names e hlink hlen hat v
    have hstands := conjunctAt_of_patched hpatched htail hat
    have hforward : s.code.length < s'.code.length + 1 ∧ s'.code.length + 1 ≤ p.code.length :=
      ⟨hstands.forward, by omega⟩
    rw [answer_exit hstands.jump hforward (by have := hlink.code_lt; omega) hstands.exit,
      hruns p names e (hlink.of_chained hmore) hstands.block, Conjunct.allTrue,
      ← Conjunct.toBool_value]
    congr 1
    funext b
    cases b with
    | false => rfl
    | true =>
      cases hm : c.value e with
      | error f => rfl
      | ok w =>
        simp only [bind, Except.bind]
        exact hanswer p names e hlink hlen hstands.rest w

/-! ## Finished programs -/

/-- A program with conjuncts ends with a check and a return; false conjuncts jump to the return. -/
theorem finish_eq (hne : s.conjuncts ≠ 0) (hexits : ExitsInside s) :
    s.finish.1 = ⟨patched (s.code.length + 1) s ++ [⟨.checkBool, 0, 0⟩, ⟨.return, 0, 0⟩],
      s.constants, s.maxStack⟩ := by
  simp only [finish, if_neg hne, List.length_append, List.length_cons, List.length_nil]
  rw [foldl_patch_append hexits, List.append_assoc]
  rfl

/-- A finished program answers what its conjuncts come to. -/
theorem answer_finish {cs : List Conjunct} {symbols : SymbolTable} {allowOutcome : Bool} {u : Unit}
    (h : Emits (cs.forM Conjunct.emit) (.start symbols allowOutcome) u s)
    (hcs : ∀ c ∈ cs, c.hasNegativeZero = false) (hlt : s.finish.1.code.length < 2 ^ 32)
    {names : List Bytes} (hnames : s.symbols.names <+: names) (hle : names.length ≤ 2 ^ 32)
    (e : Evidence) :
    (s.finish.1.run (e.env names)).mapError (·.cause) = Conjunct.allTrue e cs := by
  cases cs with
  | nil =>
    obtain ⟨-, rfl⟩ := emits_pure.1 h
    rfl
  | cons c cs =>
    obtain ⟨_, t, hc, hrest⟩ := emits_bind.1 h
    have hsound : Sound (.start symbols allowOutcome) :=
      ⟨Nat.le_refl _, fun _ hd => absurd hd (by simp [start])⟩
    obtain ⟨hfirst, hexits, block, hcode, hruns⟩ :=
      chained_first hc rfl rfl hsound (hcs c (by simp))
    obtain ⟨hmore, tail, htail, hanswer⟩ := answer_conjuncts hrest hfirst.conjuncts hfirst.exits
      hfirst.sound fun d hd => hcs d (List.mem_cons_of_mem _ hd)
    have hne : s.conjuncts ≠ 0 := Nat.pos_iff_ne_zero.1 hmore.conjuncts
    have hp := finish_eq hne hmore.exits
    have hpt : patched (s.code.length + 1) t = t.code := by
      rw [patched, hexits]
      rfl
    have hstart : (start symbols allowOutcome).code = [] := rfl
    rw [hstart, List.nil_append] at hcode
    rw [hp] at hlt ⊢
    simp only [List.length_append, patched_length, List.length_cons, List.length_nil] at hlt
    have hlink : Linked ⟨patched (s.code.length + 1) s ++ [⟨.checkBool, 0, 0⟩, ⟨.return, 0, 0⟩],
        s.constants, s.maxStack⟩ names s :=
      ⟨List.prefix_rfl, hnames, hle, by simp, by simpa using hlt⟩
    rw [Program.run, if_neg (by simp [Program.isEmpty])]
    have hanswer₀ := hruns _ names e (hlink.of_chained hmore)
      ⟨[], tail (s.code.length + 1) ++ [⟨.checkBool, 0, 0⟩, ⟨.return, 0, 0⟩],
        by simp [htail, hpt, hcode], rfl⟩ []
    rw [hstart, List.length_nil, Program.answerFrom] at hanswer₀
    rw [hanswer₀, Conjunct.allTrue, ← Conjunct.toBool_value]
    cases hm : c.value e with
    | error f => rfl
    | ok v =>
      simp only [bind, Except.bind]
      refine hanswer _ names e hlink (by simp) ⟨t.code, [], ?_, rfl⟩ v
      simp [htail, hpt]

/-- A guard with a label, an expression, and tests of what has fired. -/
def sampleConjuncts : List Conjunct :=
  [.categorical ⟨utf8 "tier", some (utf8 "gold"), by decide, by decide⟩,
    .expression (.binary 0 .or (.reference ⟨0, .context, utf8 "vip"⟩)
      (.binary 0 .lt (.literal 0 (.int 1)) (.literal 0 (.int 2)))),
    .notFired 0,
    .anyFired [2, 1]]

/-- The guard as it is assembled. -/
def sampleAssembly : Assembly :=
  ((sampleConjuncts.forM Conjunct.emit).run.run (.start .empty false)).2

/-- What the guard is tested on. -/
def sampleEvidence : Evidence :=
  ⟨.ofList [(utf8 "tier", .text (utf8 "gold")), (utf8 "vip", .bool false)], .empty, .empty,
    [false, true, false]⟩

end Assembly
end DecisionEngine
