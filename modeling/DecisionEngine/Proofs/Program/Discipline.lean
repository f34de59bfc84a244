import DecisionEngine.Proofs.Program.Conjunction
import DecisionEngine.Proofs.Program.Steadiness
/-!
# The stack discipline of guard programs

An assembly knows how many values are on the stack behind its last instruction, whichever way a run
comes there: a short circuit jumps with the value that its right side would have left, and so does a
chain of tests or a conjunct that is false.  So a finished program runs steadily.

* `Assembly.Level` — the counts of an assembly are in order.
* `Assembly.Keeps` — a block that leaves one value: it is steady where what is behind it is.
* `Assembly.keeps_expression` — by induction on the expression.
* `Assembly.steady_conjuncts` — by induction on the chain of conjuncts.
* `Assembly.stack_discipline` — finished programs.
-/

namespace DecisionEngine
namespace Assembly

open Program (Blameless CodeAt FaultCause Steady)

variable {s t s' : Assembly}

/-! ## Counts -/

/-- There are no more values on the stack than instructions, nor than there is to be room for, and
no more constants than instructions. -/
structure Level (s : Assembly) : Prop where
  depth_le : s.depth.toNat ≤ s.code.length
  depth_max : s.depth.toNat ≤ s.maxStack.toNat
  constants_le : s.constants.length ≤ s.code.length

/-- A program has all constants of an assembly, room for its stack, and its code. -/
structure Hosts (p : Program) (s : Assembly) : Prop where
  constants_le : s.constants.length ≤ p.constants.length
  stack_le : s.maxStack.toNat ≤ p.maxStack.toNat
  code_le : s.code.length ≤ p.code.length
  code_lt : p.code.length < 2 ^ 32

/-- Nothing of an assembly is taken back. -/
structure Grows (s s' : Assembly) : Prop where
  constants_le : s.constants.length ≤ s'.constants.length
  stack_le : s.maxStack.toNat ≤ s'.maxStack.toNat
  code_le : s.code.length ≤ s'.code.length

theorem Grows.trans (h : Grows s t) (h' : Grows t s') : Grows s s' :=
  ⟨Nat.le_trans h.constants_le h'.constants_le, Nat.le_trans h.stack_le h'.stack_le,
    Nat.le_trans h.code_le h'.code_le⟩

theorem Hosts.mono {p : Program} (h : Hosts p s') (hg : Grows s s') : Hosts p s :=
  ⟨Nat.le_trans hg.constants_le h.constants_le, Nat.le_trans hg.stack_le h.stack_le,
    Nat.le_trans hg.code_le h.code_le, h.code_lt⟩

/-- Places in a program are numbers of 32 bits. -/
theorem Hosts.toNat_ofNat {p : Program} {i : Nat} (h : Hosts p s) (hi : i ≤ p.code.length) :
    (UInt32.ofNat i).toNat = i := by
  have := h.code_lt
  rw [UInt32.toNat_ofNat', Nat.mod_eq_of_lt (by omega)]

theorem Level.fits {p : Program} {stack : List Value} (hs : Level s) (hp : Hosts p s)
    (hstack : stack.length = s.depth.toNat) : stack.length ≤ p.maxStack.toNat := by
  rw [hstack]
  exact Nat.le_trans hs.depth_max hp.stack_le

/-- While there are fewer than `2 ^ 32` instructions, the count of values on the stack is right. -/
theorem Level.toNat_succ {p : Program} (hs : Level s) (hp : Hosts p s')
    (hlonger : s.code.length < s'.code.length) : (s.depth + 1).toNat = s.depth.toNat + 1 := by
  have := hs.depth_le
  have := hp.code_le
  have := hp.code_lt
  rw [UInt32.toNat_add]
  exact Nat.mod_eq_of_lt (by simp; omega)

/-- With as many values on the stack as before, the counts stay in order. -/
theorem Level.of_grows (hs : Level s) (hg : Grows s s') (hdepth : s'.depth = s.depth)
    (hconst : s'.constants.length ≤ s'.code.length) : Level s' := by
  refine ⟨?_, ?_, hconst⟩
  · rw [hdepth]
    exact Nat.le_trans hs.depth_le hg.code_le
  · rw [hdepth]
    exact Nat.le_trans hs.depth_max hg.stack_le

theorem grows_emit {op : Opcode} {a b : UInt32} {u : Unit} (h : Emits (emit op a b) s u s') :
    Grows s s' := by
  obtain rfl := emits_emit.1 h
  exact ⟨Nat.le_refl _, Nat.le_refl _, by simp⟩

theorem grows_popped {u : Unit} (h : Emits popped s u s') : Grows s s' := by
  obtain rfl := emits_modify.1 h
  exact ⟨Nat.le_refl _, Nat.le_refl _, Nat.le_refl _⟩

theorem Level.emit {op : Opcode} {a b : UInt32} {u : Unit} (hs : Level s)
    (h : Emits (emit op a b) s u s') : Level s' := by
  have hg := grows_emit h
  obtain rfl := emits_emit.1 h
  exact hs.of_grows hg rfl (Nat.le_trans hs.constants_le hg.code_le)

theorem toNat_succ_le (d : UInt32) : (d + 1).toNat ≤ d.toNat + 1 := by
  rw [UInt32.toNat_add]
  exact Nat.mod_le _ _

/-! ## Blocks -/

/-- One assembly becomes another by a block that leaves one value: wherever it stands, and whatever
it is run on, a run through it is steady if it is from the end of the block on. -/
structure Keeps (s s' : Assembly) (block : List Instruction) : Prop where
  adds : Adds s s' block
  level : Level s'
  depth : s'.depth = s.depth + 1
  stack_le : s.maxStack.toNat ≤ s'.maxStack.toNat
  longer : s.code.length < s'.code.length
  runs : ∀ (p : Program) (env : Program.Env), Hosts p s' → CodeAt p.code s.code.length block →
    ∀ stack, stack.length = s.depth.toNat →
      (∀ v, p.Steady env s'.code.length (v :: stack)) → p.Steady env s.code.length stack

theorem Keeps.grows {block : List Instruction} (h : Keeps s s' block) : Grows s s' :=
  ⟨h.adds.constants.length_le, h.stack_le, Nat.le_of_lt h.longer⟩

/-- The count of values on the stack behind a block. -/
theorem Keeps.height {block : List Instruction} {p : Program} {stack : List Value}
    (h : Keeps s s' block) (hs : Level s) (hp : Hosts p s')
    (hstack : stack.length = s.depth.toNat) (v : Value) :
    (v :: stack).length = s'.depth.toNat := by
  rw [h.depth, hs.toNat_succ hp h.longer, List.length_cons, hstack]

/-- A single instruction that pushes a value. -/
theorem keeps_push {op : Opcode} {a b : UInt32} {t t' : Assembly} {u u' : Unit} (hs : Level s)
    (ha : Adds s t []) (hdepth : t.depth = s.depth) (hmax : t.maxStack = s.maxStack)
    (hconst : t.constants.length ≤ s.code.length + 1) (he : Emits (emit op a b) t u t')
    (hp : Emits pushed t' u' s')
    (hstep : ∀ (p : Program) env, Hosts p s' → ∃ r : Except FaultCause Value, Blameless r ∧
      ∀ stack, p.step env ⟨op, a, b⟩ stack = r.map fun v => .proceed (v :: stack)) :
    Keeps s s' [⟨op, a, b⟩] := by
  have hadds : Adds s s' [⟨op, a, b⟩] := by
    simpa using (ha.trans (adds_emit he)).trans (adds_pushed hp)
  have hlength : s'.code.length = s.code.length + 1 := hadds.length
  have hs' : s'.depth = s.depth + 1 ∧ s'.maxStack = max s.maxStack (s.depth + 1) ∧
      s'.constants = t.constants := by
    rw [emits_modify.1 hp, emits_emit.1 he, ← hdepth, ← hmax]
    exact ⟨rfl, rfl, rfl⟩
  have hstack : s'.maxStack.toNat = max s.maxStack.toNat (s.depth + 1).toNat := by
    rw [hs'.2.1, UInt32.toNat_max]
  refine ⟨hadds, ⟨?_, ?_, ?_⟩, hs'.1, ?_, by omega, ?_⟩
  · have := hs.depth_le
    have := toNat_succ_le s.depth
    rw [hs'.1]
    omega
  · rw [hs'.1, hstack]
    exact Nat.le_max_right _ _
  · rw [hs'.2.2]
    omega
  · rw [hstack]
    exact Nat.le_max_left _ _
  · intro p env hhosts hat stack hlen hnext
    obtain ⟨r, hr, hins⟩ := hstep p env hhosts
    have hroom : stack.length ≤ p.maxStack.toNat := by
      have := hs.depth_max
      have := hhosts.stack_le
      omega
    refine Program.steady_push hat.head hroom (hins stack) hr fun v => ?_
    rw [← hlength]
    exact hnext v

theorem Hosts.index_lt {p : Program} {op : Opcode} {a b i : UInt32} {t' : Assembly} {u u' : Unit}
    (hhosts : Hosts p s') (ha : Adds s t []) (hconst : t.constants.length ≤ s.code.length + 1)
    (he : Emits (emit op a b) t u t') (hp : Emits pushed t' u' s')
    (hindex : t.constants.length < 2 ^ 32 → i.toNat < t.constants.length) :
    i.toNat < p.constants.length := by
  have hlength : s'.code.length = s.code.length + 1 :=
    ((ha.trans (adds_emit he)).trans (adds_pushed hp)).length
  have hsame : s'.constants = t.constants := by
    rw [emits_modify.1 hp, emits_emit.1 he]
  have := hhosts.constants_le
  have := hhosts.code_le
  have := hhosts.code_lt
  have := hindex (by omega)
  rw [hsame] at *
  omega

/-- A constant is found in a program that has it. -/
theorem blameless_constant {p : Program} {i : UInt32} (h : i.toNat < p.constants.length) :
    Blameless (p.constant i) := by
  unfold Program.constant
  rw [List.getElem?_eq_getElem h]
  exact Program.blameless_ok _

/-! ## Expressions -/

theorem keeps_literal {v : Value} {i : UInt32} {t t' : Assembly} (hi : Emits (constant v) s i t)
    (he : Emits (emit .pushConst i 0) t () t') (hp : Emits pushed t' () s') (hs : Level s) :
    ∃ block, Keeps s s' block := by
  obtain ⟨ht, -, hlen, hindex⟩ := emits_constant_index hi
  have hconst : t.constants.length ≤ s.code.length + 1 := by
    have := hs.constants_le
    omega
  refine ⟨_, keeps_push hs (adds_constant hi) (by rw [ht]) (by rw [ht]) hconst he hp
    fun p env hhosts => ⟨p.constant i, blameless_constant ?_, fun stack => ?_⟩⟩
  · exact hhosts.index_lt (adds_constant hi) hconst he hp hindex
  · rw [Program.step]
    cases p.constant i <;> rfl

theorem keeps_load {r : Reference} (h : Emits (load r) s () s') (hs : Level s) :
    ∃ block, Keeps s s' block := by
  obtain ⟨n, t, u, hn, he, hp⟩ := emits_load h
  obtain ⟨-, rfl⟩ := emits_symbol.1 hn
  refine ⟨_, keeps_push hs (adds_symbol hn) rfl rfl (Nat.le_succ_of_le hs.constants_le) he hp
    fun p env _ => ?_⟩
  cases r.scope with
  | context => exact ⟨.ok _, Program.blameless_ok _, fun _ => rfl⟩
  | input => exact ⟨.ok _, Program.blameless_ok _, fun _ => rfl⟩
  | outcome => exact ⟨.ok _, Program.blameless_ok _, fun _ => rfl⟩

/-- A block that leaves a value, and an instruction that changes it. -/
theorem Keeps.onTop {op : Opcode} {block : List Instruction} {u : Unit}
    {f : Value → Except FaultCause Value} (h : Keeps s t block) (hs : Level s)
    (he : Emits (emit op 0 0) t u s') (hf : ∀ v, Blameless (f v))
    (hop : ∀ (p : Program) env stack, p.step env ⟨op, 0, 0⟩ stack = Program.onTop f stack) :
    Keeps s s' (block ++ [⟨op, 0, 0⟩]) := by
  have ha := adds_emit he
  have hg := grows_emit he
  have hlength : s'.code.length = t.code.length + 1 := ha.length
  refine ⟨h.adds.trans ha, h.level.emit he, by rw [emits_emit.1 he, h.depth],
    Nat.le_trans h.stack_le hg.stack_le, Nat.lt_of_lt_of_le h.longer hg.code_le, ?_⟩
  intro p env hhosts hat stack hstack hnext
  have hhosts' := hhosts.mono hg
  have hins : p.code[t.code.length]? = some ⟨op, 0, 0⟩ := by
    rw [h.adds.length]
    exact hat.right.head
  refine h.runs p env hhosts' hat.left stack hstack fun v => ?_
  exact Program.steady_onTop hins (h.level.fits hhosts' (h.height hs hhosts' hstack v))
    (hop p env _) hf fun w => hlength ▸ hnext w

/-- Two blocks that leave values, and an instruction that takes both. -/
theorem Keeps.onTopTwo {op : Opcode} {left right : List Instruction} {t' t'' : Assembly}
    {u u' : Unit} {f : Value → Value → Except FaultCause Value} (hl : Keeps s t left)
    (hr : Keeps t t' right) (hs : Level s) (he : Emits (emit op 0 0) t' u t'')
    (hp : Emits popped t'' u' s') (hf : ∀ l r, Blameless (f l r))
    (hop : ∀ (p : Program) env stack, p.step env ⟨op, 0, 0⟩ stack = Program.onTopTwo f stack) :
    Keeps s s' (left ++ (right ++ [⟨op, 0, 0⟩])) := by
  have ha := adds_emit he
  have hb := adds_popped hp
  have hg := (grows_emit he).trans (grows_popped hp)
  have hlength : s'.code.length = t'.code.length + 1 := by
    rw [hb.length, ha.length]
    rfl
  have hdepth : s'.depth = t.depth := by
    rw [emits_modify.1 hp, emits_emit.1 he]
    dsimp only
    rw [hr.depth, UInt32.add_sub_cancel]
  have hadds : Adds t s' (right ++ [⟨op, 0, 0⟩]) := by
    simpa using (hr.adds.trans ha).trans hb
  have hlevel : Level s' := by
    refine hl.level.of_grows (hr.grows.trans hg) hdepth ?_
    rw [emits_modify.1 hp]
    exact (hr.level.emit he).constants_le
  have hall := hl.grows.trans (hr.grows.trans hg)
  have hlonger : s.code.length < s'.code.length := by
    have := hl.longer
    have := hr.longer
    omega
  refine ⟨hl.adds.trans hadds, hlevel, by rw [hdepth, hl.depth], hall.stack_le, hlonger, ?_⟩
  intro p env hhosts hat stack hstack hnext
  have hhosts₁ := hhosts.mono (hr.grows.trans hg)
  have hhosts₂ := hhosts.mono hg
  have hright := hat.right
  rw [← hl.adds.length] at hright
  have hins : p.code[t'.code.length]? = some ⟨op, 0, 0⟩ := by
    rw [hr.adds.length]
    exact hright.right.head
  refine hl.runs p env hhosts₁ hat.left stack hstack fun v => ?_
  have hheight := hl.height hs hhosts₁ hstack v
  refine hr.runs p env hhosts₂ hright.left (v :: stack) hheight fun w => ?_
  exact Program.steady_onTopTwo hins
    (hr.level.fits hhosts₂ (hr.height hl.level hhosts₂ hheight w)) (hop p env _) hf
    fun x => hlength ▸ hnext x

/-- Behind a jump that drops the value of a block, the stack is as it was before the block. -/
theorem Keeps.dropped {op : Opcode} {block : List Instruction} {t₁ : Assembly} {u u' : Unit}
    (h : Keeps s t block) (hs : Level s) (hj : Emits (emit op 0 0) t u t₁)
    (hp : Emits popped t₁ u' s') : Level s' ∧ s'.depth = s.depth ∧ Grows t s' := by
  have hg := (grows_emit hj).trans (grows_popped hp)
  have hdepth : s'.depth = s.depth := by
    rw [emits_modify.1 hp, emits_emit.1 hj]
    dsimp only
    rw [h.depth, UInt32.add_sub_cancel]
  refine ⟨hs.of_grows (h.grows.trans hg) hdepth ?_, hdepth, hg⟩
  rw [emits_modify.1 hp]
  exact (h.level.emit hj).constants_le

/-- Two blocks of which the second is jumped over where the first decides. -/
theorem Keeps.shortCircuit {decides : Bool} {op : Opcode} {left right : List Instruction}
    {t₁ t₂ t₃ t₄ : Assembly} {u u' v w : Unit} (hl : Keeps s t left) (hs : Level s)
    (hj : Emits (emit op 0 0) t u t₁) (hp : Emits popped t₁ u' t₂) (hr : Keeps t₂ t₃ right)
    (hc : Emits (emit .checkBool 0 0) t₃ v t₄) (hland : Emits (landHere t.code.length) t₄ w s')
    (hop : ∀ (p : Program) env target stack,
      p.step env ⟨op, target, 0⟩ stack = Program.jumpIf decides target stack) :
    Keeps s s'
      (left ++ (⟨op, UInt32.ofNat s'.code.length, 0⟩ :: (right ++ [⟨.checkBool, 0, 0⟩]))) := by
  have hj' := (adds_emit hj).trans (adds_popped hp)
  have hc' := adds_emit hc
  have hadds := Adds.landHere ((hj'.trans hr.adds).trans hc') hland
  obtain ⟨hlevel₂, hdepth₂, hg₁⟩ := hl.dropped hs hj hp
  have hlen₂ : t₂.code.length = t.code.length + 1 := hj'.length
  have hlen₄ : t₄.code.length = t₃.code.length + 1 := hc'.length
  have hlevel₄ : Level t₄ := hr.level.emit hc
  have hdepth₄ : t₄.depth = s.depth + 1 := by
    rw [emits_emit.1 hc, ← hdepth₂, ← hr.depth]
  have hg₃ := grows_emit hc
  have hlonger : s.code.length < t₄.code.length := by
    have := hl.longer
    have := hr.longer
    omega
  obtain rfl := emits_landHere.1 hland
  have hg₄ : Grows t₄ { t₄ with code := patch t.code.length t₄.code.length t₄.code } :=
    ⟨Nat.le_refl _, Nat.le_refl _, by simp⟩
  have hall := hl.grows.trans (hg₁.trans (hr.grows.trans (hg₃.trans hg₄)))
  refine ⟨by simpa using hl.adds.trans hadds,
    hlevel₄.of_grows hg₄ rfl (by simpa using hlevel₄.constants_le), hdepth₄, hall.stack_le,
    by simpa using hlonger, ?_⟩
  intro p env hhosts hat stack hstack hnext
  simp only [patch_length] at hat hnext ⊢
  have hhosts₄ := hhosts.mono hg₄
  have hhosts₃ := hhosts₄.mono hg₃
  have hhosts₁ := hhosts₃.mono (hg₁.trans hr.grows)
  have hsides := sidesAt_of_adds hl.adds hj' hr.adds hc' hat
  have htarget := hhosts₄.toNat_ofNat hhosts₄.code_le
  have hstack₂ : stack.length = t₂.depth.toNat := by rw [hdepth₂, hstack]
  refine hl.runs p env hhosts₁ hsides.left stack hstack fun a => ?_
  refine Program.steady_jumpIf hsides.jump
    (hl.level.fits hhosts₁ (hl.height hs hhosts₁ hstack a)) (hop p env _ _)
    (by rw [htarget]; exact ⟨hsides.forward, hhosts₄.code_le⟩) (by rw [htarget]; exact hnext a) ?_
  -- the jump is not taken: the right side leaves its value in place of the left one
  rw [← hlen₂]
  refine hr.runs p env hhosts₃ hsides.right stack hstack₂ fun b => ?_
  refine Program.steady_checkBool hsides.check
    (hr.level.fits hhosts₃ (hr.height hlevel₂ hhosts₃ hstack₂ b)) ?_
  rw [← hlen₄]
  exact hnext b

/-- **Every expression is a block that leaves one value.** -/
theorem keeps_expression {x : Expr} (h : Emits (expression x) s () s') (hs : Level s) :
    ∃ block, Keeps s s' block := by
  replace h := transcribed_of_emits h
  induction h with
  | literal hi he hp => exact keeps_literal hi he hp hs
  | reference hload => exact keeps_load hload hs
  | present hload he =>
    obtain ⟨block, hk⟩ := keeps_load hload hs
    exact ⟨_, hk.onTop hs he (fun _ => Program.blameless_ok _) fun _ _ _ => rfl⟩
  | not _ he ih =>
    obtain ⟨block, hk⟩ := ih hs
    exact ⟨_, hk.onTop hs he (UnaryOp.not.blameless_apply ·) fun _ _ _ => rfl⟩
  | neg _ he ih =>
    obtain ⟨block, hk⟩ := ih hs
    exact ⟨_, hk.onTop hs he (UnaryOp.neg.blameless_apply ·) fun _ _ _ => rfl⟩
  | @strict _ op _ _ _ _ _ _ _ _ hop _ _ he hp ihl ihr =>
    obtain ⟨left, hkl⟩ := ihl hs
    obtain ⟨right, hkr⟩ := ihr hkl.level
    exact ⟨_, hkl.onTopTwo hkr hs he hp op.blameless_apply (strictOpcode?_some hop).2⟩
  | deciding hdecides _ hj hp _ hc hland ihl ihr =>
    obtain ⟨left, hkl⟩ := ihl hs
    obtain ⟨right, hkr⟩ := ihr (hkl.dropped hs hj hp).1
    cases hdecides with
    | and => exact ⟨_, hkl.shortCircuit hs hj hp hkr hc hland fun _ _ _ _ => rfl⟩
    | or => exact ⟨_, hkl.shortCircuit hs hj hp hkr hc hland fun _ _ _ _ => rfl⟩

/-! ## Conjuncts -/

theorem keeps_categorical {q : Predicate} {u : Unit}
    (h : Emits (Conjunct.categorical q).body s u s') (hs : Level s) :
    ∃ block, Keeps s s' block := by
  obtain ⟨key, t, hkey, h⟩ := emits_categorical h
  have hsym := adds_symbol hkey
  obtain ⟨-, rfl⟩ := emits_symbol.1 hkey
  rcases h with ⟨-, t', he, hp⟩ | ⟨text, -, i, t', t'', hi, he, hp⟩
  · exact ⟨_, keeps_push hs hsym rfl rfl (Nat.le_succ_of_le hs.constants_le) he hp
      fun p env _ => ⟨.ok _, Program.blameless_ok _, fun _ => rfl⟩⟩
  · obtain ⟨ht, -, hlen, hindex⟩ := emits_constant_index hi
    have hadds : Adds s t' [] := hsym.trans (adds_constant hi)
    have hconst : t'.constants.length ≤ s.code.length + 1 := by
      have := hs.constants_le
      dsimp only at hlen
      omega
    refine ⟨_, keeps_push hs hadds (by rw [ht]) (by rw [ht]) hconst he hp fun p env hhosts => ?_⟩
    have hfound := blameless_constant (hhosts.index_lt hadds hconst he hp hindex)
    refine ⟨(p.constant i).map fun expected =>
      .bool (Program.textEquals (Program.slot env.context key) expected), hfound.map _, ?_⟩
    intro stack
    rw [Program.step]
    cases p.constant i <;> rfl

/-- A test of a node pushes its answer. -/
theorem step_fired (p : Program) (env : Program.Env) (node : UInt32) (stack : List Value) :
    p.step env ⟨.fired, node, 0⟩ stack =
      ((env.nodeFired node).map Value.bool).map fun v => .proceed (v :: stack) := by
  rw [Program.step]
  cases env.nodeFired node <;> rfl

/-- What a chain of tests leaves of the counts. -/
theorem counts_orFired {nodes : List UInt32} {jumps : List Nat}
    (h : Emits (orFired nodes) s jumps s') :
    s'.depth = s.depth ∧ s.maxStack.toNat ≤ s'.maxStack.toNat := by
  induction nodes generalizing s jumps with
  | nil =>
    obtain ⟨-, rfl⟩ := emits_pure.1 h
    exact ⟨rfl, Nat.le_refl _⟩
  | cons n rest ih =>
    simp only [orFired, emits_bind, emits_here, emits_pure] at h
    obtain ⟨_, _, ⟨rfl, rfl⟩, _, t₁, hj, _, t₂, hp, _, t₃, hf, _, t₄, hq, more, t₅, hr, -, rfl⟩ := h
    obtain ⟨hdepth, hstack⟩ := ih hr
    obtain rfl := emits_emit.1 hj
    obtain rfl := emits_modify.1 hp
    obtain rfl := emits_emit.1 hf
    obtain rfl := emits_modify.1 hq
    refine ⟨by rw [hdepth]; exact UInt32.sub_add_cancel _ _, Nat.le_trans ?_ hstack⟩
    rw [UInt32.toNat_max]
    exact Nat.le_max_left _ _

/-- A chain of tests behind a value that is on the stack: every jump keeps the value, and every test
puts another one in its place. -/
theorem steady_orBlock {p : Program} {env : Program.Env} {target : UInt32} {nodes : List UInt32}
    {pc : Nat} {stack : List Value} (hat : CodeAt p.code pc (orBlock target nodes))
    (htarget : target.toNat = pc + (orBlock target nodes).length)
    (hle : target.toNat ≤ p.code.length) (hfits : stack.length + 1 ≤ p.maxStack.toNat)
    (hnext : ∀ v, p.Steady env target.toNat (v :: stack)) (v : Value) :
    p.Steady env pc (v :: stack) := by
  induction nodes generalizing pc v with
  | nil =>
    have hend : target.toNat = pc := by simpa [orBlock] using htarget
    rw [← hend]
    exact hnext v
  | cons n rest ih =>
    have hblock : orBlock target (n :: rest) =
        ⟨.jumpIfTrue, target, 0⟩ :: ⟨.fired, n, 0⟩ :: orBlock target rest := rfl
    rw [hblock] at hat htarget
    simp only [List.length_cons] at htarget
    have hforward : pc < target.toNat ∧ target.toNat ≤ p.code.length := ⟨by omega, hle⟩
    refine Program.steady_jumpIf hat.head hfits rfl hforward (hnext v) ?_
    exact Program.steady_push hat.tail.head (by omega) (step_fired p env n _)
      ((Program.blameless_nodeFired env n).map Value.bool) fun w => ih hat.tail.tail (by omega) w

theorem keeps_anyFired {node : UInt32} {rest : List UInt32} {u : Unit}
    (h : Emits (Conjunct.anyFired (node :: rest)).body s u s') (hs : Level s) :
    ∃ block, Keeps s s' block := by
  obtain ⟨hadds, hconst⟩ := adds_anyFired h
  simp only [Conjunct.body, emits_bind] at h
  obtain ⟨_, t₁, hf, _, t₂, hp, jumps, t₃, hr, hland⟩ := h
  obtain ⟨hdepth₃, hstack₃⟩ := counts_orFired hr
  have hfirst : Keeps s t₂ [⟨.fired, node, 0⟩] :=
    keeps_push hs (Adds.refl s) rfl rfl (Nat.le_succ_of_le hs.constants_le) hf hp fun p env _ =>
      ⟨_, (Program.blameless_nodeFired env node).map .bool, step_fired p env node⟩
  have hlength := hadds.length
  have hlength₂ : t₂.code.length = s.code.length + 1 := hfirst.adds.length
  rw [List.length_cons] at hlength
  have hsame : t₂.constants = s.constants := by
    rw [emits_modify.1 hp, emits_emit.1 hf]
  have hrest : s'.depth = t₂.depth ∧ s'.maxStack = t₃.maxStack := by
    rw [emits_landAll hland]
    exact ⟨hdepth₃, rfl⟩
  have hgrows : Grows t₂ s' := by
    exact ⟨Nat.le_of_eq (by rw [hconst, hsame]), by rw [hrest.2]; exact hstack₃, by omega⟩
  have hlevel : Level s' := by
    refine hfirst.level.of_grows hgrows hrest.1 ?_
    rw [hconst]
    exact Nat.le_trans hs.constants_le (by omega)
  refine ⟨_, hadds, hlevel, hrest.1.trans hfirst.depth, (hfirst.grows.trans hgrows).stack_le,
    by omega, ?_⟩
  intro p env hhosts hat stack hstack hnext
  have hhosts₂ := hhosts.mono hgrows
  have hle := hhosts.code_le
  have htarget := hhosts.toNat_ofNat hle
  have hsplit : CodeAt p.code s.code.length
      ([⟨.fired, node, 0⟩] ++ orBlock (UInt32.ofNat s'.code.length) rest) := hat
  have hone : CodeAt p.code s.code.length [⟨.fired, node, 0⟩] := hsplit.left
  refine hfirst.runs p env hhosts₂ hone stack hstack fun v => ?_
  have hfits := hfirst.level.fits hhosts₂ (hfirst.height hs hhosts₂ hstack v)
  refine steady_orBlock (by rw [hlength₂]; exact hat.tail) (by rw [htarget]; omega)
    (by rw [htarget]; exact hle) hfits (fun w => ?_) v
  rw [htarget]
  exact hnext w

/-- Every conjunct is a block that leaves one value. -/
theorem keeps_body {c : Conjunct} {u : Unit} (h : Emits c.body s u s') (hs : Level s) :
    ∃ block, Keeps s s' block := by
  have flag : ∀ {op : Opcode} {node : UInt32}, Emits (do emit op node 0; pushed) s u s' →
      (∀ (p : Program) env, ∃ r : Except FaultCause Value, Blameless r ∧
        ∀ stack, p.step env ⟨op, node, 0⟩ stack = r.map fun v => .proceed (v :: stack)) →
      ∃ block, Keeps s s' block := by
    intro op node h hstep
    obtain ⟨_, t, he, hp⟩ := emits_bind.1 h
    exact ⟨_, keeps_push hs (Adds.refl s) rfl rfl (Nat.le_succ_of_le hs.constants_le) he hp
      fun p env _ => hstep p env⟩
  cases c with
  | categorical q => exact keeps_categorical h hs
  | expression x => exact keeps_expression h hs
  | fired node =>
    exact flag h fun p env =>
      ⟨_, (Program.blameless_nodeFired env node).map .bool, step_fired p env node⟩
  | notFired node =>
    refine flag h fun p env =>
      ⟨_, (Program.blameless_nodeFired env node).map fun b => .bool !b, fun stack => ?_⟩
    rw [Program.step]
    cases env.nodeFired node <;> rfl
  | anyFired nodes =>
    cases nodes with
    | nil => exact absurd h not_emits_throw
    | cons node rest => exact keeps_anyFired h hs

/-! ## Chains of conjuncts -/

/-- An assembly between two conjuncts: one value is on the stack. -/
structure Between (s : Assembly) : Prop where
  level : Level s
  conjuncts : 0 < s.conjuncts
  depth : s.depth = 1
  exits : ExitsInside s

theorem between_first {c : Conjunct} {u : Unit} (h : Emits c.emit s u s') (hs : Level s)
    (hfirst : s.conjuncts = 0) (hdepth : s.depth = 0) (hexits : s.exits = []) :
    Between s' ∧ s'.exits = [] ∧ ∃ block, s'.code = s.code ++ block ∧
      ∀ (p : Program) (env : Program.Env), Hosts p s' → CodeAt p.code s.code.length block →
        (∀ v, p.Steady env s'.code.length [v]) → p.Steady env s.code.length [] := by
  obtain ⟨t, hb, hbody⟩ := emits_conjunct h
  obtain rfl := emits_beginConjunct_first hb hfirst
  obtain ⟨block, hk⟩ := keeps_body hbody ⟨hs.depth_le, hs.depth_max, hs.constants_le⟩
  have hnone : s'.exits = [] := hk.adds.exits.trans hexits
  have hdepth' : s'.depth = 1 := by
    rw [hk.depth, hdepth]
    rfl
  refine ⟨⟨hk.level, by rw [hk.adds.conjuncts]; exact Nat.succ_pos _, hdepth', ?_⟩, hnone, block,
    hk.adds.code, ?_⟩
  · intro j hj
    rw [hnone] at hj
    cases hj
  · intro p env hhosts hat hnext
    exact hk.runs p env hhosts hat [] (by rw [hdepth]; rfl) hnext

theorem between_next {c : Conjunct} {u : Unit} (h : Emits c.emit s u s') (hs : Between s) :
    Between s' ∧ Grows s s' ∧ ∃ block,
      (∀ target, patched target s' =
        patched target s ++ ⟨.jumpIfFalse, UInt32.ofNat target, 0⟩ :: block) ∧
      ∀ (p : Program) (env : Program.Env), Hosts p s' →
        CodeAt p.code (s.code.length + 1) block →
        (∀ v, p.Steady env s'.code.length [v]) → p.Steady env (s.code.length + 1) [] := by
  obtain ⟨t, hb, hbody⟩ := emits_conjunct h
  have ht := emits_beginConjunct_next hb hs.conjuncts
  have hlength : t.code.length = s.code.length + 1 := by
    rw [ht]
    simp
  have hdepth : t.depth = 0 := by
    rw [ht]
    dsimp only
    rw [hs.depth]
    rfl
  have hgrows : Grows s t := by
    rw [ht]
    exact ⟨Nat.le_refl _, Nat.le_refl _, by simp⟩
  have hlevel : Level t := by
    refine ⟨by rw [hdepth]; exact Nat.zero_le _, by rw [hdepth]; exact Nat.zero_le _, ?_⟩
    rw [hlength, ht]
    exact Nat.le_succ_of_le hs.level.constants_le
  obtain ⟨block, hk⟩ := keeps_body hbody hlevel
  have hinside : ExitsInside t := exitsInside_next hs.exits (by rw [ht]) (by rw [ht])
  refine ⟨⟨hk.level, ?_, ?_, hk.adds.exitsInside hinside⟩, hgrows.trans hk.grows, block, ?_, ?_⟩
  · rw [hk.adds.conjuncts, ht]
    exact Nat.succ_pos _
  · rw [hk.depth, hdepth]
    rfl
  · have hcode : s'.code = s.code ++ ⟨.jumpIfFalse, 0, 0⟩ :: block := by
      rw [hk.adds.code, ht]
      simp
    exact patched_next hs.exits hcode (by rw [hk.adds.exits, ht])
  · intro p env hhosts hat hnext
    rw [← hlength] at hat ⊢
    exact hk.runs p env hhosts hat [] (by rw [hdepth]; rfl) hnext

/-- **A chain of conjuncts behind a value** runs steadily to the end of the program.  The induction
is on the chain: the jump in front of a conjunct either keeps the value that is the answer, or drops
it before the conjunct leaves the next one. -/
theorem steady_conjuncts {cs : List Conjunct} {u : Unit}
    (h : Emits (cs.forM Conjunct.emit) s u s') (hs : Between s) :
    Between s' ∧ Grows s s' ∧ ∃ tail : Nat → List Instruction,
      (∀ target, patched target s' = patched target s ++ tail target) ∧
      ∀ (p : Program) (env : Program.Env), Hosts p s' → p.code.length = s'.code.length + 2 →
        CodeAt p.code s.code.length
          (tail (s'.code.length + 1) ++ [⟨.checkBool, 0, 0⟩, ⟨.return, 0, 0⟩]) →
        ∀ v, p.Steady env s.code.length [v] := by
  induction cs generalizing s with
  | nil =>
    obtain ⟨-, rfl⟩ := emits_pure.1 h
    refine ⟨hs, ⟨Nat.le_refl _, Nat.le_refl _, Nat.le_refl _⟩, fun _ => [], by simp, ?_⟩
    intro p env hhosts hlen hat v
    have hfits : [v].length ≤ p.maxStack.toNat := hs.level.fits hhosts (by rw [hs.depth]; rfl)
    exact Program.steady_checkBool hat.head hfits (Program.steady_return hat.tail.head hfits)
  | cons c cs ih =>
    obtain ⟨_, t, hc, hrest⟩ := emits_bind.1 h
    obtain ⟨hbetween, hgrows, block, hpatched, hruns⟩ := between_next hc hs
    obtain ⟨hlast, hmore, tail, htail, hsteady⟩ := ih hrest hbetween
    refine ⟨hlast, hgrows.trans hmore, fun target => ⟨.jumpIfFalse, UInt32.ofNat target, 0⟩ ::
      block ++ tail target, fun target => by rw [htail, hpatched]; simp, ?_⟩
    intro p env hhosts hlen hat v
    have hhosts' := hhosts.mono hmore
    have hstands := conjunctAt_of_patched hpatched htail hat
    have htarget : (UInt32.ofNat (s'.code.length + 1)).toNat = s'.code.length + 1 :=
      hhosts.toNat_ofNat (by omega)
    have hfits : [v].length ≤ p.maxStack.toNat :=
      hs.level.fits (hhosts'.mono hgrows) (by rw [hs.depth]; rfl)
    refine Program.steady_jumpIf hstands.jump hfits rfl ?_ ?_ ?_
    · rw [htarget]
      exact ⟨hstands.forward, by omega⟩
    · rw [htarget]
      exact Program.steady_return hstands.exit hfits
    · exact hruns p env hhosts' hstands.block fun w => hsteady p env hhosts hlen hstands.rest w

/-! ## Finished programs -/

theorem steady_finish {cs : List Conjunct} {symbols : SymbolTable} {allowOutcome : Bool} {u : Unit}
    (h : Emits (cs.forM Conjunct.emit) (.start symbols allowOutcome) u s) (hne : cs ≠ [])
    (hcode : s.finish.1.code.length < 2 ^ 32) (env : Program.Env) :
    s.finish.1.isEmpty = false ∧ s.finish.1.Steady env 0 [] := by
  obtain ⟨c, cs, rfl⟩ := List.exists_cons_of_ne_nil hne
  obtain ⟨_, t, hc, hrest⟩ := emits_bind.1 h
  have hstart : Level (.start symbols allowOutcome) :=
    ⟨Nat.le_refl _, Nat.le_refl _, Nat.le_refl _⟩
  obtain ⟨hbetween, hexits, block, hfirst, hruns⟩ := between_first hc hstart rfl rfl rfl
  obtain ⟨hlast, hgrows, tail, htail, hsteady⟩ := steady_conjuncts hrest hbetween
  have hp := finish_eq (Nat.pos_iff_ne_zero.1 hlast.conjuncts) hlast.exits
  have hnone : (start symbols allowOutcome).code = [] := rfl
  rw [hnone, List.nil_append] at hfirst
  have hpt : patched (s.code.length + 1) t = t.code := by
    rw [patched, hexits]
    rfl
  rw [hp] at hcode ⊢
  have hhosts : Hosts ⟨patched (s.code.length + 1) s ++ [⟨.checkBool, 0, 0⟩, ⟨.return, 0, 0⟩],
      s.constants, s.maxStack⟩ s :=
    ⟨Nat.le_refl _, Nat.le_refl _, by simp, hcode⟩
  refine ⟨by simp [Program.isEmpty], hruns _ env (hhosts.mono hgrows) ?_ fun v => ?_⟩
  · exact ⟨[], tail (s.code.length + 1) ++ [⟨.checkBool, 0, 0⟩, ⟨.return, 0, 0⟩],
      by simp [htail, hpt, hfirst], rfl⟩
  · exact hsteady _ env hhosts (by simp) ⟨t.code, [], by simp [htail, hpt], rfl⟩ v

/-- **Guard programs keep to the discipline of the stack.**  Whatever is assembled without being
refused, with fewer than `2 ^ 32` instructions, and whatever it is run on: no run finds the stack
too short, a constant missing or a jump that leads nowhere, or ends without a return that leaves
one value; and at no time are there more values on the stack than the program makes room for. -/
theorem stack_discipline {cs : List Conjunct} {symbols : SymbolTable} {allowOutcome : Bool}
    {s : Assembly} (h : (cs.forM Conjunct.emit).run.run (.start symbols allowOutcome) = (.ok (), s))
    (hcode : s.finish.1.code.length < 2 ^ 32) (env : Program.Env) :
    (∀ fault, s.finish.1.run env = .error fault → fault.cause ∉
      [.stackUnderflow, .constantIndex, .jumpTarget, .unbalancedStack, .noReturn]) ∧
    ∀ pc stack, s.finish.1.Reaches env (0, []) (pc, stack) →
      stack.length ≤ s.finish.1.maxStack.toNat := by
  rcases eq_or_ne cs [] with rfl | hne
  · obtain ⟨-, rfl⟩ := emits_pure.1 h
    refine ⟨nofun, fun pc stack hreaches => ?_⟩
    rcases Relation.ReflTransGen.cases_head hreaches with heq | ⟨_, hmoves, -⟩
    · cases heq
      exact Nat.le_refl _
    · rcases hmoves with ⟨hins, -⟩ | ⟨hins, -, -⟩ <;> cases hins
  · obtain ⟨hcodes, hsteady⟩ := steady_finish h hne hcode env
    refine ⟨fun fault hfault => hsteady.faults fault.cause ?_,
      fun pc stack hreaches => hsteady.fits (pc, stack) hreaches⟩
    rw [Program.run, hcodes, if_neg Bool.false_ne_true] at hfault
    rw [Program.answerFrom, hfault]
    rfl

theorem stack_discipline_sample :
    (sampleConjuncts.forM Conjunct.emit).run.run (.start .empty false) =
        (.ok (), sampleAssembly) ∧
      sampleAssembly.finish.1.code.length = 16 ∧ sampleAssembly.finish.1.maxStack = 2 ∧
      (∀ fault, sampleAssembly.finish.1.run (sampleEvidence.env []) = .error fault →
        fault.cause ∉ [.stackUnderflow, .constantIndex, .jumpTarget, .unbalancedStack, .noReturn]) ∧
      ∀ pc stack, sampleAssembly.finish.1.Reaches (sampleEvidence.env []) (0, []) (pc, stack) →
        stack.length ≤ 2 := by
  have h : (sampleConjuncts.forM Conjunct.emit).run.run (.start .empty false) =
      (.ok (), sampleAssembly) := rfl
  have hcode : sampleAssembly.finish.1.code.length = 16 := by decide
  obtain ⟨hfaults, hfits⟩ := stack_discipline h (by rw [hcode]; decide) (sampleEvidence.env [])
  exact ⟨h, hcode, by decide, hfaults, hfits⟩

end Assembly
end DecisionEngine
