import DecisionEngine.Compile.Lint
import DecisionEngine.Proofs.Program.Conjunction
/-!
# Which conjuncts are accepted

Only two things are refused by an emitter: a reference to an outcome where there is none, and a
test of whether one of no nodes has fired.  So what the checks of a graph accepted is accepted
again when its guard is assembled, behind whatever was assembled before.

* `Assembly.Lengthens` — whether an emitter is accepted, and how much it writes, also when it is
  refused, whatever was assembled before.
* `Assembly.lengthens_expression` — expressions that do not refer to outcomes are accepted.
* `Assembly.Accepts`, `Assembly.Refuses` — emitters that are never, or always, refused.
* `checkedExpression_eq_ok_iff` — so checked expressions are, and no others.
* `Assembly.exists_emits` — a list of acceptable conjuncts is assembled.
-/

namespace DecisionEngine
namespace Assembly

variable {α β : Type} {outcome accepted : Bool} {n k : Nat}

/-! ## How much is written -/

theorem run_bind (m : Emitter α) (f : α → Emitter β) (s : Assembly) :
    (m >>= f).run.run s =
      match m.run.run s with
      | (.ok a, t) => (f a).run.run t
      | (.error e, t) => (.error e, t) := by
  simp only [ExceptT.run, StateT.run, bind, ExceptT.bind, ExceptT.mk, StateT.bind]
  rcases m s with ⟨a | e, t⟩ <;> rfl

/-- What a run leaves that is accepted or refused by an expression: a number of instructions more,
and no other conjunct. -/
structure Written (accepted : Bool) (n : Nat) (s : Assembly)
    (r : Except AssemblyError α × Assembly) : Prop where
  isOk : r.1.isOk = accepted
  byExpression : ∀ e, r.1 = .error e → ∃ x, e = .expression x
  length : r.2.code.length = s.code.length + n
  conjuncts : r.2.conjuncts = s.conjuncts
  allowOutcome : r.2.allowOutcome = s.allowOutcome

/-- Where outcomes may or may not be referred to, an emitter is accepted or not and writes a number
of instructions, whatever was assembled before. -/
def Lengthens (outcome accepted : Bool) (n : Nat) (m : Emitter α) : Prop :=
  ∀ s, s.allowOutcome = outcome → Written accepted n s (m.run.run s)

theorem lengthens_pure (a : α) : Lengthens outcome true 0 (pure a) := fun _ _ =>
  ⟨rfl, fun _ h => (nomatch h), rfl, rfl, rfl⟩

theorem lengthens_throw (e : Expr.Error) :
    Lengthens outcome false 0 (throw (.expression e) : Emitter α) := fun _ _ =>
  ⟨rfl, fun _ h => ⟨e, (Except.error.inj h).symm⟩, rfl, rfl, rfl⟩

theorem lengthens_modify {f : Assembly → Assembly}
    (hcode : ∀ s, (f s).code.length = s.code.length + n)
    (hconjuncts : ∀ s, (f s).conjuncts = s.conjuncts)
    (hallow : ∀ s, (f s).allowOutcome = s.allowOutcome) : Lengthens outcome true n (modify f) :=
  fun s _ => ⟨rfl, fun _ h => (nomatch h), hcode s, hconjuncts s, hallow s⟩

theorem lengthens_get_bind {f : Assembly → Emitter β}
    (h : ∀ s, s.allowOutcome = outcome → Lengthens outcome accepted n (f s)) :
    Lengthens outcome accepted n (get >>= f) := by
  intro s hs
  rw [run_bind]
  exact h s hs s hs

theorem lengthens_bind {m : Emitter α} {f : α → Emitter β} (hm : Lengthens outcome true n m)
    (hf : ∀ a, Lengthens outcome accepted k (f a)) :
    Lengthens outcome accepted (n + k) (m >>= f) := by
  intro s hs
  have hfirst := hm s hs
  rw [run_bind]
  rcases hrun : m.run.run s with ⟨e | a, t⟩
  · rw [hrun] at hfirst
    cases hfirst.isOk
  · rw [hrun] at hfirst
    have hthen := hf a t (hfirst.allowOutcome.trans hs)
    exact ⟨hthen.isOk, hthen.byExpression, by rw [hthen.length, hfirst.length, Nat.add_assoc],
      hthen.conjuncts.trans hfirst.conjuncts, hthen.allowOutcome.trans hfirst.allowOutcome⟩

/-- After a refusal nothing more is written. -/
theorem lengthens_bind_refused {m : Emitter α} {f : α → Emitter β}
    (hm : Lengthens outcome false n m) : Lengthens outcome false n (m >>= f) := by
  intro s hs
  have hfirst := hm s hs
  rw [run_bind]
  rcases hrun : m.run.run s with ⟨e | a, t⟩
  · rw [hrun] at hfirst
    exact ⟨rfl, fun e' h => hfirst.byExpression e' (congrArg Except.error (Except.error.inj h)),
      hfirst.length, hfirst.conjuncts, hfirst.allowOutcome⟩
  · rw [hrun] at hfirst
    cases hfirst.isOk

theorem lengthens_emit (op : Opcode) (a b : UInt32) : Lengthens outcome true 1 (emit op a b) :=
  lengthens_modify (fun s => by simp) (fun _ => rfl) fun _ => rfl

theorem lengthens_pushed : Lengthens outcome true 0 pushed :=
  lengthens_modify (fun _ => rfl) (fun _ => rfl) fun _ => rfl

theorem lengthens_popped : Lengthens outcome true 0 popped :=
  lengthens_modify (fun _ => rfl) (fun _ => rfl) fun _ => rfl

theorem lengthens_here : Lengthens outcome true 0 here :=
  lengthens_get_bind fun _ _ => lengthens_pure _

theorem lengthens_landHere (jump : Nat) : Lengthens outcome true 0 (landHere jump) :=
  lengthens_modify (fun _ => patch_length _ _ _) (fun _ => rfl) fun _ => rfl

theorem lengthens_symbol (name : Bytes) : Lengthens outcome true 0 (symbol name) :=
  lengthens_bind (n := 0) (k := 0)
    (lengthens_modify (fun _ => rfl) (fun _ => rfl) fun _ => rfl) fun _ =>
      lengthens_get_bind fun _ _ => lengthens_pure _

theorem lengthens_constant (v : Value) : Lengthens outcome true 0 (constant v) := by
  refine lengthens_get_bind fun s _ => ?_
  dsimp only
  split
  · exact lengthens_pure _
  · exact lengthens_bind (n := 0) (k := 0)
      (lengthens_modify (fun _ => rfl) (fun _ => rfl) fun _ => rfl) fun _ => lengthens_pure _

/-- What is written for a name that may be referred to. -/
theorem lengthens_named (op : Opcode) (name : Bytes) :
    Lengthens outcome true 1 (do emit op (← symbol name) 0; pushed) :=
  lengthens_bind (lengthens_symbol name) fun _ =>
    lengthens_bind (lengthens_emit _ _ _) fun _ => lengthens_pushed

theorem lengthens_load (r : Reference) :
    ∃ n, Lengthens outcome (outcome || r.scope != .outcome) n (load r) := by
  unfold load
  cases r.scope with
  | context =>
    rw [show (outcome || Scope.context != .outcome) = true from Bool.or_true _]
    exact ⟨1, lengthens_named .loadContext r.name⟩
  | input =>
    rw [show (outcome || Scope.input != .outcome) = true from Bool.or_true _]
    exact ⟨1, lengthens_named .loadInput r.name⟩
  | outcome =>
    rw [show (outcome || Scope.outcome != .outcome) = outcome from Bool.or_false _]
    cases outcome with
    | true =>
      refine ⟨1, lengthens_get_bind fun s hs => ?_⟩
      rw [if_pos hs]
      exact lengthens_named .loadOutcome r.name
    | false =>
      refine ⟨0, lengthens_get_bind fun s hs => ?_⟩
      rw [if_neg (by rw [hs]; exact Bool.false_ne_true)]
      exact lengthens_bind_refused (lengthens_throw _)

/-- An emitter and what comes behind it are accepted if both are; how much they write depends only
on how much each writes. -/
theorem exists_lengthens_bind {b : Bool} {m : Emitter Unit} (hm : ∃ n, Lengthens outcome b n m)
    (b' : Bool) (k : Nat) :
    ∃ n, ∀ f : Unit → Emitter Unit, (∀ u, Lengthens outcome b' k (f u)) →
      Lengthens outcome (b && b') n (m >>= f) := by
  obtain ⟨n, hm⟩ := hm
  cases b with
  | false => exact ⟨n, fun _ _ => lengthens_bind_refused hm⟩
  | true => exact ⟨n + k, fun _ hf => lengthens_bind hm hf⟩

/-- An expression is accepted unless it refers to an outcome where there is none. -/
theorem lengthens_expression (outcome : Bool) (x : Expr) :
    ∃ n, Lengthens outcome (outcome || !x.refersToOutcome) n (expression x) := by
  have hthen : ∀ {m : Emitter Unit} {b : Bool}, (∃ n, Lengthens outcome b n m) →
      ∀ op, ∃ n, Lengthens outcome b n (m >>= fun _ => emit op 0 0) := fun {m b} hm op => by
    obtain ⟨n, hn⟩ := exists_lengthens_bind hm true 1
    rw [Bool.and_true] at hn
    exact ⟨n, hn _ fun _ => lengthens_emit op 0 0⟩
  induction x with
  | literal position v =>
    refine ⟨1, ?_⟩
    rw [Expr.refersToOutcome, Bool.not_false, Bool.or_true]
    exact lengthens_bind (lengthens_constant v) fun _ =>
      lengthens_bind (lengthens_emit _ _ _) fun _ => lengthens_pushed
  | reference r => exact lengthens_load r
  | present position r => exact hthen (lengthens_load r) .isPresent
  | unary position op x ih => exact hthen ih _
  | binary position op l r ihl ihr =>
    have hboth : (outcome || !(Expr.binary position op l r).refersToOutcome) =
        ((outcome || !l.refersToOutcome) && (outcome || !r.refersToOutcome)) := by
      rw [Expr.refersToOutcome, Bool.not_or, Bool.or_and_distrib_left]
    rw [hboth]
    obtain ⟨n, hr⟩ := exists_lengthens_bind ihr true 1
    rw [Bool.and_true] at hr
    cases hcode : strictOpcode? op with
    | some code =>
      obtain ⟨k, hl⟩ := exists_lengthens_bind ihl (outcome || !r.refersToOutcome) n
      refine ⟨k, ?_⟩
      unfold expression
      rw [hcode]
      exact hl _ fun _ => hr _ fun _ => lengthens_bind (lengthens_emit code 0 0) fun _ =>
        lengthens_popped
    | none =>
      obtain ⟨k, hl⟩ :=
        exists_lengthens_bind ihl (outcome || !r.refersToOutcome) (0 + (1 + (0 + n)))
      refine ⟨k, ?_⟩
      unfold expression
      rw [hcode]
      -- The operand on the right stands between a jump and a check, wherever the jump is.
      exact hl _ fun _ => lengthens_bind lengthens_here fun jump =>
        lengthens_bind (lengthens_emit _ 0 0) fun _ => lengthens_bind lengthens_popped fun _ =>
          hr _ fun _ => lengthens_bind (lengthens_emit .checkBool 0 0) fun _ =>
            lengthens_landHere jump

/-! ## Emitters that are never, or always, refused -/

/-- An emitter is never refused where outcomes may or may not be referred to. -/
def Accepts (outcome : Bool) (m : Emitter α) : Prop :=
  ∀ s, s.allowOutcome = outcome → ∃ a s', Emits m s a s' ∧ s'.allowOutcome = outcome

/-- An emitter is always refused, by an expression. -/
def Refuses (outcome : Bool) (m : Emitter α) : Prop :=
  ∀ s, s.allowOutcome = outcome → ∃ e s', m.run.run s = (.error (.expression e), s')

theorem Lengthens.accepts {m : Emitter α} (h : Lengthens outcome true n m) : Accepts outcome m := by
  intro s hs
  have hwritten := h s hs
  rcases hrun : m.run.run s with ⟨e | a, t⟩
  · rw [hrun] at hwritten
    cases hwritten.isOk
  · rw [hrun] at hwritten
    exact ⟨a, t, hrun, hwritten.allowOutcome.trans hs⟩

theorem Lengthens.refuses {m : Emitter α} (h : Lengthens outcome false n m) :
    Refuses outcome m := by
  intro s hs
  have hwritten := h s hs
  rcases hrun : m.run.run s with ⟨e | a, t⟩
  · rw [hrun] at hwritten
    obtain ⟨x, rfl⟩ := hwritten.byExpression e rfl
    exact ⟨x, t, rfl⟩
  · rw [hrun] at hwritten
    cases hwritten.isOk

theorem accepts_pure (a : α) : Accepts outcome (pure a) := fun s hs =>
  ⟨a, s, emits_pure.2 ⟨rfl, rfl⟩, hs⟩

theorem accepts_bind {m : Emitter α} {f : α → Emitter β} (hm : Accepts outcome m)
    (hf : ∀ a, Accepts outcome (f a)) : Accepts outcome (m >>= f) := by
  intro s hs
  obtain ⟨a, t, hma, ht⟩ := hm s hs
  obtain ⟨b, u, hfb, hu⟩ := hf a t ht
  exact ⟨b, u, emits_bind.2 ⟨a, t, hma, hfb⟩, hu⟩

theorem refuses_bind {m : Emitter α} {f : α → Emitter β} (hm : Accepts outcome m)
    (hf : ∀ a, Refuses outcome (f a)) : Refuses outcome (m >>= f) := by
  intro s hs
  obtain ⟨a, t, hma, ht⟩ := hm s hs
  rw [run_bind, show m.run.run s = (.ok a, t) from hma]
  exact hf a t ht

theorem accepts_beginConjunct : Accepts outcome beginConjunct := by
  intro s hs
  by_cases hnext : 0 < s.conjuncts
  · refine ⟨(), { s with
      exits := s.exits ++ [s.code.length], code := s.code ++ [⟨.jumpIfFalse, 0, 0⟩],
      depth := s.depth - 1, conjuncts := s.conjuncts + 1 },
      emits_bind.2 ⟨s, s, emits_get.2 ⟨rfl, rfl⟩, ?_⟩, hs⟩
    rw [if_pos hnext]
    rfl
  · refine ⟨(), { s with conjuncts := s.conjuncts + 1 },
      emits_bind.2 ⟨s, s, emits_get.2 ⟨rfl, rfl⟩, ?_⟩, hs⟩
    rw [if_neg hnext]
    rfl

/-- Expressions are accepted that do not refer to outcomes where there are none. -/
theorem accepts_expression {x : Expr} (h : outcome = true ∨ x.refersToOutcome = false) :
    Accepts outcome (expression x) := by
  obtain ⟨n, hx⟩ := lengthens_expression outcome x
  rw [show (outcome || !x.refersToOutcome) = true by simpa using h] at hx
  exact hx.accepts

theorem accepts_emitExpression {x : Expr} (h : outcome = true ∨ x.refersToOutcome = false) :
    Accepts outcome (emitExpression x) :=
  accepts_bind accepts_beginConjunct fun _ => accepts_expression h

/-- Expressions are refused that refer to an outcome where there is none. -/
theorem refuses_expression {x : Expr} (h : x.refersToOutcome = true) :
    Refuses false (expression x) := by
  obtain ⟨n, hx⟩ := lengthens_expression false x
  rw [h] at hx
  exact hx.refuses

end Assembly

/-- An expression passes its check exactly if it can be read, and refers to no outcome where there is
none. -/
theorem checkedExpression_eq_ok_iff {allowOutcome : Bool} {source : Bytes} {x : Expr} :
    checkedExpression allowOutcome source = .ok x ↔
      Expr.parse source = .ok x ∧ (allowOutcome = true ∨ x.refersToOutcome = false) := by
  unfold checkedExpression
  cases hp : Expr.parse source with
  | error e => exact ⟨fun h => (nomatch h), fun h => (nomatch h.1)⟩
  | ok y =>
    dsimp only [bind, Except.bind]
    by_cases hy : allowOutcome = true ∨ y.refersToOutcome = false
    · obtain ⟨u, s, hs, -⟩ := Assembly.accepts_emitExpression hy (.start .empty allowOutcome) rfl
      rw [show (ExceptT.run (Assembly.emitExpression y)).run (.start .empty allowOutcome) =
        (.ok u, s) from hs]
      constructor
      · rintro ⟨⟩
        exact ⟨rfl, hy⟩
      · rintro ⟨⟨⟩, -⟩
        rfl
    · rw [not_or, Bool.not_eq_true, Bool.not_eq_false] at hy
      obtain ⟨rfl, hrefers⟩ := hy
      have hrefuses : Assembly.Refuses false (Assembly.emitExpression y) :=
        Assembly.refuses_bind Assembly.accepts_beginConjunct fun _ =>
          Assembly.refuses_expression hrefers
      obtain ⟨e, s, hs⟩ := hrefuses (.start .empty false) rfl
      rw [show (ExceptT.run (Assembly.emitExpression y)).run (.start .empty false) =
        (.error (.expression e), s) from hs]
      refine ⟨fun h => (nomatch h), ?_⟩
      rintro ⟨⟨⟩, h⟩
      simp [hrefers] at h

/-- A checked expression does not refer to an outcome where there is none. -/
theorem refersToOutcome_of_checked {source : Bytes} {x : Expr}
    (h : checkedExpression false source = .ok x) : x.refersToOutcome = false :=
  (checkedExpression_eq_ok_iff.1 h).2.resolve_left Bool.false_ne_true

/-! ## Conjuncts -/

/-- A conjunct that is accepted where there are no outcomes. -/
def Conjunct.Acceptable : Conjunct → Prop
  | expression x => x.refersToOutcome = false
  | anyFired nodes => nodes ≠ []
  | _ => True

/-- Whether a conjunct is accepted where outcomes may or may not be referred to. -/
def Conjunct.accepted (outcome : Bool) : Conjunct → Bool
  | expression x => outcome || !x.refersToOutcome
  | anyFired nodes => !nodes.isEmpty
  | _ => true

namespace Assembly

theorem accepts_forM {f : α → Emitter Unit} {xs : List α} (h : ∀ x ∈ xs, Accepts outcome (f x)) :
    Accepts outcome (xs.forM f) := by
  induction xs with
  | nil => exact accepts_pure _
  | cons x xs ih =>
    exact accepts_bind (h x (List.mem_cons_self ..)) fun _ =>
      ih fun y hy => h y (List.mem_cons_of_mem _ hy)

theorem lengthens_orFired (outcome : Bool) (nodes : List UInt32) :
    ∃ n, Lengthens outcome true n (orFired nodes) := by
  induction nodes with
  | nil => exact ⟨0, lengthens_pure _⟩
  | cons node rest ih =>
    obtain ⟨n, hrest⟩ := ih
    exact ⟨_, lengthens_bind lengthens_here fun _ => lengthens_bind (lengthens_emit _ _ _) fun _ =>
      lengthens_bind lengthens_popped fun _ => lengthens_bind (lengthens_emit _ _ _) fun _ =>
        lengthens_bind lengthens_pushed fun _ => lengthens_bind hrest fun _ => lengthens_pure _⟩

theorem lengthens_landAll (jumps : List Nat) :
    Lengthens outcome true 0 (jumps.forM landHere) := by
  induction jumps with
  | nil => exact lengthens_pure _
  | cons jump rest ih => exact lengthens_bind (k := 0) (lengthens_landHere jump) fun _ => ih

theorem lengthens_body {c : Conjunct} (hc : c ≠ .anyFired []) (outcome : Bool) :
    ∃ n, Lengthens outcome (c.accepted outcome) n c.body := by
  cases c with
  | categorical p =>
    refine ⟨1, lengthens_bind (k := 1) (lengthens_symbol _) fun key => ?_⟩
    cases p.expected with
    | some text =>
      exact lengthens_bind (lengthens_constant _) fun _ => lengthens_bind (lengthens_emit _ _ _)
        fun _ => lengthens_pushed
    | none => exact lengthens_bind (lengthens_emit _ _ _) fun _ => lengthens_pushed
  | expression x => exact lengthens_expression outcome x
  | fired node =>
    exact ⟨_, lengthens_bind (lengthens_emit .fired node 0) fun _ => lengthens_pushed⟩
  | notFired node =>
    exact ⟨_, lengthens_bind (lengthens_emit .notFired node 0) fun _ => lengthens_pushed⟩
  | anyFired nodes =>
    cases nodes with
    | nil => exact absurd rfl hc
    | cons node rest =>
      obtain ⟨n, hrest⟩ := lengthens_orFired outcome rest
      exact ⟨_, lengthens_bind (lengthens_emit .fired node 0) fun _ =>
        lengthens_bind lengthens_pushed fun _ => lengthens_bind hrest fun jumps =>
          lengthens_landAll jumps⟩

/-- All conjuncts are started before they are written but a test of no nodes. -/
theorem emit_eq {c : Conjunct} (hc : c ≠ .anyFired []) :
    c.emit = beginConjunct >>= fun _ => c.body := by
  cases c with
  | anyFired nodes =>
    cases nodes with
    | nil => exact absurd rfl hc
    | cons node rest => rfl
  | _ => rfl

theorem accepts_conjunct {c : Conjunct} (h : c.Acceptable) : Accepts outcome c.emit := by
  have hc : c ≠ .anyFired [] := by
    rintro rfl
    exact h rfl
  have haccepted : c.accepted outcome = true := by
    cases c with
    | expression x => simp [Conjunct.accepted, show x.refersToOutcome = false from h]
    | anyFired nodes => simpa [Conjunct.accepted] using (show nodes ≠ [] from h)
    | _ => rfl
  obtain ⟨n, hbody⟩ := lengthens_body hc outcome
  rw [haccepted] at hbody
  rw [emit_eq hc]
  exact accepts_bind accepts_beginConjunct fun _ => hbody.accepts

theorem accepts_conjuncts {cs : List Conjunct} (h : ∀ c ∈ cs, c.Acceptable) :
    Accepts outcome (cs.forM Conjunct.emit) :=
  accepts_forM fun c hc => accepts_conjunct (h c hc)

/-- Acceptable conjuncts are assembled, behind any symbols. -/
theorem exists_emits {cs : List Conjunct} (h : ∀ c ∈ cs, c.Acceptable) (symbols : SymbolTable) :
    ∃ s, Emits (cs.forM Conjunct.emit) (.start symbols false) () s := by
  obtain ⟨u, s, hs, -⟩ := accepts_conjuncts h (.start symbols false) rfl
  exact ⟨s, hs⟩

/-- Assembling conjuncts only adds symbols. -/
theorem symbols_prefix {cs : List Conjunct} {symbols : SymbolTable} {outcome : Bool} {u : Unit}
    {s : Assembly} (h : Emits (cs.forM Conjunct.emit) (.start symbols outcome) u s)
    (hcs : ∀ c ∈ cs, c.hasNegativeZero = false) : symbols.names <+: s.symbols.names := by
  cases cs with
  | nil =>
    obtain ⟨-, rfl⟩ := emits_pure.1 h
    exact List.prefix_rfl
  | cons c cs =>
    obtain ⟨_, t, hc, hrest⟩ := emits_bind.1 h
    have hsound : Sound (.start symbols outcome) :=
      ⟨Nat.le_refl _, fun _ hd => absurd hd (by simp [start])⟩
    obtain ⟨hfirst, -, -⟩ := chained_first hc rfl rfl hsound (hcs c (by simp))
    obtain ⟨hmore, -⟩ := answer_conjuncts hrest hfirst.conjuncts hfirst.exits hfirst.sound
      fun d hd => hcs d (List.mem_cons_of_mem _ hd)
    exact hfirst.symbols.trans hmore.symbols

end Assembly
end DecisionEngine
