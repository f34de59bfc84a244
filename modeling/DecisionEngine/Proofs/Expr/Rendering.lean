import DecisionEngine.Proofs.Expr.Spelling
import DecisionEngine.Proofs.Program.Meaning
import Mathlib
/-!
# What the text of an expression reads back as

The text of an expression has brackets around every operator on two values, and none around `!`,
which binds looser than comparisons, arithmetic and minus. So `!` next to one of them reaches over
it when the text is read again, or cannot be read there at all.

* `Expr.reread` — what the text of an expression reads back as, if anything.
* `Expr.parse_toText` — reading the text gives just that.
* `Expr.faithful` — no `!` is an operand of an operator that binds tighter.
* `Expr.rendering_faithful_iff` — the text reads back as the expression just if it is faithful.
-/

namespace DecisionEngine
namespace Expr

/-- Whether an expression is one with `!` in front. -/
def isNot : Expr → Bool
  | .unary _ .not _ => true
  | _ => false

/-- What the text of an expression reads back as in front of something that makes `k a` of the
operand `a` next to it: a `!` reaches over both, and it is no operand of what binds tighter. -/
def rereadInto : Expr → (Expr → Option Expr) → Option Expr
  | .unary _ .not x, k => (x.rereadInto k).map (.unary 0 .not)
  | .unary _ .neg x, k =>
    if x.isNot then none else ((x.rereadInto some).map (.unary 0 .neg)).bind k
  | .binary _ op l r, k =>
    if op.joins then
      (l.rereadInto some).bind fun a => ((r.rereadInto some).map (.binary 0 op a)).bind k
    else
      (l.rereadInto fun a =>
        if r.isNot then none else (r.rereadInto some).map (.binary 0 op a)).bind k
  | x, k => k x.unplaced

/-- What the text of an expression reads back as. -/
def reread (x : Expr) : Option Expr := x.rereadInto some

/-- What the text of an expression reads back as where an operand of a tight operator is due. -/
def rereadTight (x : Expr) : Option Expr := if x.isNot then none else x.reread

theorem rereadInto_of_not_isNot {x : Expr} (hx : x.isNot = false) (k : Expr → Option Expr) :
    x.rereadInto k = x.reread.bind k := by
  cases x with
  | literal | reference | present => rfl
  | unary _ op x =>
    cases op with
    | not => cases hx
    | neg =>
      unfold reread
      rw [rereadInto, rereadInto]
      cases x.isNot <;> simp
  | binary _ op l r =>
    unfold reread
    rw [rereadInto, rereadInto]
    cases op.joins with
    | false => simp
    | true => simp [Option.bind_assoc]

section Reading

variable {finish : Nat} {v : Value} {r : Reference} {x l : Expr} {op : BinaryOp}
  {t m : Token} {ts rest back : List Token} {k : Expr → Option Expr} {found : Option Expr}

/-! ## Literals and references -/

theorem reading_word {name : Bytes} (ht : t.lexeme = .name name)
    (hname : wordLiteral? name = some v) :
    reading (negative finish (t :: rest)) = some (.literal 0 v, rest) := by
  rw [negative_of_not_minus (by simp [Token.isMark, ht]), primary]
  simp only [ht, hname, reading, unplaced]

theorem reading_literal (ht : t.lexeme = v.lexeme) :
    reading (negative finish (t :: rest)) = some (.literal 0 v, rest) := by
  cases v with
  | null => exact reading_word ht (by decide)
  | bool b => cases b <;> exact reading_word ht (by decide)
  | int | real | text =>
    rw [Value.lexeme] at ht
    rw [negative_of_not_minus (by simp [Token.isMark, ht]), primary]
    simp only [ht, reading, unplaced]

theorem reading_reference (hr : r.Named) (ht : t.lexeme = .name r.toText)
    (hrest : opens rest = false) :
    reading (negative finish (t :: rest)) = some (.reference ⟨0, r.scope, r.name⟩, rest) := by
  have hword : wordLiteral? r.toText = none := by
    unfold wordLiteral?
    rw [if_neg (toText_ne_of_dot (by decide)), if_neg (toText_ne_of_dot (by decide)),
      if_neg (toText_ne_of_dot (by decide))]
  have hkeyword : isKeyword r.toText = false := by
    simp only [isKeyword, Bool.or_eq_false_iff, beq_eq_false_iff_ne]
    exact ⟨⟨toText_ne_of_dot (by decide), toText_ne_of_dot (by decide)⟩,
      toText_ne_of_dot (by decide)⟩
  rw [negative_of_not_minus (by simp [Token.isMark, ht]), primary]
  simp [ht, hword, hkeyword, hrest, referenceTo_toText hr, reading, unplaced, bind, Except.bind,
    pure, Except.pure]

theorem reading_present {t₁ t₂ t₃ t₄ : Token} (hr : r.Named) (h₁ : t₁.lexeme = .name (utf8 "has"))
    (h₂ : t₂.lexeme = .mark .opening) (h₃ : t₃.lexeme = .name r.toText)
    (h₄ : t₄.lexeme = .mark .closing) :
    reading (negative finish (t₁ :: t₂ :: t₃ :: t₄ :: rest)) =
      some (.present 0 ⟨0, r.scope, r.name⟩, rest) := by
  have hword : wordLiteral? (utf8 "has") = none := by decide
  have hopens : opens (t₂ :: t₃ :: t₄ :: rest) = true := by simp [opens, Token.isMark, h₂]
  rw [negative_of_not_minus (by simp [Token.isMark, h₁]), primary]
  simp [h₁, hword, hopens, presence, h₃, referenceTo_toText hr, closing, Token.isMark, h₄, reading,
    unplaced, bind, Except.bind, pure, Except.pure]

/-! ## Operands and what follows them -/

/-- What follows an operand `a` makes a comparison `k a` of it, up to `back`. -/
def Continues (finish : Nat) (rest : List Token) (k : Expr → Option Expr) (back : List Token) :
    Prop :=
  ∀ ts a, reading (negative finish ts) = some (a, rest) →
    reading (comparison finish ts) = (k a).map fun x => (x, back)

theorem continues_of_loose (h : Loose rest) : Continues finish rest some rest := by
  intro ts a ha
  exact reading_comparison_of_loose ha (by rintro r ⟨rfl⟩; exact h)

theorem continues_of_tight (hm : m.lexeme = .mark op.mark) (hop : op.joins = false)
    (hr : reading (negative finish rest) = found.map fun x => (x, back)) (hback : Loose back) :
    Continues finish (m :: rest) (fun a => found.map (.binary 0 op a)) back := by
  intro ts a ha
  rw [reading_comparison_next ha hm hop hr, Option.map_map, Option.map_map]
  · rfl
  · intro r hmem
    obtain ⟨x, -, rfl⟩ := Option.map_eq_some_iff.1 hmem
    exact hback

/-- The tokens that the text of an expression is cut into read as an operand of a tight operator
gives what `rereadTight` says. -/
def ReadsTight (finish : Nat) (x : Expr) : Prop :=
  ∀ ts rest, ts.map (·.lexeme) = x.lexemes → opens rest = false →
    reading (negative finish (ts ++ rest)) = x.rereadTight.map fun y => (y, rest)

/-- The tokens that the text of an expression is cut into and what follows them, read as an operand
of a loose operator, give what `rereadInto` says. -/
def ReadsInto (finish : Nat) (x : Expr) : Prop :=
  ∀ ts rest k back, ts.map (·.lexeme) = x.lexemes → opens rest = false →
    Continues finish rest k back →
    reading (negation finish (ts ++ rest)) = (x.rereadInto k).map fun y => (y, back)

/-- The first token of an expression, which is `!` just if the expression has it in front. -/
theorem exists_lexemes_eq_cons (x : Expr) : ∃ l ls, x.lexemes = l :: ls ∧
    (x.isNot = true → l = .mark .bang) ∧
    (x.isNot = false → l ≠ .mark .bang ∧ l ≠ .name (utf8 "not")) := by
  cases x with
  | literal _ v =>
    refine ⟨_, _, rfl, nofun, fun _ => ?_⟩
    cases v with
    | null => exact ⟨by decide, by decide⟩
    | bool b => cases b <;> exact ⟨by decide, by decide⟩
    | int | real | text => exact ⟨nofun, nofun⟩
  | reference r =>
    refine ⟨_, _, rfl, nofun, fun _ => ⟨nofun, fun h => ?_⟩⟩
    exact toText_ne_of_dot (by decide) (Lexeme.name.inj h)
  | present _ r => exact ⟨_, _, rfl, nofun, fun _ => ⟨nofun, by decide⟩⟩
  | unary _ op x =>
    cases op with
    | not => exact ⟨_, _, rfl, fun _ => rfl, nofun⟩
    | neg => exact ⟨_, _, rfl, nofun, fun _ => ⟨by decide, nofun⟩⟩
  | binary _ op l r => exact ⟨_, _, rfl, nofun, fun _ => ⟨by decide, nofun⟩⟩

theorem ReadsTight.of_isNot (hx : x.isNot = true) : ReadsTight finish x := by
  intro ts rest hts hrest
  obtain ⟨l, ls, hlexemes, hbang, -⟩ := x.exists_lexemes_eq_cons
  rw [hlexemes] at hts
  obtain ⟨t, ts, rfl, ht, -⟩ := List.map_eq_cons_iff.1 hts
  rw [rereadTight, if_pos hx, List.cons_append]
  exact reading_negative_bang (ht.trans (hbang hx))

/-- An operand without `!` in front is a comparison with whatever follows it. -/
theorem ReadsTight.into (h : ReadsTight finish x) (hx : x.isNot = false) : ReadsInto finish x := by
  intro ts rest k back hts hrest hk
  obtain ⟨l, ls, hlexemes, -, hl⟩ := x.exists_lexemes_eq_cons
  have hread := h ts rest hts hrest
  rw [hlexemes] at hts
  obtain ⟨t, ts, rfl, ht, -⟩ := List.map_eq_cons_iff.1 hts
  have hstands : t.stands .bang "not" = false := by
    rw [Token.stands, Bool.or_eq_false_iff, beq_eq_false_iff_ne, beq_eq_false_iff_ne, ht]
    exact hl hx
  rw [rereadTight, hx] at hread
  rw [rereadInto_of_not_isNot hx, List.cons_append, negation_of_not_stands hstands]
  cases hreread : x.reread with
  | none =>
    rw [hreread] at hread
    exact reading_comparison_of_loose hread (by simp)
  | some a =>
    rw [hreread] at hread
    exact hk _ _ hread

/-! ## Operators -/

theorem readsInto_not {p : Nat} (h : ReadsInto finish x) :
    ReadsInto finish (.unary p .not x) := by
  intro ts rest k back hts hrest hk
  obtain ⟨t, ts, rfl, ht, hts⟩ := List.map_eq_cons_iff.1 hts
  rw [List.cons_append, reading_negation_bang ht, h ts rest k back hts hrest hk, rereadInto,
    Option.map_map, Option.map_map]
  rfl

theorem readsTight_neg {p : Nat} (h : ReadsTight finish x) :
    ReadsTight finish (.unary p .neg x) := by
  intro ts rest hts hrest
  obtain ⟨t, ts, rfl, ht, hts⟩ := List.map_eq_cons_iff.1 hts
  rw [List.cons_append, reading_negative_minus ht, h ts rest hts hrest]
  show _ = (Expr.rereadInto _ some).map _
  rw [rereadInto]
  unfold rereadTight reread
  cases x.isNot with
  | true => rfl
  | false => simp [Option.map_map, Function.comp_def]

/-- A mark other than the opening bracket opens nothing. -/
theorem opens_of_mark {mark : Mark} (hm : m.lexeme = .mark mark) (hne : mark ≠ .opening) :
    opens (m :: rest) = false := by
  simp [opens, Token.isMark, hm, hne]

theorem reading_inside_of_joins {c : Token} {tl tr : List Token} (hl : ReadsInto finish l)
    (hx : ReadsInto finish x) (htl : tl.map (·.lexeme) = l.lexemes) (hm : m.lexeme = .mark op.mark)
    (hop : op.joins = true) (htr : tr.map (·.lexeme) = x.lexemes)
    (hc : c.lexeme = .mark .closing) :
    reading (chain finish .or (tl ++ m :: (tr ++ c :: rest))) =
      (l.reread.bind fun a => x.reread.map (.binary 0 op a)).map fun y => (y, c :: rest) := by
  have hends : Ends (c :: rest) := by
    rintro t ⟨rfl⟩
    exact hc
  have hleft := hl tl (m :: (tr ++ c :: rest)) some _ htl
    (opens_of_mark hm (by cases op <;> decide)) (continues_of_loose (loose_of_joins hm hop))
  have hright := hx tr (c :: rest) some _ htr (opens_of_mark hc (by decide))
    (continues_of_loose hends.loose)
  unfold reread
  cases hreread : l.rereadInto some with
  | none =>
    rw [hreread] at hleft
    exact reading_chain_or_of_ends hleft nofun
  | some a =>
    rw [hreread] at hleft
    rw [reading_chain_or_next hleft hm hop hright, Option.bind_some, Option.map_map,
      Option.map_map]
    · rfl
    · intro r hmem
      obtain ⟨y, -, rfl⟩ := Option.map_eq_some_iff.1 hmem
      exact hends

theorem reading_inside_of_tight {c : Token} {tl tr : List Token} (hl : ReadsInto finish l)
    (hx : ReadsTight finish x) (htl : tl.map (·.lexeme) = l.lexemes)
    (hm : m.lexeme = .mark op.mark) (hop : op.joins = false)
    (htr : tr.map (·.lexeme) = x.lexemes) (hc : c.lexeme = .mark .closing) :
    reading (chain finish .or (tl ++ m :: (tr ++ c :: rest))) =
      (l.rereadInto fun a => x.rereadTight.map (.binary 0 op a)).map fun y => (y, c :: rest) := by
  have hends : Ends (c :: rest) := by
    rintro t ⟨rfl⟩
    exact hc
  have hright := hx tr (c :: rest) htr (opens_of_mark hc (by decide))
  have hleft := hl tl (m :: (tr ++ c :: rest)) _ _ htl
    (opens_of_mark hm (by cases op <;> decide)) (continues_of_tight hm hop hright hends.loose)
  refine reading_chain_or_of_ends hleft fun r hmem => ?_
  obtain ⟨y, -, rfl⟩ := Option.map_eq_some_iff.1 hmem
  exact hends

theorem readsTight_binary {p : Nat} (hl : ReadsInto finish l) (hx : ReadsInto finish x)
    (hx' : ReadsTight finish x) : ReadsTight finish (.binary p op l x) := by
  intro ts rest hts hrest
  obtain ⟨o, inside, rfl, ho, hinside⟩ := List.map_eq_cons_iff.1 hts
  obtain ⟨both, ends, rfl, hboth, hends⟩ := List.map_eq_append_iff.1 hinside
  obtain ⟨c, after, rfl, hc, hafter⟩ := List.map_eq_cons_iff.1 hends
  obtain rfl := List.map_eq_nil_iff.1 hafter
  obtain ⟨tl, more, rfl, htl, hmore⟩ := List.map_eq_append_iff.1 hboth
  obtain ⟨m, tr, rfl, hm, htr⟩ := List.map_eq_cons_iff.1 hmore
  have hall : o :: (tl ++ m :: tr ++ [c]) ++ rest = o :: (tl ++ m :: (tr ++ c :: rest)) := by simp
  rw [hall]
  refine reading_brackets ho hc ?_
  show _ = (Expr.rereadInto _ some).map _
  rw [rereadInto]
  cases hop : op.joins with
  | true =>
    rw [reading_inside_of_joins hl hx htl hm hop htr hc, if_pos rfl]
    simp only [Option.bind_fun_some]
    rfl
  | false =>
    rw [reading_inside_of_tight hl hx' htl hm hop htr hc, if_neg (by decide),
      Option.bind_fun_some]
    have htight : (fun a => x.rereadTight.map (Expr.binary 0 op a)) = fun a =>
        if x.isNot then none else (x.rereadInto some).map (Expr.binary 0 op a) := by
      funext a
      unfold rereadTight reread
      cases x.isNot <;> rfl
    rw [htight]

/-- The tokens that the text of an expression is cut into read as `rereadTight` and `rereadInto`
say. -/
theorem reads (hx : x.Built (fun _ => True) Reference.Named) :
    ReadsTight finish x ∧ ReadsInto finish x := by
  induction x with
  | literal p v =>
    have htight : ReadsTight finish (.literal p v) := by
      intro ts rest hts hrest
      obtain ⟨t, after, rfl, ht, hafter⟩ := List.map_eq_cons_iff.1 hts
      obtain rfl := List.map_eq_nil_iff.1 hafter
      exact reading_literal ht
    exact ⟨htight, htight.into rfl⟩
  | reference r =>
    have htight : ReadsTight finish (.reference r) := by
      intro ts rest hts hrest
      obtain ⟨t, after, rfl, ht, hafter⟩ := List.map_eq_cons_iff.1 hts
      obtain rfl := List.map_eq_nil_iff.1 hafter
      exact reading_reference hx ht hrest
    exact ⟨htight, htight.into rfl⟩
  | present p r =>
    have htight : ReadsTight finish (.present p r) := by
      intro ts rest hts hrest
      obtain ⟨t₁, _, rfl, h₁, hts⟩ := List.map_eq_cons_iff.1 hts
      obtain ⟨t₂, _, rfl, h₂, hts⟩ := List.map_eq_cons_iff.1 hts
      obtain ⟨t₃, _, rfl, h₃, hts⟩ := List.map_eq_cons_iff.1 hts
      obtain ⟨t₄, after, rfl, h₄, hafter⟩ := List.map_eq_cons_iff.1 hts
      obtain rfl := List.map_eq_nil_iff.1 hafter
      exact reading_present hx h₁ h₂ h₃ h₄
    exact ⟨htight, htight.into rfl⟩
  | unary p op x ih =>
    obtain ⟨htight, hinto⟩ := ih hx
    cases op with
    -- The reader of tight operands stops at `!`, and what follows belongs to what `!` stands for.
    | not => exact ⟨.of_isNot rfl, readsInto_not hinto⟩
    | neg => exact ⟨readsTight_neg htight, (readsTight_neg htight).into rfl⟩
  | binary p op l r ihl ihr =>
    obtain ⟨-, hl⟩ := ihl hx.1
    obtain ⟨hr', hr⟩ := ihr hx.2
    have htight : ReadsTight finish (.binary p op l r) := readsTight_binary hl hr hr'
    exact ⟨htight, htight.into rfl⟩

end Reading

/-! ## Texts -/

/-- Reading the text of an expression gives what `reread` says, up to places in the text. -/
theorem parse_toText {x : Expr} (hx : x.Built Value.Spelled Reference.Named) :
    (parse x.toText).toOption.map unplaced = x.reread := by
  have hcut : Cut (x.toText ++ []) (x.lexemes ++ []) := cut_toText hx nofun cut_nil
  rw [List.append_nil, List.append_nil] at hcut
  obtain ⟨ts, hts, hlexemes⟩ := hcut 0
  have hreads : ReadsTight ts.finish x ∧ ReadsInto ts.finish x :=
    reads (hx.mono (fun _ _ => trivial) fun _ h => h)
  have hread := hreads.2 ts.tokens [] some [] hlexemes rfl
    (continues_of_loose ⟨stops_nil, stops_nil, nofun⟩)
  have hchain := reading_chain_or_of_ends hread (by
    intro r hmem
    obtain ⟨y, -, rfl⟩ := Option.map_eq_some_iff.1 hmem
    exact nofun)
  rw [List.append_nil] at hchain
  unfold parse tokenize
  rw [hts]
  show (ofTokens ts).toOption.map unplaced = x.rereadInto some
  unfold ofTokens
  cases hm : chain ts.finish .or ts.tokens with
  | error e =>
    rw [hm] at hchain
    exact (Option.map_eq_none_iff.1 hchain.symm).symm
  | ok r =>
    obtain ⟨⟨y, back⟩, hlt⟩ := r
    rw [hm] at hchain
    obtain ⟨z, hz, heq⟩ := Option.map_eq_some_iff.1 hchain.symm
    obtain ⟨rfl, rfl⟩ := Prod.mk.inj heq
    rw [hz]
    rfl

example : (Expr.binary 0 .eq (.literal 0 .null) (.unary 0 .not (.literal 0 .null))).reread = none :=
  rfl

/-! ## Faithful texts -/

/-- No `!` is an operand of an operator that binds tighter: of a comparison, of arithmetic or of
minus. -/
def faithful : Expr → Bool
  | .unary _ .not x => x.faithful
  | .unary _ .neg x => !x.isNot && x.faithful
  | .binary _ op l r => (op.joins || (!l.isNot && !r.isNot)) && (l.faithful && r.faithful)
  | _ => true

/-- What `!` is in front of reads back with `!` in front. -/
theorem isNot_of_rereadInto {x y : Expr} {k : Expr → Option Expr} (hx : x.isNot = true)
    (h : x.rereadInto k = some y) : y.isNot = true := by
  cases x with
  | unary _ op x =>
    cases op with
    | not =>
      rw [rereadInto] at h
      obtain ⟨z, -, rfl⟩ := Option.map_eq_some_iff.1 h
      rfl
    | neg => cases hx
  | literal | reference | present | binary => cases hx

theorem bind_map_binary_eq_some {p q : Option Expr} {op : BinaryOp} {l r : Expr} :
    (p.bind fun a => q.map (Expr.binary 0 op a)) = some (.binary 0 op l r) ↔
      p = some l ∧ q = some r := by
  cases p <;> cases q <;> simp

/-- An expression reads back as itself just if it is faithful. -/
theorem reread_eq_iff (x : Expr) : x.reread = some x.unplaced ↔ x.faithful = true := by
  induction x with
  | literal | reference | present => exact iff_of_true rfl rfl
  | unary _ op x ih =>
    cases op with
    | not =>
      show x.reread.map (Expr.unary 0 .not) = some (.unary 0 .not x.unplaced) ↔ x.faithful = true
      rw [← ih]
      cases x.reread <;> simp
    | neg =>
      show (if x.isNot then none else (x.reread.map (Expr.unary 0 .neg)).bind some) =
        some (.unary 0 .neg x.unplaced) ↔ (!x.isNot && x.faithful) = true
      rw [Bool.and_eq_true, ← ih]
      cases x.isNot <;> cases x.reread <;> simp
  | binary _ op l r ihl ihr =>
    show (if op.joins then l.reread.bind fun a => (r.reread.map (Expr.binary 0 op a)).bind some
      else (l.rereadInto fun a =>
        if r.isNot then none else r.reread.map (Expr.binary 0 op a)).bind some) =
        some (.binary 0 op l.unplaced r.unplaced) ↔
      ((op.joins || (!l.isNot && !r.isNot)) && (l.faithful && r.faithful)) = true
    rw [Bool.and_eq_true, Bool.and_eq_true, ← ihl, ← ihr]
    simp only [Option.bind_fun_some]
    cases op.joins with
    | true => simpa using bind_map_binary_eq_some
    | false =>
      rw [if_neg (by decide)]
      cases hl : l.isNot with
      | true =>
        -- What is read starts with the `!` of the left operand.
        refine iff_of_false (fun h => ?_) (by simp)
        cases isNot_of_rereadInto hl h
      | false =>
        rw [rereadInto_of_not_isNot hl]
        cases r.isNot with
        | true => simp
        | false => simpa using bind_map_binary_eq_some

/-! ## Expressions that were read -/

theorem nonneg_of_numberValue {source : Bytes} {n : Int64} (h : numberValue source = .ok (.int n)) :
    0 ≤ n.toInt := by
  rcases numberValue_cases h with ⟨x, -, hv⟩ | ⟨k, hlt, hv⟩
  · cases hv
  · cases hv
    rw [Int64.toInt_ofNat_of_lt hlt]
    exact Int.natCast_nonneg _

/-- The integers of a source have no sign, and its names are those of references. -/
theorem writes_named : Writes (fun v => ∀ n, v = .int n → 0 ≤ n.toInt) Reference.Named where
  number := by
    rintro source v h n rfl
    exact nonneg_of_numberValue h
  text := nofun
  word := by
    rintro name v h n rfl
    rcases wordLiteral?_cases h with h | ⟨b, h⟩ <;> cases h
  name := fun _ _ _ hname hbytes h => named_of_referenceTo hname hbytes h

theorem spelled_of_parse {source : Bytes} {x : Expr} (h : parse source = .ok x)
    (hx : x.Built Value.Plain fun _ => True) : x.Built Value.Spelled Reference.Named := by
  exact (hx.and (built_of_parse writes_named h)).mono (fun v hv => ⟨hv.1, hv.2⟩) fun r hr => hr.2

theorem value_unplaced (e : Evidence) (x : Expr) : x.unplaced.value e = x.value e := by
  induction x with
  | literal | reference | present => rfl
  | unary _ op x ih => simp only [unplaced, value, ih]
  | binary _ op l r ihl ihr => simp only [unplaced, value, ihl, ihr]

/-- The text of a source's expression reads back as that expression, up to places in the text, just
if no `!` in it is an operand of an operator that binds tighter; and then both have the same value
on all evidence. -/
theorem rendering_faithful_iff {source : Bytes} {x : Expr} (h : parse source = .ok x)
    (hx : x.Built Value.Plain fun _ => True) :
    ((∃ y, parse x.toText = .ok y ∧ y.unplaced = x.unplaced) ↔ x.faithful = true) ∧
      (x.faithful = true →
        ∃ y, parse x.toText = .ok y ∧ ∀ e : Evidence, y.value e = x.value e) := by
  have hread := parse_toText (spelled_of_parse h hx)
  have hiff : (∃ y, parse x.toText = .ok y ∧ y.unplaced = x.unplaced) ↔ x.faithful = true := by
    rw [← reread_eq_iff, ← hread]
    cases parse x.toText with
    | error e => simp [Except.toOption]
    | ok y => simp [Except.toOption]
  refine ⟨hiff, fun hfaithful => ?_⟩
  obtain ⟨y, hy, heq⟩ := hiff.2 hfaithful
  refine ⟨y, hy, fun e => ?_⟩
  rw [← value_unplaced, heq, value_unplaced]

/-- An expression with operators of all kinds, read at the places they have in its source. -/
def sampleGuard : Expr :=
  .binary 20 .or
    (.binary 10 .and
      (.unary 0 .not (.binary 4 .eq (.reference ⟨2, .context, utf8 "a"⟩) (.literal 7 (.int 1))))
      (.binary 16 .lt (.unary 13 .neg (.reference ⟨14, .context, utf8 "b"⟩))
        (.literal 18 (.int 2))))
    (.present 23 ⟨27, .input, utf8 "c"⟩)

theorem rendering_faithful_iff_sample :
    parse (utf8 "!(a == 1) && -b < 2 || has(input.c)") = .ok sampleGuard ∧
      sampleGuard.Built Value.Plain (fun _ => True) ∧ sampleGuard.faithful = true ∧
      ((∃ y, parse sampleGuard.toText = .ok y ∧ y.unplaced = sampleGuard.unplaced) ↔
        sampleGuard.faithful = true) ∧
      (sampleGuard.faithful = true → ∃ y, parse sampleGuard.toText = .ok y ∧
        ∀ e : Evidence, y.value e = sampleGuard.value e) := by
  have hparse : parse (utf8 "!(a == 1) && -b < 2 || has(input.c)") = .ok sampleGuard := by cbv
  have hplain : sampleGuard.Built Value.Plain fun _ => True := by
    simp [sampleGuard, Built, Value.Plain]
  exact ⟨hparse, hplain, rfl, rendering_faithful_iff hparse hplain⟩

/-- The text of `(!a) == b` reads back as `!(a == b)`, which is true where `a` is true and `b` has
no value. -/
theorem rendering_of_not_beside_comparison : ∃ x y,
    parse (utf8 "(!a) == b") = .ok x ∧ x.Built Value.Plain (fun _ => True) ∧
      x.toText = utf8 "(!ctx.a == ctx.b)" ∧ parse x.toText = .ok y ∧ y.unplaced ≠ x.unplaced ∧
      ∃ e : Evidence, x.value e = .ok (.bool false) ∧ y.value e = .ok (.bool true) := by
  refine ⟨.binary 5 .eq (.unary 1 .not (.reference ⟨2, .context, utf8 "a"⟩))
      (.reference ⟨8, .context, utf8 "b"⟩),
    .unary 1 .not (.binary 8 .eq (.reference ⟨2, .context, utf8 "a"⟩)
      (.reference ⟨11, .context, utf8 "b"⟩)), by cbv, ?_, by decide, by cbv, by decide,
    ⟨.ofList [(utf8 "a", .bool true)], .empty, .empty, []⟩, by cbv, by cbv⟩
  exact ⟨trivial, trivial⟩

end Expr
end DecisionEngine
