import DecisionEngine.Expr.Grammar
import DecisionEngine.Proofs.Failure
/-!
# The levels and the results of their readers

A reader says of its result that it took a token. Here that is left out, and every reader gets the
equation of a reader that says nothing of it.

* `Expr.Level` — the levels of the grammar; `Expr.Level.read` — what the reader of a level gives.
* `Expr.plain` — a result alone.
* `Expr.length_of_plain` — what it leaves is shorter.
* `Expr.plain_chain`, …, `Expr.plain_primary_cons` — the equations.
-/

namespace DecisionEngine
namespace Expr

/-- The result of a reader without what it says of its length. -/
def plain {α : Type} {P : α × List Token → Prop}
    (m : Except Error { r : α × List Token // P r }) : Except Error (α × List Token) :=
  m.map Subtype.val

/-- A reader takes a token. -/
theorem length_of_plain {α : Type} {ts back : List Token} {a : α} {m : Except Error (Taken α ts)}
    (h : plain m = .ok (a, back)) : back.length < ts.length := by
  obtain ⟨⟨r, hr⟩, -, rfl⟩ := map_eq_ok.1 h
  exact hr

/-- The levels of the grammar: chains, `not`, `compare`, `unary` and `primary`. -/
inductive Level
  | chain (level : Chain)
  | negation
  | comparison
  | negative
  | primary
  deriving DecidableEq

/-- The level of the operands of a chain. -/
def Chain.next : Chain → Level
  | or => .chain .and
  | and => .negation
  | sum => .chain .term
  | term => .negative

/-- What the reader of a level makes of some tokens. -/
def Level.read (finish : Nat) : Level → List Token → Except Error (Expr × List Token)
  | chain level, ts => plain (Expr.chain finish level ts)
  | negation, ts => plain (Expr.negation finish ts)
  | comparison, ts => plain (Expr.comparison finish ts)
  | negative, ts => plain (Expr.negative finish ts)
  | primary, ts => plain (Expr.primary finish ts)

section

variable {finish : Nat} {level : Chain} {l : Expr} {t : Token} {ts rest : List Token}

theorem length_of_read {level : Level} {x : Expr} {back : List Token}
    (h : level.read finish ts = .ok (x, back)) : back.length < ts.length := by
  cases level <;> exact length_of_plain h

/-! ## Brackets and tests -/

theorem plain_closing_cons : plain (closing finish (t :: rest)) =
    if t.isMark .closing then .ok ((), rest)
    else .error ⟨.expectedMark Mark.closing.text, t.position⟩ := by
  unfold closing
  dsimp only
  split <;> rfl

theorem plain_presence_cons {o : Token} {position : Nat} :
    plain (presence finish position (o :: t :: rest)) =
      match t.lexeme with
      | .name n => do
        let target ← referenceTo t.position n
        let r ← plain (closing finish rest)
        return (.present position target, r.2)
      | _ => .error ⟨.presenceOfNoReference, t.position⟩ := by
  obtain ⟨lexeme, place⟩ := t
  cases lexeme with
  | number | text | mark => rfl
  | name n =>
    unfold presence
    dsimp only
    cases referenceTo place n with
    | error e => rfl
    | ok target =>
      cases closing finish rest with
      | error e => rfl
      | ok r => rfl

/-! ## Chains -/

theorem plain_operand : plain (operand finish level ts) = level.next.read finish ts := by
  cases level <;> rw [operand] <;> rfl

theorem plain_chain : plain (chain finish level ts) =
    (level.next.read finish ts >>= fun r => plain (chainFrom finish level r.1 r.2)) := by
  rw [chain, ← plain_operand]
  cases operand finish level ts with
  | error e => rfl
  | ok r =>
    obtain ⟨⟨l, mid⟩, h⟩ := r
    show plain (chainFrom finish level l mid >>= _) = plain (chainFrom finish level l mid)
    cases chainFrom finish level l mid with
    | error e => rfl
    | ok r => rfl

theorem plain_chainFrom_nil : plain (chainFrom finish level l []) = .ok (l, []) := by
  rw [chainFrom]
  rfl

theorem plain_chainFrom_cons : plain (chainFrom finish level l (t :: rest)) =
    match level.operator? t with
    | none => .ok (l, t :: rest)
    | some op =>
      level.next.read finish rest >>= fun r =>
        plain (chainFrom finish level (.binary t.position op l r.1) r.2) := by
  rw [chainFrom, ← plain_operand]
  cases level.operator? t with
  | none => rfl
  | some op =>
    dsimp only
    cases operand finish level rest with
    | error e => rfl
    | ok r =>
      obtain ⟨⟨x, mid⟩, h⟩ := r
      show plain (chainFrom finish level (.binary t.position op l x) mid >>= _) =
        plain (chainFrom finish level (.binary t.position op l x) mid)
      cases chainFrom finish level (.binary t.position op l x) mid with
      | error e => rfl
      | ok r => rfl

/-! ## The other levels -/

theorem negation_nil : negation finish [] = comparison finish [] := by rw [negation]

theorem plain_negation_cons : plain (negation finish (t :: rest)) =
    if t.stands .bang "not" then do
      let r ← plain (negation finish rest)
      return (.unary t.position .not r.1, r.2)
    else plain (comparison finish (t :: rest)) := by
  rw [negation]
  split
  · cases negation finish rest with
    | error e => rfl
    | ok r => rfl
  · rfl

theorem plain_comparison : plain (comparison finish ts) = do
    let r ← plain (chain finish .sum ts)
    match r.2 with
    | [] => return r
    | t :: after =>
      match comparison? t with
      | none => return r
      | some op => do
        let r' ← plain (chain finish .sum after)
        return (.binary t.position op r.1 r'.1, r'.2) := by
  rw [comparison]
  cases chain finish .sum ts with
  | error e => rfl
  | ok r =>
    obtain ⟨⟨l, mid⟩, h⟩ := r
    cases mid with
    | nil => rfl
    | cons t after =>
      cases hop : comparison? t with
      | none => simp [plain, Except.map, bind, Except.bind, pure, Except.pure, hop]
      | some op =>
        simp only [plain, Except.map, bind, Except.bind, pure, Except.pure, hop]
        cases chain finish .sum after with
        | error e => rfl
        | ok r => rfl

theorem negative_nil : negative finish [] = primary finish [] := by rw [negative]

theorem plain_negative_cons : plain (negative finish (t :: rest)) =
    if t.isMark .minus then do
      let r ← plain (negative finish rest)
      return (.unary t.position .neg r.1, r.2)
    else plain (primary finish (t :: rest)) := by
  rw [negative]
  split
  · cases negative finish rest with
    | error e => rfl
    | ok r => rfl
  · rfl

theorem plain_primary_nil : plain (primary finish []) = .error ⟨.unexpectedEnd, finish⟩ := by
  rw [primary]
  rfl

theorem plain_primary_cons : plain (primary finish (t :: rest)) =
    match t.lexeme with
    | .number _ v => .ok (.literal t.position v, rest)
    | .text s => .ok (.literal t.position (.text s), rest)
    | .name n =>
      match wordLiteral? n with
      | some v => .ok (.literal t.position v, rest)
      | none =>
        if n = utf8 "has" ∧ opens rest then plain (presence finish t.position rest)
        else if isKeyword n then .error ⟨.unexpectedKeyword n, t.position⟩
        else if opens rest then .error ⟨.unknownFunction n, t.position⟩
        else do return (.reference (← referenceTo t.position n), rest)
    | .mark .opening => do
      let r ← plain (chain finish .or rest)
      let r' ← plain (closing finish r.2)
      return (r.1, r'.2)
    | .mark m => .error ⟨.unexpectedMark m.text, t.position⟩ := by
  obtain ⟨lexeme, place⟩ := t
  rw [primary]
  cases lexeme with
  | number | text => rfl
  | name n =>
    dsimp only
    cases wordLiteral? n with
    | some v => rfl
    | none =>
      dsimp only
      split
      · cases presence finish place rest with
        | error e => rfl
        | ok r => rfl
      · split
        · rfl
        · split
          · rfl
          · cases referenceTo place n with
            | error e => rfl
            | ok r => rfl
  | mark m =>
    by_cases hm : m = .opening
    · subst hm
      dsimp only
      cases chain finish .or rest with
      | error e => rfl
      | ok r =>
        obtain ⟨⟨x, mid⟩, h⟩ := r
        show plain (closing finish mid >>= _) =
          (plain (closing finish mid) >>= fun r' => pure (x, r'.2))
        cases closing finish mid with
        | error e => rfl
        | ok r => rfl
    · cases m <;> first | exact absurd rfl hm | rfl

end

/-- All tokens are taken. -/
theorem ofTokens_eq {ts : Tokens} : ofTokens ts =
    (plain (chain ts.finish .or ts.tokens) >>= fun r =>
      match r.2 with
      | [] => .ok r.1
      | t :: _ => .error ⟨.trailing t.lexeme.quotedAs, t.position⟩) := by
  unfold ofTokens
  cases chain ts.finish .or ts.tokens with
  | error e => rfl
  | ok r =>
    obtain ⟨⟨x, rest⟩, h⟩ := r
    cases rest with
    | nil => rfl
    | cons t after => rfl

end Expr
end DecisionEngine
