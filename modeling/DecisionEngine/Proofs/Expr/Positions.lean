import DecisionEngine.Proofs.Expr.Recognition
/-!
# Reading by position

The readers of the grammar take tokens off a list, so none of them can look behind its end.  Here is
a parser that moves an index instead, from one item of a table to the next: the tokens stand in it
one after another, and behind the last of them the End of the source.  To look at an index behind
the End is nothing at all, and so is to nest calls deeper than is allowed.  What keeps the parser
from there is that it looks at an item before it leaves it behind, and goes on behind none but
tokens.

* `Item`, `Tokens.items` — what the parser looks at.
* `Scan` — a computation that moves the index, and has a result, an error or nothing.
* `scanStep`, `scanWithin`, `scan` — the parser: one call, calls within a depth, and all of it.
* `Mirrors` — from the place of some tokens on, the parser comes to what a reader makes of them.
* `mirrors_scanStep`, `mirrors_scanWithin` — so does one call if those that it makes do, and so do
  all calls.
* `parses_grammar` — so the parser accepts exactly what the grammar derives.
-/

namespace DecisionEngine
namespace Expr

/-! ## Items and the index -/

/-- What stands at an index: a token, or the End of the source and its position. -/
inductive Item
  | token (t : Token)
  | finish (position : Nat)

/-- Where an item starts in the source. -/
def Item.position : Item → Nat
  | token t => t.position
  | finish position => position

/-- The tokens and behind them the End. -/
def Tokens.items (ts : Tokens) : List Item := ts.tokens.map .token ++ [.finish ts.finish]

/-- A computation with an index that it moves.  It comes to a result, to an error, or to nothing. -/
abbrev Scan := StateT Nat (ExceptT Error Option)

/-- What a call of the parser is for: a phrase of a level, or the rest of a chain whose left part
has been read. -/
inductive Goal
  | phrase (level : Level)
  | rest (level : Chain) (l : Expr)

section Scanner

variable (ts : Tokens)

/-- The item at the index. -/
def peek : Scan Item := fun i => ExceptT.mk (ts.items[i]?.map fun item => .ok (item, i))

/-- The item at the index, which is left behind. -/
def advance : Scan Item := do
  let item ← peek ts
  modify (· + 1)
  return item

/-- The meaning of the item at the index, which is left behind if it is a token that has one. -/
def accept {α : Type} (meaning : Token → Option α) : Scan (Option (Token × α)) := do
  match ← peek ts with
  | .finish _ => return none
  | .token t =>
    match meaning t with
    | none => return none
    | some a => do
      let _ ← advance ts
      return some (t, a)

/-- A result that does not depend on the index. -/
def settled {α : Type} (r : Except Error α) : Scan α :=
  fun i => ExceptT.mk (some (r.map fun a => (a, i)))

/-! ## The parser -/

/-- Whether an opening bracket is next. -/
def scanOpens : Scan Bool := do
  match ← peek ts with
  | .finish _ => return false
  | .token t => return t.isMark .opening

/-- A closing bracket. -/
def scanClosing : Scan Unit := do
  match ← accept ts (Option.guard fun t => t.isMark .closing) with
  | some _ => return ()
  | none => do
    let item ← peek ts
    throw ⟨.expectedMark Mark.closing.text, item.position⟩

/-- The test `has(reference)`, from its opening bracket on. -/
def scanPresence (position : Nat) : Scan Expr := do
  let _ ← advance ts
  match ← advance ts with
  | .finish p => throw ⟨.presenceOfNoReference, p⟩
  | .token t =>
    match t.lexeme with
    | .name n => do
      let target ← settled (referenceTo t.position n)
      scanClosing ts
      return .present position target
    | _ => throw ⟨.presenceOfNoReference, t.position⟩

/-- A name that no test starts with. -/
def scanReference (position : Nat) (n : Bytes) : Scan Expr :=
  if isKeyword n then throw ⟨.unexpectedKeyword n, position⟩
  else do
    if ← scanOpens ts then throw ⟨.unknownFunction n, position⟩
    else do
      let target ← settled (referenceTo position n)
      return .reference target

/-- A name that is no literal: a test or a reference. -/
def scanName (position : Nat) (n : Bytes) : Scan Expr :=
  if n = utf8 "has" then do
    if ← scanOpens ts then scanPresence ts position else scanReference ts position n
  else scanReference ts position n

/-- A literal, a reference, a test for presence, or an expression in brackets. -/
def scanPrimary (call : Goal → Scan Expr) : Scan Expr := do
  match ← advance ts with
  | .finish p => throw ⟨.unexpectedEnd, p⟩
  | .token t =>
    match t.lexeme with
    | .number _ v => return .literal t.position v
    | .text s => return .literal t.position (.text s)
    | .name n =>
      match wordLiteral? n with
      | some v => return .literal t.position v
      | none => scanName ts t.position n
    | .mark m =>
      if m = .opening then do
        let x ← call (.phrase (.chain .or))
        scanClosing ts
        return x
      else throw ⟨.unexpectedMark m.text, t.position⟩

/-- One call of the parser, which makes further ones. -/
def scanStep (call : Goal → Scan Expr) : Goal → Scan Expr
  | .phrase (.chain level) => do
    let l ← call (.phrase level.next)
    call (.rest level l)
  | .rest level l => do
    match ← accept ts level.operator? with
    | none => return l
    | some (t, op) => do
      let r ← call (.phrase level.next)
      call (.rest level (.binary t.position op l r))
  | .phrase .negation => do
    match ← accept ts (Option.guard fun t => t.stands .bang "not") with
    | none => call (.phrase .comparison)
    | some (t, _) => do
      let x ← call (.phrase .negation)
      return .unary t.position .not x
  | .phrase .comparison => do
    let l ← call (.phrase (.chain .sum))
    match ← accept ts comparison? with
    | none => return l
    | some (t, op) => do
      let r ← call (.phrase (.chain .sum))
      return .binary t.position op l r
  | .phrase .negative => do
    match ← accept ts (Option.guard fun t => t.isMark .minus) with
    | none => call (.phrase .primary)
    | some (t, _) => do
      let x ← call (.phrase .negative)
      return .unary t.position .neg x
  | .phrase .primary => scanPrimary ts call

/-- Calls of the parser that are nested at most so deep.  Deeper ones are nothing. -/
def scanWithin : Nat → Goal → Scan Expr
  | 0, _ => fun _ => ExceptT.mk none
  | depth + 1, goal => scanStep ts (scanWithin depth) goal

/-- An expression with the End behind it. -/
def scanAll (depth : Nat) : Scan Expr := do
  let x ← scanWithin ts depth (.phrase (.chain .or))
  match ← peek ts with
  | .finish _ => return x
  | .token t => throw ⟨.trailing t.lexeme.quotedAs, t.position⟩

/-- What the parser comes to from the first item on, with nine calls inside each other for every
item. -/
def scan : Option (Except Error Expr) := ((scanAll ts (9 * ts.items.length)).run' 0).run

end Scanner

/-! ## Places -/

section Places

variable {ts : Tokens} {t : Token} {rest : List Token}

/-- The index of the first of the tokens that are left. -/
def Tokens.place (ts : Tokens) (rest : List Token) : Nat := ts.tokens.length - rest.length

/-- The item at the place of the tokens that are left. -/
def Tokens.next (ts : Tokens) : List Token → Item
  | [] => .finish ts.finish
  | t :: _ => .token t

theorem getElem?_place (h : rest <:+ ts.tokens) :
    ts.items[ts.place rest]? = some (ts.next rest) := by
  obtain ⟨before, hbefore⟩ := h
  have hplace : ts.place rest = (before.map Item.token).length := by
    simp [Tokens.place, ← hbefore]
  rw [Tokens.items, ← hbefore, hplace, List.map_append, List.append_assoc,
    List.getElem?_append_right (Nat.le_refl _), Nat.sub_self]
  cases rest <;> rfl

theorem place_succ (h : t :: rest <:+ ts.tokens) : ts.place (t :: rest) + 1 = ts.place rest := by
  have hle := h.length_le
  simp only [Tokens.place, List.length_cons] at hle ⊢
  omega

theorem suffix_of_cons (h : t :: rest <:+ ts.tokens) : rest <:+ ts.tokens :=
  (List.suffix_cons t rest).trans h

end Places

/-! ## The parser and the readers -/

section Mirror

variable {ts : Tokens} {α β : Type} {t : Token} {rest : List Token} {e : Error}
  {m m' : Except Error (β × List Token)}

/-- From the place of the tokens that are left, a computation comes to what a reader makes of
them, and to the place of the tokens that the reader leaves. -/
def Mirrors (ts : Tokens) (s : Scan α) (rest : List Token)
    (m : Except Error (α × List Token)) : Prop :=
  (s.run (ts.place rest)).run = some (m.map fun r => (r.1, ts.place r.2)) ∧
    ∀ r, m = .ok r → r.2 <:+ ts.tokens

theorem mirrors_pure {a : α} (h : rest <:+ ts.tokens) :
    Mirrors ts (pure a) rest (.ok (a, rest)) :=
  ⟨rfl, fun r hr => by cases hr; exact h⟩

theorem mirrors_throw : Mirrors ts (throw e : Scan α) rest (.error e) :=
  ⟨rfl, fun r hr => by cases hr⟩

/-- One computation after another. -/
theorem Mirrors.bind {s : Scan α} {f : α → Scan β} {m : Except Error (α × List Token)}
    {g : α × List Token → Except Error (β × List Token)} (hs : Mirrors ts s rest m)
    (hf : ∀ a back, m = .ok (a, back) → back <:+ ts.tokens →
      Mirrors ts (f a) back (g (a, back))) :
    Mirrors ts (s >>= f) rest (m >>= g) := by
  obtain ⟨hrun, hleft⟩ := hs
  unfold Mirrors
  rw [StateT.run_bind, ExceptT.run_bind, hrun]
  cases m with
  | error e => exact ⟨rfl, fun r hr => by cases hr⟩
  | ok r => exact hf r.1 r.2 rfl (hleft r rfl)

theorem mirrors_settled {r : Except Error α} {f : α → Scan β}
    {g : α → Except Error (β × List Token)}
    (hf : ∀ a, r = .ok a → Mirrors ts (f a) rest (g a)) :
    Mirrors ts (settled r >>= f) rest (r >>= g) := by
  cases r with
  | error e => exact ⟨rfl, fun r hr => by cases hr⟩
  | ok a => exact hf a rfl

/-- To look at the next item does not move the index. -/
theorem mirrors_peek {f : Item → Scan β} (h : rest <:+ ts.tokens)
    (hf : Mirrors ts (f (ts.next rest)) rest m) : Mirrors ts (peek ts >>= f) rest m := by
  have hpeek : Mirrors ts (peek ts) rest (.ok (ts.next rest, rest)) := by
    refine ⟨?_, fun r hr => by cases hr; exact h⟩
    show ts.items[ts.place rest]?.map _ = _
    rw [getElem?_place h]
    rfl
  refine hpeek.bind (g := fun _ => m) fun item back hitem _ => ?_
  cases hitem
  exact hf

theorem mirrors_advance {f : Item → Scan β} (h : t :: rest <:+ ts.tokens)
    (hf : Mirrors ts (f (.token t)) rest m) : Mirrors ts (advance ts >>= f) (t :: rest) m := by
  unfold advance
  rw [bind_assoc]
  refine mirrors_peek h ?_
  unfold Mirrors at hf ⊢
  rw [← place_succ h] at hf
  exact hf

/-- Behind the End the parser does not go on. -/
theorem mirrors_advance_nil {f : Item → Scan β} (hf : f (.finish ts.finish) = throw e) :
    Mirrors ts (advance ts >>= f) [] (.error e) := by
  unfold advance
  rw [bind_assoc]
  refine mirrors_peek (List.nil_suffix ..) ?_
  show Mirrors ts (modify (· + 1) >>= fun _ => pure (Item.finish ts.finish) >>= f) [] _
  simp only [pure_bind, hf]
  exact ⟨rfl, fun r hr => by cases hr⟩

theorem mirrors_accept_nil {meaning : Token → Option α} {f : Option (Token × α) → Scan β}
    (hf : Mirrors ts (f none) [] m) : Mirrors ts (accept ts meaning >>= f) [] m := by
  unfold accept
  rw [bind_assoc]
  exact mirrors_peek (List.nil_suffix ..) hf

theorem mirrors_accept_none {meaning : Token → Option α} {f : Option (Token × α) → Scan β}
    (h : t :: rest <:+ ts.tokens) (ht : meaning t = none)
    (hf : Mirrors ts (f none) (t :: rest) m) :
    Mirrors ts (accept ts meaning >>= f) (t :: rest) m := by
  unfold accept
  rw [bind_assoc]
  refine mirrors_peek h ?_
  simp only [Tokens.next, ht, pure_bind]
  exact hf

theorem mirrors_accept_some {meaning : Token → Option α} {a : α}
    {f : Option (Token × α) → Scan β} (h : t :: rest <:+ ts.tokens) (ht : meaning t = some a)
    (hf : Mirrors ts (f (some (t, a))) rest m) :
    Mirrors ts (accept ts meaning >>= f) (t :: rest) m := by
  unfold accept
  rw [bind_assoc]
  refine mirrors_peek h ?_
  simp only [Tokens.next, ht, bind_assoc, pure_bind]
  exact mirrors_advance h hf

theorem mirrors_guard {test : Token → Bool} {f : Option (Token × Token) → Scan β}
    (h : t :: rest <:+ ts.tokens) (hpass : Mirrors ts (f (some (t, t))) rest m)
    (hfail : Mirrors ts (f none) (t :: rest) m') :
    Mirrors ts (accept ts (Option.guard test) >>= f) (t :: rest) (if test t then m else m') := by
  cases ht : test t with
  | true => exact mirrors_accept_some h (if_pos ht) hpass
  | false => exact mirrors_accept_none h (if_neg (by simp [ht])) hfail

theorem mirrors_opens {f : Bool → Scan β} (h : rest <:+ ts.tokens)
    (hf : Mirrors ts (f (opens rest)) rest m) : Mirrors ts (scanOpens ts >>= f) rest m := by
  unfold scanOpens
  rw [bind_assoc]
  refine mirrors_peek h ?_
  cases rest <;> exact hf

theorem mirrors_closing (h : rest <:+ ts.tokens) :
    Mirrors ts (scanClosing ts) rest (plain (closing ts.finish rest)) := by
  unfold scanClosing
  cases rest with
  | nil => exact mirrors_accept_nil (mirrors_peek h mirrors_throw)
  | cons t rest =>
    rw [plain_closing_cons]
    exact mirrors_guard h (mirrors_pure (suffix_of_cons h)) (mirrors_peek h mirrors_throw)

theorem mirrors_presence {position : Nat} (h : rest <:+ ts.tokens) (hopens : opens rest = true) :
    Mirrors ts (scanPresence ts position) rest (plain (presence ts.finish position rest)) := by
  obtain ⟨o, rest, rfl, -⟩ := opens_spec hopens
  unfold scanPresence
  refine mirrors_advance h ?_
  have hrest := suffix_of_cons h
  cases rest with
  | nil => exact mirrors_advance_nil rfl
  | cons t rest =>
    refine mirrors_advance hrest ?_
    obtain ⟨lexeme, place⟩ := t
    rw [plain_presence_cons]
    cases lexeme with
    | number | text | mark => exact mirrors_throw
    | name n =>
      refine mirrors_settled fun target _ => ?_
      refine (mirrors_closing (suffix_of_cons hrest)).bind fun _ back _ hback => ?_
      exact mirrors_pure hback

/-- A name that is no literal and that no test starts with. -/
theorem mirrors_reference {n : Bytes} {position : Nat} (h : rest <:+ ts.tokens) :
    Mirrors ts (scanReference ts position n) rest
      (if isKeyword n then .error ⟨.unexpectedKeyword n, position⟩
        else if opens rest then .error ⟨.unknownFunction n, position⟩
        else do return (.reference (← referenceTo position n), rest)) := by
  unfold scanReference
  split
  · exact mirrors_throw
  · refine mirrors_opens h ?_
    split
    · exact mirrors_throw
    · exact mirrors_settled fun target _ => mirrors_pure h

/-- A name that is no literal. -/
theorem mirrors_name {n : Bytes} {position : Nat} (h : rest <:+ ts.tokens) :
    Mirrors ts (scanName ts position n) rest
      (if n = utf8 "has" ∧ opens rest then plain (presence ts.finish position rest)
        else if isKeyword n then .error ⟨.unexpectedKeyword n, position⟩
        else if opens rest then .error ⟨.unknownFunction n, position⟩
        else do return (.reference (← referenceTo position n), rest)) := by
  unfold scanName
  by_cases hn : n = utf8 "has"
  · rw [if_pos hn]
    refine mirrors_opens h ?_
    by_cases hopens : opens rest = true
    · rw [if_pos hopens, if_pos ⟨hn, hopens⟩]
      exact mirrors_presence h hopens
    · rw [if_neg hopens, if_neg fun hboth => hopens hboth.2]
      exact mirrors_reference h
  · rw [if_neg hn, if_neg fun hboth => hn hboth.1]
    exact mirrors_reference h

end Mirror

/-! ## Calls -/

section Calls

variable {ts : Tokens} {call : Goal → Scan Expr} {rest : List Token}

/-- What the reader for a goal makes of some tokens. -/
def Goal.read (finish : Nat) : Goal → List Token → Except Error (Expr × List Token)
  | .phrase level, ts => level.read finish ts
  | .rest level l, ts => plain (chainFrom finish level l ts)

/-- The place of a goal among the goals for the same tokens, the loosest with the highest number. -/
def Goal.rank : Goal → Nat
  | .phrase (.chain .or) => 8
  | .phrase (.chain .and) => 7
  | .phrase .negation => 6
  | .phrase .comparison => 5
  | .phrase (.chain .sum) => 4
  | .phrase (.chain .term) => 3
  | .phrase .negative => 2
  | .phrase .primary => 1
  | .rest _ _ => 0

/-- How deep calls for a goal can be nested. -/
def Goal.cost (goal : Goal) (rest : List Token) : Nat := 9 * rest.length + goal.rank

theorem Goal.rank_le (goal : Goal) : goal.rank ≤ 8 := by
  cases goal with
  | phrase level =>
    cases level with
    | chain level => cases level <;> decide
    | negation | comparison | negative | primary => decide
  | rest => exact Nat.zero_le _

theorem Goal.rank_next (level : Chain) :
    (phrase level.next).rank < (phrase (.chain level)).rank := by
  cases level <;> decide

/-- All goals cost less where there are fewer tokens. -/
theorem Goal.cost_lt_of_length_lt {goal goal' : Goal} {back : List Token}
    (h : back.length < rest.length) : goal.cost back < goal'.cost rest := by
  have hrank := goal.rank_le
  unfold cost
  omega

/-- Calls that cost less than a bound come to what the readers for their goals do. -/
def Serves (ts : Tokens) (call : Goal → Scan Expr) (bound : Nat) : Prop :=
  ∀ goal rest, goal.cost rest < bound → rest <:+ ts.tokens →
    Mirrors ts (call goal) rest (goal.read ts.finish rest)

theorem step_chain {level : Chain}
    (hcall : Serves ts call ((Goal.phrase (.chain level)).cost rest)) (h : rest <:+ ts.tokens) :
    Mirrors ts (scanStep ts call (.phrase (.chain level))) rest
      (plain (chain ts.finish level rest)) := by
  rw [plain_chain]
  have hlt := Nat.add_lt_add_left (Goal.rank_next level) (9 * rest.length)
  refine (hcall (.phrase level.next) rest hlt h).bind fun l back hl hback => ?_
  exact hcall (.rest level l) back (Goal.cost_lt_of_length_lt (length_of_read hl)) hback

theorem step_rest {level : Chain} {l : Expr}
    (hcall : Serves ts call ((Goal.rest level l).cost rest)) (h : rest <:+ ts.tokens) :
    Mirrors ts (scanStep ts call (.rest level l)) rest
      (plain (chainFrom ts.finish level l rest)) := by
  cases rest with
  | nil =>
    rw [plain_chainFrom_nil]
    exact mirrors_accept_nil (mirrors_pure h)
  | cons t rest =>
    rw [plain_chainFrom_cons]
    cases hop : level.operator? t with
    | none => exact mirrors_accept_none h hop (mirrors_pure h)
    | some op =>
      have hrest := Nat.lt_succ_self rest.length
      refine mirrors_accept_some h hop ?_
      refine (hcall (.phrase level.next) rest (Goal.cost_lt_of_length_lt hrest)
        (suffix_of_cons h)).bind fun r back hr hback => ?_
      have hback' : back.length < (t :: rest).length := Nat.lt_trans (length_of_read hr) hrest
      exact hcall (.rest level _) back (Goal.cost_lt_of_length_lt hback') hback

theorem step_negation (hcall : Serves ts call ((Goal.phrase .negation).cost rest))
    (h : rest <:+ ts.tokens) :
    Mirrors ts (scanStep ts call (.phrase .negation)) rest
      (plain (negation ts.finish rest)) := by
  have hcomparison := hcall (.phrase .comparison) rest (Nat.add_lt_add_left (by decide) _) h
  cases rest with
  | nil =>
    rw [negation_nil]
    exact mirrors_accept_nil hcomparison
  | cons t rest =>
    rw [plain_negation_cons]
    refine mirrors_guard h ?_ hcomparison
    have hlt : (Goal.phrase .negation).cost rest < (Goal.phrase .negation).cost (t :: rest) :=
      Goal.cost_lt_of_length_lt (Nat.lt_succ_self _)
    exact (hcall (.phrase .negation) rest hlt (suffix_of_cons h)).bind
      fun x back _ hback => mirrors_pure hback

theorem step_comparison (hcall : Serves ts call ((Goal.phrase .comparison).cost rest))
    (h : rest <:+ ts.tokens) :
    Mirrors ts (scanStep ts call (.phrase .comparison)) rest
      (plain (comparison ts.finish rest)) := by
  rw [plain_comparison]
  refine (hcall (.phrase (.chain .sum)) rest (Nat.add_lt_add_left (by decide) _) h).bind
    fun l back hl hback => ?_
  have hshort : back.length < rest.length := length_of_plain hl
  cases back with
  | nil => exact mirrors_accept_nil (mirrors_pure hback)
  | cons t after =>
    dsimp only
    cases hop : comparison? t with
    | none => exact mirrors_accept_none hback hop (mirrors_pure hback)
    | some op =>
      have hafter : after.length < rest.length := Nat.lt_of_succ_lt hshort
      refine mirrors_accept_some hback hop ?_
      exact (hcall (.phrase (.chain .sum)) after (Goal.cost_lt_of_length_lt hafter)
        (suffix_of_cons hback)).bind fun r back _ hback => mirrors_pure hback

theorem step_negative (hcall : Serves ts call ((Goal.phrase .negative).cost rest))
    (h : rest <:+ ts.tokens) :
    Mirrors ts (scanStep ts call (.phrase .negative)) rest
      (plain (negative ts.finish rest)) := by
  have hprimary := hcall (.phrase .primary) rest (Nat.add_lt_add_left (by decide) _) h
  cases rest with
  | nil =>
    rw [negative_nil]
    exact mirrors_accept_nil hprimary
  | cons t rest =>
    rw [plain_negative_cons]
    refine mirrors_guard h ?_ hprimary
    have hlt : (Goal.phrase .negative).cost rest < (Goal.phrase .negative).cost (t :: rest) :=
      Goal.cost_lt_of_length_lt (Nat.lt_succ_self _)
    exact (hcall (.phrase .negative) rest hlt (suffix_of_cons h)).bind
      fun x back _ hback => mirrors_pure hback

theorem step_primary (hcall : Serves ts call ((Goal.phrase .primary).cost rest))
    (h : rest <:+ ts.tokens) :
    Mirrors ts (scanPrimary ts call) rest (plain (primary ts.finish rest)) := by
  unfold scanPrimary
  cases rest with
  | nil =>
    rw [plain_primary_nil]
    exact mirrors_advance_nil rfl
  | cons t rest =>
    have hrest := suffix_of_cons h
    have hinside : (Goal.phrase (.chain .or)).cost rest < (Goal.phrase .primary).cost (t :: rest) :=
      Goal.cost_lt_of_length_lt (Nat.lt_succ_self _)
    refine mirrors_advance h ?_
    obtain ⟨lexeme, position⟩ := t
    rw [plain_primary_cons]
    cases lexeme with
    | number | text => exact mirrors_pure hrest
    | name n =>
      dsimp only
      cases wordLiteral? n with
      | some v => exact mirrors_pure hrest
      | none => exact mirrors_name hrest
    | mark m =>
      dsimp only
      by_cases hm : m = .opening
      · subst hm
        rw [if_pos rfl]
        refine (hcall (.phrase (.chain .or)) rest hinside hrest).bind fun x back _ hback => ?_
        exact (mirrors_closing hback).bind fun _ after _ hafter => mirrors_pure hafter
      · rw [if_neg hm]
        cases m <;> first | exact absurd rfl hm | exact mirrors_throw

/-- One call comes to what the reader for its goal does, if those that cost less do. -/
theorem mirrors_scanStep {goal : Goal} (hcall : Serves ts call (goal.cost rest))
    (h : rest <:+ ts.tokens) : Mirrors ts (scanStep ts call goal) rest (goal.read ts.finish rest) := by
  cases goal with
  | rest level l => exact step_rest hcall h
  | phrase level =>
    cases level with
    | chain level => exact step_chain hcall h
    | negation => exact step_negation hcall h
    | comparison => exact step_comparison hcall h
    | negative => exact step_negative hcall h
    | primary => exact step_primary hcall h

/-- By induction on the depth, all calls that cost no more come to what the readers do. -/
theorem serves_scanWithin (depth : Nat) : Serves ts (scanWithin ts depth) depth := by
  induction depth with
  | zero => exact fun goal rest hlt => absurd hlt (Nat.not_lt_zero _)
  | succ depth ih =>
    intro goal rest hlt h
    refine mirrors_scanStep (fun goal' rest' hlt' => ih goal' rest' ?_) h
    omega

theorem mirrors_scanAll : Mirrors ts (scanAll ts (9 * ts.items.length)) ts.tokens
    (plain (chain ts.finish .or ts.tokens) >>= fun r =>
      match r.2 with
      | [] => .ok (r.1, [])
      | t :: _ => .error ⟨.trailing t.lexeme.quotedAs, t.position⟩) := by
  have hcost : (Goal.phrase (.chain .or)).cost ts.tokens < 9 * ts.items.length := by
    simp only [Goal.cost, Goal.rank, Tokens.items, List.length_append, List.length_map,
      List.length_singleton]
    omega
  refine (serves_scanWithin _ (.phrase (.chain .or)) _ hcost List.suffix_rfl).bind
    fun x back _ hback => mirrors_peek hback ?_
  cases back with
  | nil => exact mirrors_pure hback
  | cons t back => exact mirrors_throw

end Calls

/-- The parser comes to what the readers make of the tokens. -/
theorem scan_eq (ts : Tokens) : scan ts = some (ofTokens ts) := by
  have hplace : ts.place ts.tokens = 0 := Nat.sub_self _
  have hrun : ((scanAll ts (9 * ts.items.length)).run (ts.place ts.tokens)).run = _ :=
    mirrors_scanAll.1
  rw [hplace] at hrun
  rw [ofTokens_eq]
  show (((scanAll ts _).run 0 >>= fun r => pure r.1 : ExceptT Error Option Expr)).run = _
  rw [ExceptT.run_bind, hrun]
  cases plain (chain ts.finish .or ts.tokens) with
  | error e => rfl
  | ok r =>
    obtain ⟨x, back⟩ := r
    cases back with
    | nil => rfl
    | cons t back => rfl

/-- **The parser accepts exactly its grammar.**  On any tokens, with their End behind them, it comes
to an end and looks at nothing behind the End.  It comes to an expression if and only if the tokens
derive that expression, and to an error if and only if they derive none. -/
theorem parses_grammar (ts : Tokens) :
    scan ts = some (ofTokens ts) ∧
      (∀ x, ofTokens ts = .ok x ↔ Derives (.chain .or) ts.tokens x) ∧
      ((∃ e, ofTokens ts = .error e) ↔ ¬ ∃ x, Derives (.chain .or) ts.tokens x) := by
  refine ⟨scan_eq ts, fun x => ofTokens_eq_ok_iff, ?_⟩
  simp only [← ofTokens_eq_ok_iff]
  cases ofTokens ts <;> simp

end Expr
end DecisionEngine
