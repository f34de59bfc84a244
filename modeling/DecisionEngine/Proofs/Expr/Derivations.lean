import DecisionEngine.Proofs.Expr.References
import DecisionEngine.Proofs.Expr.Results
/-!
# The grammar of expressions

The grammar is stated here on its own, by rules that say which tokens derive which expression:

* `or := and (("||" | "or") and)*`, `and := not (("&&" | "and") not)*`;
* `not := ("!" | "not") not | compare`;
* `compare := sum (("==" | "!=" | "<" | "<=" | ">" | ">=") sum)?`;
* `sum := term (("+" | "-") term)*`, `term := unary (("*" | "/" | "%") unary)*`;
* `unary := "-" unary | primary`;
* `primary := number | string | true | false | null | ref | "has" "(" ref ")" | "(" or ")"`.

The rule of a chain is left-recursive, so chains associate to the left; a comparison stands between
two sums and is none itself. What is read has such a derivation.

* `Expr.Denotes` — the reference that a name stands for, by its qualifier.
* `Expr.Derives` — tokens derive an expression at a level.
* `Expr.referenceTo_eq_ok_iff` — the reference that is read is the one that a name stands for.
* `Expr.reads_chain` — what was read derives from the tokens that were taken.
* `Expr.derives_of_ofTokens` — what all tokens are read as derives from them.
-/

namespace DecisionEngine
namespace Expr

/-! ## Spellings and names -/

/-- How the operators of a chain are written. -/
def Chain.spellings : Chain → List (Lexeme × BinaryOp)
  | or => [(.mark .or, .or), (.name (utf8 "or"), .or)]
  | and => [(.mark .and, .and), (.name (utf8 "and"), .and)]
  | sum => [(.mark .plus, .add), (.mark .minus, .sub)]
  | term => [(.mark .times, .mul), (.mark .slash, .div), (.mark .percent, .mod)]

/-- How comparisons are written. -/
def comparisons : List (Lexeme × BinaryOp) :=
  [(.mark .eq, .eq), (.mark .ne, .ne), (.mark .lt, .lt), (.mark .le, .le), (.mark .gt, .gt),
    (.mark .ge, .ge)]

/-- How a negation is written. -/
def negations : List Lexeme := [.mark .bang, .name (utf8 "not")]

/-- The words that are literals. -/
def words : List (Bytes × Value) :=
  [(utf8 "true", .bool true), (utf8 "false", .bool false), (utf8 "null", .null)]

/-- The words that are no references outside of `has(…)`. -/
def reserved : List Bytes :=
  [utf8 "true", utf8 "false", utf8 "null", utf8 "and", utf8 "or", utf8 "not"]

/-- A name stands for a reference. A qualifier in front of it is dropped and must leave something
of it; a name without one, of which nothing is dropped, belongs to the context. No reference ends in
a dot. -/
inductive Denotes : Bytes → Scope → Bytes → Prop
  | bare {name : Bytes} (unqualified : ∀ s : Scope, ¬ s.qualifier <+: name)
    (finished : name.getLast? ≠ some 46) : Denotes name .context name
  | qualified {scope : Scope} {name : Bytes} (nonempty : name ≠ [])
    (finished : name.getLast? ≠ some 46) : Denotes (scope.qualifier ++ name) scope name

/-! ## Rules -/

/-- The tokens derive the expression at a level. An operator stands where its token does, a literal
and a reference where theirs do, and a test where its `has` does. -/
inductive Derives : Level → List Token → Expr → Prop
  | operand {level : Chain} {ts : List Token} {x : Expr} (hx : Derives level.next ts x) :
    Derives (.chain level) ts x
  | link {level : Chain} {front back : List Token} {t : Token} {op : BinaryOp} {l r : Expr}
    (hl : Derives (.chain level) front l) (ht : (t.lexeme, op) ∈ level.spellings)
    (hr : Derives level.next back r) :
    Derives (.chain level) (front ++ t :: back) (.binary t.position op l r)
  | not {t : Token} {ts : List Token} {x : Expr} (ht : t.lexeme ∈ negations)
    (hx : Derives .negation ts x) : Derives .negation (t :: ts) (.unary t.position .not x)
  | affirmed {ts : List Token} {x : Expr} (hx : Derives .comparison ts x) :
    Derives .negation ts x
  | compare {front back : List Token} {t : Token} {op : BinaryOp} {l r : Expr}
    (hl : Derives (.chain .sum) front l) (ht : (t.lexeme, op) ∈ comparisons)
    (hr : Derives (.chain .sum) back r) :
    Derives .comparison (front ++ t :: back) (.binary t.position op l r)
  | sum {ts : List Token} {x : Expr} (hx : Derives (.chain .sum) ts x) : Derives .comparison ts x
  | minus {t : Token} {ts : List Token} {x : Expr} (ht : t.lexeme = .mark .minus)
    (hx : Derives .negative ts x) : Derives .negative (t :: ts) (.unary t.position .neg x)
  | plain {ts : List Token} {x : Expr} (hx : Derives .primary ts x) : Derives .negative ts x
  | number {t : Token} {source : Bytes} {v : Value} (ht : t.lexeme = .number source v) :
    Derives .primary [t] (.literal t.position v)
  | text {t : Token} {s : Bytes} (ht : t.lexeme = .text s) :
    Derives .primary [t] (.literal t.position (.text s))
  | word {t : Token} {n : Bytes} {v : Value} (ht : t.lexeme = .name n) (hn : (n, v) ∈ words) :
    Derives .primary [t] (.literal t.position v)
  | reference {t : Token} {n name : Bytes} {scope : Scope} (ht : t.lexeme = .name n)
    (hn : n ∉ reserved) (hname : Denotes n scope name) :
    Derives .primary [t] (.reference ⟨t.position, scope, name⟩)
  | has {h o t c : Token} {n name : Bytes} {scope : Scope} (hh : h.lexeme = .name (utf8 "has"))
    (ho : o.lexeme = .mark .opening) (ht : t.lexeme = .name n) (hname : Denotes n scope name)
    (hc : c.lexeme = .mark .closing) :
    Derives .primary [h, o, t, c] (.present h.position ⟨t.position, scope, name⟩)
  | brackets {o c : Token} {ts : List Token} {x : Expr} (ho : o.lexeme = .mark .opening)
    (hx : Derives (.chain .or) ts x) (hc : c.lexeme = .mark .closing) :
    Derives .primary (o :: (ts ++ [c])) x

/-! ## The tokens that are recognized -/

theorem operator?_eq_some_iff {level : Chain} {t : Token} {op : BinaryOp} :
    level.operator? t = some op ↔ (t.lexeme, op) ∈ level.spellings := by
  cases level <;>
    simp only [Chain.operator?, Chain.spellings, Token.stands, Token.isMark, Bool.or_eq_true,
      beq_iff_eq, List.mem_cons, List.not_mem_nil, Prod.mk.injEq, or_false] <;>
    grind

theorem comparison?_eq_some_iff {t : Token} {op : BinaryOp} :
    comparison? t = some op ↔ (t.lexeme, op) ∈ comparisons := by
  unfold comparison? comparisons
  split <;> simp_all [eq_comm]

theorem stands_not_iff {t : Token} : t.stands .bang "not" = true ↔ t.lexeme ∈ negations := by
  simp [Token.stands, negations]

theorem isMark_iff {t : Token} {m : Mark} : t.isMark m = true ↔ t.lexeme = .mark m := by
  simp [Token.isMark]

theorem wordLiteral?_eq_some_iff {name : Bytes} {v : Value} :
    wordLiteral? name = some v ↔ (name, v) ∈ words := by
  have htrue : utf8 "true" ≠ utf8 "false" := by decide
  have hnull : utf8 "true" ≠ utf8 "null" := by decide
  have hfalse : utf8 "false" ≠ utf8 "null" := by decide
  unfold wordLiteral? words
  split_ifs <;> simp_all [eq_comm]

theorem mem_reserved_iff {name : Bytes} :
    name ∈ reserved ↔ (∃ v, wordLiteral? name = some v) ∨ isKeyword name = true := by
  simp only [wordLiteral?_eq_some_iff, reserved, words, isKeyword, List.mem_cons,
    List.not_mem_nil, Prod.mk.injEq, Bool.or_eq_true, beq_iff_eq]
  grind

/-! ## References -/

theorem qualified_eq_ok_iff {name n : Bytes} {scope : Scope} :
    qualified name = .ok (scope, n) ↔
      (scope = .context ∧ n = name ∧ ∀ s : Scope, ¬ s.qualifier <+: name) ∨
        name = scope.qualifier ++ n ∧ n ≠ [] := by
  by_cases h : ∃ s : Scope, s.qualifier <+: name
  · obtain ⟨s, m, rfl⟩ := h
    rw [qualified_qualifier]
    constructor
    · intro h
      split at h <;> cases h
      exact .inr ⟨rfl, ‹_›⟩
    · rintro (⟨-, -, hnone⟩ | ⟨heq, hn⟩)
      · exact absurd (List.prefix_append ..) (hnone s)
      · -- The qualifiers are told apart by what they leave of the name.
        have hstrip := strip?_qualifier scope n
        rw [← heq] at hstrip
        obtain rfl : scope = s := by
          by_contra hne
          rw [strip?_of_ne hne] at hstrip
          cases hstrip
        obtain rfl : m = n := List.append_cancel_left heq
        exact if_neg hn
  · push Not at h
    rw [qualified_of_bare h]
    constructor
    · intro heq
      cases heq
      exact .inl ⟨rfl, rfl, h⟩
    · rintro (⟨rfl, rfl, -⟩ | ⟨rfl, -⟩)
      · rfl
      · exact absurd (List.prefix_append ..) (h scope)

/-- The reference that a name is read as is the one that it stands for. -/
theorem referenceTo_eq_ok_iff {position : Nat} {name : Bytes} {r : Reference} :
    referenceTo position name = .ok r ↔
      ∃ scope n, Denotes name scope n ∧ r = ⟨position, scope, n⟩ := by
  constructor
  · intro h
    unfold referenceTo at h
    split at h
    · cases h
    · rename_i scope n hqualified
      split at h
      · cases h
      · rename_i hlast
        cases h
        obtain ⟨rfl, rfl, hbare⟩ | ⟨rfl, hn⟩ := qualified_eq_ok_iff.1 hqualified
        · exact ⟨_, _, .bare hbare hlast, rfl⟩
        · exact ⟨_, _, .qualified hn hlast, rfl⟩
  · rintro ⟨scope, n, hname, rfl⟩
    have hqualified : qualified name = .ok (scope, n) := by
      cases hname with
      | bare hbare _ => exact qualified_of_bare hbare
      | qualified hn _ => rw [qualified_qualifier, if_neg hn]
    have hlast : n.getLast? ≠ some 46 := by cases hname <;> assumption
    unfold referenceTo
    rw [hqualified]
    exact if_neg hlast

/-! ## What was read derives -/

/-- What was read derives at a level from the tokens that were taken. -/
def Reads (level : Level) (ts : List Token) (r : Expr × List Token) : Prop :=
  ∃ front, ts = front ++ r.2 ∧ Derives level front r.1

theorem Reads.mono {level level' : Level} {ts : List Token} {r : Expr × List Token}
    (h : Reads level ts r) (hmono : ∀ {front x}, Derives level front x → Derives level' front x) :
    Reads level' ts r := by
  obtain ⟨front, hts, hx⟩ := h
  exact ⟨front, hts, hmono hx⟩

theorem Reads.cons {level level' : Level} {t : Token} {ts back : List Token} {x y : Expr}
    (h : Reads level ts (x, back))
    (hcons : ∀ {front}, Derives level front x → Derives level' (t :: front) y) :
    Reads level' (t :: ts) (y, back) := by
  obtain ⟨front, rfl, hx⟩ := h
  exact ⟨t :: front, rfl, hcons hx⟩

theorem closing_spec {finish : Nat} {ts back : List Token} {u : Unit}
    (h : plain (closing finish ts) = .ok (u, back)) :
    ∃ c, ts = c :: back ∧ c.lexeme = .mark .closing := by
  cases ts with
  | nil => cases h
  | cons c rest =>
    rw [plain_closing_cons] at h
    split at h
    · rename_i hc
      cases h
      exact ⟨c, rfl, isMark_iff.1 hc⟩
    · cases h

theorem opens_spec {ts : List Token} (h : opens ts = true) :
    ∃ o rest, ts = o :: rest ∧ o.lexeme = .mark .opening := by
  cases ts with
  | nil => cases h
  | cons o rest => exact ⟨o, rest, rfl, isMark_iff.1 h⟩

theorem reads_presence {finish : Nat} {t : Token} {ts back : List Token} {x : Expr}
    (h : plain (presence finish t.position ts) = .ok (x, back))
    (ht : t.lexeme = .name (utf8 "has")) (hopens : opens ts = true) :
    Reads .primary (t :: ts) (x, back) := by
  obtain ⟨o, rest, rfl, ho⟩ := opens_spec hopens
  cases rest with
  | nil => cases h
  | cons u rest =>
    rw [plain_presence_cons] at h
    split at h
    · rename_i n hn
      obtain ⟨target, htarget, h⟩ := bind_eq_ok.1 h
      obtain ⟨⟨_, back⟩, hclosing, h⟩ := bind_eq_ok.1 h
      cases h
      obtain ⟨c, rfl, hc⟩ := closing_spec hclosing
      obtain ⟨scope, name, hname, rfl⟩ := referenceTo_eq_ok_iff.1 htarget
      exact ⟨[t, o, u, c], rfl, .has ht ho hn hname hc⟩
    · cases h

mutual

theorem reads_chain {finish : Nat} {level : Chain} {ts back : List Token} {x : Expr}
    (h : plain (chain finish level ts) = .ok (x, back)) : Reads (.chain level) ts (x, back) := by
  rw [plain_chain] at h
  obtain ⟨⟨l, rest⟩, hl, hx⟩ := bind_eq_ok.1 h
  have hshort := length_of_read hl
  obtain ⟨front, rfl, hleft⟩ := reads_operand hl
  obtain ⟨mid, rfl, hchain⟩ := reads_chainFrom hx (.operand hleft)
  exact ⟨front ++ mid, (List.append_assoc ..).symm, hchain⟩
termination_by (ts.length, level.rank + 2)

/-- What is read behind the left part of a chain makes it a longer chain. -/
theorem reads_chainFrom {finish : Nat} {level : Chain} {l x : Expr} {front ts back : List Token}
    (h : plain (chainFrom finish level l ts) = .ok (x, back))
    (hl : Derives (.chain level) front l) :
    ∃ mid, ts = mid ++ back ∧ Derives (.chain level) (front ++ mid) x := by
  cases ts with
  | nil =>
    rw [plain_chainFrom_nil] at h
    cases h
    exact ⟨[], rfl, by rwa [List.append_nil]⟩
  | cons t rest =>
    rw [plain_chainFrom_cons] at h
    cases hop : level.operator? t with
    | none =>
      rw [hop] at h
      cases h
      exact ⟨[], rfl, by rwa [List.append_nil]⟩
    | some op =>
      rw [hop] at h
      obtain ⟨⟨r, mid⟩, hr, hx⟩ := bind_eq_ok.1 h
      have hshort := length_of_read hr
      obtain ⟨right, rfl, hright⟩ := reads_operand hr
      obtain ⟨more, rfl, hchain⟩ :=
        reads_chainFrom hx (.link hl (operator?_eq_some_iff.1 hop) hright)
      refine ⟨t :: (right ++ more), ?_, ?_⟩
      · rw [List.cons_append, List.append_assoc]
      · rwa [List.append_assoc] at hchain
termination_by (ts.length, 0)

theorem reads_operand {finish : Nat} {level : Chain} {ts back : List Token} {x : Expr}
    (h : level.next.read finish ts = .ok (x, back)) : Reads level.next ts (x, back) := by
  cases level with
  | or => exact reads_chain h
  | and => exact reads_negation h
  | sum => exact reads_chain h
  | term => exact reads_negative h
termination_by (ts.length, level.rank + 1)
decreasing_by all_goals subst_vars; exact Prod.Lex.right _ (by decide)

theorem reads_negation {finish : Nat} {ts back : List Token} {x : Expr}
    (h : plain (negation finish ts) = .ok (x, back)) : Reads .negation ts (x, back) := by
  cases ts with
  | nil =>
    rw [negation_nil] at h
    exact (reads_comparison h).mono .affirmed
  | cons t rest =>
    rw [plain_negation_cons] at h
    split at h
    · rename_i ht
      obtain ⟨⟨y, mid⟩, hy, h⟩ := bind_eq_ok.1 h
      cases h
      exact (reads_negation hy).cons (.not (stands_not_iff.1 ht))
    · exact (reads_comparison h).mono .affirmed
termination_by (ts.length, 8)
decreasing_by all_goals subst_vars; simp [Prod.lex_def]

theorem reads_comparison {finish : Nat} {ts back : List Token} {x : Expr}
    (h : plain (comparison finish ts) = .ok (x, back)) : Reads .comparison ts (x, back) := by
  rw [plain_comparison] at h
  obtain ⟨⟨l, rest⟩, hl, h⟩ := bind_eq_ok.1 h
  have hshort := length_of_plain hl
  have hleft := reads_chain hl
  cases rest with
  | nil =>
    cases h
    exact hleft.mono .sum
  | cons t after =>
    cases hop : comparison? t with
    | none =>
      simp only [hop] at h
      cases h
      exact hleft.mono .sum
    | some op =>
      simp only [hop] at h
      obtain ⟨⟨r, mid⟩, hr, h⟩ := bind_eq_ok.1 h
      cases h
      have hafter : after.length < ts.length := Nat.lt_of_succ_lt hshort
      obtain ⟨front, rfl, hfront⟩ := hleft
      obtain ⟨right, rfl, hright⟩ := reads_chain hr
      refine ⟨front ++ t :: right, ?_, .compare hfront (comparison?_eq_some_iff.1 hop) hright⟩
      rw [List.append_assoc, List.cons_append]
termination_by (ts.length, 7)

theorem reads_negative {finish : Nat} {ts back : List Token} {x : Expr}
    (h : plain (negative finish ts) = .ok (x, back)) : Reads .negative ts (x, back) := by
  cases ts with
  | nil =>
    rw [negative_nil] at h
    exact (reads_primary h).mono .plain
  | cons t rest =>
    rw [plain_negative_cons] at h
    split at h
    · rename_i ht
      obtain ⟨⟨y, mid⟩, hy, h⟩ := bind_eq_ok.1 h
      cases h
      exact (reads_negative hy).cons (.minus (isMark_iff.1 ht))
    · exact (reads_primary h).mono .plain
termination_by (ts.length, 2)
decreasing_by all_goals subst_vars; simp [Prod.lex_def]

theorem reads_primary {finish : Nat} {ts back : List Token} {x : Expr}
    (h : plain (primary finish ts) = .ok (x, back)) : Reads .primary ts (x, back) := by
  cases ts with
  | nil =>
    rw [plain_primary_nil] at h
    cases h
  | cons t rest =>
    rw [plain_primary_cons] at h
    split at h
    · rename_i source v ht
      cases h
      exact ⟨[t], rfl, .number ht⟩
    · rename_i content ht
      cases h
      exact ⟨[t], rfl, .text ht⟩
    · rename_i n ht
      split at h
      · rename_i v hv
        cases h
        exact ⟨[t], rfl, .word ht (wordLiteral?_eq_some_iff.1 hv)⟩
      · rename_i hword
        split at h
        · rename_i hhas
          exact reads_presence h (hhas.1 ▸ ht) hhas.2
        · split at h
          · cases h
          · rename_i hkeyword
            split at h
            · cases h
            · obtain ⟨target, htarget, h⟩ := bind_eq_ok.1 h
              obtain ⟨scope, name, hname, rfl⟩ := referenceTo_eq_ok_iff.1 htarget
              cases h
              have hreserved : n ∉ reserved := by
                simp [mem_reserved_iff, hword, hkeyword]
              exact ⟨[t], rfl, .reference ht hreserved hname⟩
    · rename_i ht
      obtain ⟨⟨y, mid⟩, hy, h⟩ := bind_eq_ok.1 h
      obtain ⟨⟨_, after⟩, hclosing, h⟩ := bind_eq_ok.1 h
      cases h
      obtain ⟨front, rfl, hinside⟩ := reads_chain hy
      obtain ⟨c, rfl, hc⟩ := closing_spec hclosing
      exact ⟨t :: (front ++ [c]), by simp, .brackets ht hinside hc⟩
    · cases h
termination_by (ts.length, 1)

end

/-- What is read derives from the tokens. -/
theorem derives_of_ofTokens {ts : Tokens} {x : Expr} (h : ofTokens ts = .ok x) :
    Derives (.chain .or) ts.tokens x := by
  rw [ofTokens_eq] at h
  obtain ⟨⟨y, rest⟩, hy, h⟩ := bind_eq_ok.1 h
  cases rest with
  | nil =>
    cases h
    obtain ⟨front, hfront, hx⟩ := reads_chain hy
    rwa [hfront, List.append_nil]
  | cons t after => cases h

end Expr
end DecisionEngine
