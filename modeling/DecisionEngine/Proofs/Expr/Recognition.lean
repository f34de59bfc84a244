import DecisionEngine.Proofs.Expr.Derivations
/-!
# What derives is read

The levels of the grammar are told apart by the lexemes that go on with what they derive: none of
them is an operator of a looser level, or a closing bracket. So a reader takes all tokens that
derive an expression, and no more.

* `Expr.Level.continuers` — the lexemes that go on with a phrase of a level.
* `Expr.Recognizes` — the reader of a level takes some tokens as an expression.
* `Expr.recognizes_of_derives` — the readers take what derives.
* `Expr.ofTokens_eq_ok_iff` — what is read is what derives; `Expr.derives_unique` — at most one
  expression does.
-/

namespace DecisionEngine
namespace Expr

/-! ## What goes on with a phrase -/

/-- All levels, the tightest first. -/
def Level.all : List Level :=
  [.primary, .negative, .chain .term, .chain .sum, .comparison, .negation, .chain .and, .chain .or]

/-- The lexemes that go on with a phrase of a level and not with one of a tighter level. Behind a
name an opening bracket does. -/
def Level.joiners : Level → List Lexeme
  | chain level => level.spellings.map Prod.fst
  | comparison => comparisons.map Prod.fst
  | primary => [.mark .opening]
  | _ => []

/-- The lexemes that go on with a phrase of a level. -/
def Level.continuers (level : Level) : List Lexeme :=
  (Level.all.takeWhile (· != level) ++ [level]).flatMap Level.joiners

/-- What comes next does not go on with a phrase of a level. -/
def Free (level : Level) (ts : List Token) : Prop := ∀ t ∈ ts.head?, t.lexeme ∉ level.continuers

theorem free_nil {level : Level} : Free level [] := by simp [Free]

theorem free_cons {level : Level} {t : Token} {ts : List Token} :
    Free level (t :: ts) ↔ t.lexeme ∉ level.continuers := by simp [Free]

theorem Free.mono {level level' : Level} {ts : List Token} (h : Free level ts)
    (hsub : level'.continuers ⊆ level.continuers) : Free level' ts :=
  fun t ht hmem => h t ht (hsub hmem)

theorem continuers_next_subset (level : Chain) :
    level.next.continuers ⊆ (Level.chain level).continuers := by
  cases level <;> decide

theorem lexeme_mem_continuers {level : Chain} {lexeme : Lexeme} {op : BinaryOp}
    (h : (lexeme, op) ∈ level.spellings) : lexeme ∈ (Level.chain level).continuers := by
  refine List.mem_flatMap.2 ⟨.chain level, by simp, List.mem_map.2 ⟨_, h, rfl⟩⟩

/-- The operators of a chain do not go on with its operands. -/
theorem not_mem_continuers_next {level : Chain} {lexeme : Lexeme} {op : BinaryOp}
    (h : (lexeme, op) ∈ level.spellings) : lexeme ∉ level.next.continuers := by
  have hall : ∀ p ∈ level.spellings, p.1 ∉ level.next.continuers := by
    cases level <;> decide
  exact hall _ h

theorem not_mem_continuers_sum {lexeme : Lexeme} {op : BinaryOp}
    (h : (lexeme, op) ∈ comparisons) : lexeme ∉ (Level.chain .sum).continuers := by
  have hall : ∀ p ∈ comparisons, p.1 ∉ (Level.chain .sum).continuers := by decide
  exact hall _ h

theorem closing_not_mem_continuers : Lexeme.mark .closing ∉ (Level.chain .or).continuers := by
  decide

theorem Free.operator?_eq_none {level : Chain} {t : Token} {ts : List Token}
    (h : Free (.chain level) (t :: ts)) : level.operator? t = none := by
  cases hop : level.operator? t with
  | none => rfl
  | some op => exact absurd (lexeme_mem_continuers (operator?_eq_some_iff.1 hop)) (free_cons.1 h)

theorem Free.comparison?_eq_none {t : Token} {ts : List Token} (h : Free .comparison (t :: ts)) :
    comparison? t = none := by
  cases hop : comparison? t with
  | none => rfl
  | some op =>
    have hmem : t.lexeme ∈ Level.comparison.joiners :=
      List.mem_map.2 ⟨_, comparison?_eq_some_iff.1 hop, rfl⟩
    exact absurd (List.mem_flatMap.2 ⟨.comparison, by decide, hmem⟩) (free_cons.1 h)

theorem Free.opens_eq_false {ts : List Token} (h : Free .primary ts) : opens ts = false := by
  cases ts with
  | nil => rfl
  | cons t ts =>
    have hmem : t.lexeme ≠ .mark .opening := fun ht => free_cons.1 h (by rw [ht]; decide)
    simp [opens, Token.isMark, hmem]

/-! ## What a phrase starts with -/

/-- The lexemes that no phrase of a level starts with: one that binds tighter than a negation does
not start with a negation, and a primary one does not start with a minus either. -/
def Level.avoids : Level → List Lexeme
  | chain .or => []
  | chain .and => []
  | negation => []
  | primary => .mark .minus :: negations
  | _ => negations

theorem avoids_subset_next (level : Chain) :
    (Level.chain level).avoids ⊆ level.next.avoids := by
  cases level <;> decide

/-- A phrase has a first token, which is none that its level avoids. -/
theorem head_of_derives {level : Level} {ts : List Token} {x : Expr} (h : Derives level ts x) :
    ∃ t rest, ts = t :: rest ∧ t.lexeme ∉ level.avoids := by
  induction h with
  | @operand level ts x hx ih =>
    obtain ⟨t, rest, rfl, ht⟩ := ih
    exact ⟨t, rest, rfl, fun hmem => ht (avoids_subset_next level hmem)⟩
  | link hl ht hr ih | compare hl ht hr ih =>
    obtain ⟨t, rest, rfl, ht⟩ := ih
    exact ⟨t, _, rfl, ht⟩
  | not => exact ⟨_, _, rfl, List.not_mem_nil⟩
  | affirmed hx ih =>
    obtain ⟨t, rest, rfl, -⟩ := ih
    exact ⟨t, rest, rfl, List.not_mem_nil⟩
  | sum hx ih => exact ih
  | minus ht => exact ⟨_, _, rfl, by rw [ht]; decide⟩
  | plain hx ih =>
    obtain ⟨t, rest, rfl, ht⟩ := ih
    exact ⟨t, rest, rfl, fun hmem => ht (List.mem_cons_of_mem _ hmem)⟩
  | number ht | text ht => exact ⟨_, _, rfl, by simp [ht, Level.avoids, negations]⟩
  | word ht hn =>
    have hwords : ∀ p ∈ words, Lexeme.name p.1 ∉ Level.primary.avoids := by decide
    exact ⟨_, _, rfl, ht ▸ hwords _ hn⟩
  | @reference t n name scope ht hn hname =>
    have hnot : n ≠ utf8 "not" := by
      rintro rfl
      exact hn (by decide)
    exact ⟨_, _, rfl, by simp [ht, Level.avoids, negations, hnot]⟩
  | has hh => exact ⟨_, _, rfl, by rw [hh]; decide⟩
  | brackets ho => exact ⟨_, _, rfl, by rw [ho]; decide⟩

/-! ## Recognition -/

section

variable {finish : Nat} {ts rest : List Token} {x : Expr}

/-- The reader of a level takes the tokens as the expression where nothing goes on with them. The
left part of a chain may go on with operators of the level itself. -/
def Recognizes (finish : Nat) (level : Level) (ts : List Token) (x : Expr) : Prop :=
  match level with
  | .chain level => ∀ rest, Free level.next rest →
      plain (chain finish level (ts ++ rest)) = plain (chainFrom finish level x rest)
  | level => ∀ rest, Free level rest → level.read finish (ts ++ rest) = .ok (x, rest)

theorem Recognizes.read {level : Level} (h : Recognizes finish level ts x)
    (hrest : Free level rest) : level.read finish (ts ++ rest) = .ok (x, rest) := by
  cases level with
  | chain level =>
    show plain (chain finish level (ts ++ rest)) = _
    rw [h rest (hrest.mono (continuers_next_subset level))]
    cases rest with
    | nil => exact plain_chainFrom_nil
    | cons t rest => rw [plain_chainFrom_cons, hrest.operator?_eq_none]
  | negation | comparison | negative | primary => exact h rest hrest

theorem recognizes_has {h o t c : Token} {n name : Bytes} {scope : Scope}
    (hh : h.lexeme = .name (utf8 "has")) (ho : o.lexeme = .mark .opening)
    (ht : t.lexeme = .name n) (hname : Denotes n scope name) (hc : c.lexeme = .mark .closing) :
    plain (primary finish (h :: o :: t :: c :: rest)) =
      .ok (.present h.position ⟨t.position, scope, name⟩, rest) := by
  have hword : wordLiteral? (utf8 "has") = none := by decide
  have hopens : opens (o :: t :: c :: rest) = true := isMark_iff.2 ho
  have htarget : referenceTo t.position n = .ok ⟨t.position, scope, name⟩ :=
    referenceTo_eq_ok_iff.2 ⟨scope, name, hname, rfl⟩
  rw [plain_primary_cons]
  simp only [hh, hword, hopens, and_self, if_true]
  rw [plain_presence_cons]
  simp only [ht, htarget]
  show (plain (closing finish (c :: rest)) >>= _) = _
  rw [plain_closing_cons, if_pos (isMark_iff.2 hc)]
  rfl

theorem recognizes_reference {t : Token} {n name : Bytes} {scope : Scope}
    (ht : t.lexeme = .name n) (hn : n ∉ reserved) (hname : Denotes n scope name)
    (hrest : Free .primary rest) :
    plain (primary finish (t :: rest)) = .ok (.reference ⟨t.position, scope, name⟩, rest) := by
  rw [mem_reserved_iff] at hn
  push Not at hn
  have hword : wordLiteral? n = none := Option.eq_none_iff_forall_ne_some.2 hn.1
  have htarget : referenceTo t.position n = .ok ⟨t.position, scope, name⟩ :=
    referenceTo_eq_ok_iff.2 ⟨scope, name, hname, rfl⟩
  rw [plain_primary_cons]
  simp [ht, hword, hn.2, hrest.opens_eq_false, htarget, bind, Except.bind, pure, Except.pure]

theorem recognizes_compare {front back : List Token} {t : Token} {op : BinaryOp} {l r : Expr}
    (hl : Recognizes finish (.chain .sum) front l) (ht : (t.lexeme, op) ∈ comparisons)
    (hr : Recognizes finish (.chain .sum) back r) :
    Recognizes finish .comparison (front ++ t :: back) (.binary t.position op l r) := by
  intro rest hrest
  have hop : Free (.chain .sum) (t :: (back ++ rest)) := free_cons.2 (not_mem_continuers_sum ht)
  have hleft : plain (chain finish .sum (front ++ t :: (back ++ rest))) = _ := hl.read hop
  have hright : plain (chain finish .sum (back ++ rest)) = _ := hr.read (hrest.mono (by decide))
  show plain (comparison finish _) = _
  rw [List.append_assoc, List.cons_append, plain_comparison, hleft]
  simp only [bind, Except.bind, comparison?_eq_some_iff.2 ht, hright]
  rfl

theorem recognizes_sum (hx : Recognizes finish (.chain .sum) ts x) :
    Recognizes finish .comparison ts x := by
  intro rest hrest
  have hread : plain (chain finish .sum (ts ++ rest)) = _ := hx.read (hrest.mono (by decide))
  show plain (comparison finish _) = _
  rw [plain_comparison, hread]
  cases rest with
  | nil => rfl
  | cons t rest => simp only [bind, Except.bind, hrest.comparison?_eq_none, pure, Except.pure]

theorem recognizes_brackets {o c : Token} (ho : o.lexeme = .mark .opening)
    (hx : Recognizes finish (.chain .or) ts x) (hc : c.lexeme = .mark .closing) :
    plain (primary finish (o :: (ts ++ c :: rest))) = .ok (x, rest) := by
  have hinside : Free (.chain .or) (c :: rest) := free_cons.2 (hc ▸ closing_not_mem_continuers)
  have hread : plain (chain finish .or (ts ++ c :: rest)) = _ := hx.read hinside
  rw [plain_primary_cons, ho]
  dsimp only
  rw [hread]
  show (plain (closing finish (c :: rest)) >>= _) = _
  rw [plain_closing_cons, if_pos (isMark_iff.2 hc)]
  rfl

/-- What derives is read. -/
theorem recognizes_of_derives {level : Level} (h : Derives level ts x) :
    Recognizes finish level ts x := by
  induction h with
  | operand hx ih =>
    intro rest hrest
    rw [plain_chain, ih.read hrest]
    rfl
  | @link level front back t op l r hl ht hr ihl ihr =>
    intro rest hrest
    rw [List.append_assoc, List.cons_append, ihl _ (free_cons.2 (not_mem_continuers_next ht)),
      plain_chainFrom_cons, operator?_eq_some_iff.2 ht]
    dsimp only
    rw [ihr.read hrest]
    rfl
  | not ht hx ih =>
    intro rest hrest
    have hread : plain (negation finish _) = _ := ih rest hrest
    show plain (negation finish _) = _
    rw [List.cons_append, plain_negation_cons, if_pos (stands_not_iff.2 ht), hread]
    rfl
  | affirmed hx ih =>
    intro rest hrest
    obtain ⟨t, ts, rfl, ht⟩ := head_of_derives hx
    show plain (negation finish _) = _
    rw [List.cons_append, plain_negation_cons, if_neg (ht ∘ stands_not_iff.1)]
    exact ih rest (hrest.mono (by decide))
  | compare hl ht hr ihl ihr => exact recognizes_compare ihl ht ihr
  | sum hx ih => exact recognizes_sum ih
  | minus ht hx ih =>
    intro rest hrest
    have hread : plain (negative finish _) = _ := ih rest hrest
    show plain (negative finish _) = _
    rw [List.cons_append, plain_negative_cons, if_pos (isMark_iff.2 ht), hread]
    rfl
  | plain hx ih =>
    intro rest hrest
    obtain ⟨t, ts, rfl, ht⟩ := head_of_derives hx
    have hminus : t.lexeme ≠ .mark .minus := fun h => ht (h ▸ List.mem_cons_self)
    show plain (negative finish _) = _
    rw [List.cons_append, plain_negative_cons, if_neg (hminus ∘ isMark_iff.1)]
    exact ih rest (hrest.mono (by decide))
  | number ht | text ht =>
    intro rest hrest
    show plain (primary finish _) = _
    rw [List.cons_append, plain_primary_cons, ht]
    rfl
  | word ht hn =>
    intro rest hrest
    show plain (primary finish _) = _
    rw [List.cons_append, plain_primary_cons, ht]
    dsimp only
    rw [wordLiteral?_eq_some_iff.2 hn]
    rfl
  | reference ht hn hname =>
    intro rest hrest
    exact recognizes_reference ht hn hname hrest
  | has hh ho ht hname hc =>
    intro rest hrest
    exact recognizes_has hh ho ht hname hc
  | @brackets o c ts x ho hx hc ih =>
    intro rest hrest
    show plain (primary finish _) = _
    rw [List.cons_append, List.append_assoc]
    exact recognizes_brackets ho ih hc

end

/-! ## All tokens -/

/-- The tokens are read as an expression if and only if they derive it. -/
theorem ofTokens_eq_ok_iff {ts : Tokens} {x : Expr} :
    ofTokens ts = .ok x ↔ Derives (.chain .or) ts.tokens x := by
  refine ⟨derives_of_ofTokens, fun h => ?_⟩
  have hread : plain (chain ts.finish .or (ts.tokens ++ [])) = .ok (x, []) :=
    (recognizes_of_derives h).read free_nil
  rw [List.append_nil] at hread
  rw [ofTokens_eq, hread]
  rfl

/-- Tokens derive at most one expression. -/
theorem derives_unique {ts : List Token} {x y : Expr} (hx : Derives (.chain .or) ts x)
    (hy : Derives (.chain .or) ts y) : x = y := by
  have hread : ofTokens ⟨ts, 0⟩ = .ok x := ofTokens_eq_ok_iff.2 hx
  have hread' : ofTokens ⟨ts, 0⟩ = .ok y := ofTokens_eq_ok_iff.2 hy
  exact Except.ok.inj (hread.symm.trans hread')

end Expr
end DecisionEngine
