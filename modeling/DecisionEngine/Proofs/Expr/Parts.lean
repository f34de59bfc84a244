import DecisionEngine.Proofs.Expr.Derivations
/-!
# The parts of expressions that were read

The literals and references of an expression that was read come from the tokens of its source, so
what holds of all that can be written in a source holds of all of them.

* `Expr.Built` — the literals of an expression satisfy a condition, and its references another.
* `Expr.Writes` — all that can be written in a source satisfies the conditions.
* `Expr.built_of_derives` — an expression is built from the tokens that it derives from.
* `Expr.built_of_parse` — an expression that was read is built from what can be written.
-/

namespace DecisionEngine
namespace Expr

/-- The literals of an expression satisfy `V`, and its references satisfy `R`. -/
def Built (V : Value → Prop) (R : Reference → Prop) : Expr → Prop
  | .literal _ v => V v
  | .reference r => R r
  | .present _ r => R r
  | .unary _ _ x => x.Built V R
  | .binary _ _ l r => l.Built V R ∧ r.Built V R

section

variable {V V' : Value → Prop} {R R' : Reference → Prop} {x : Expr}

theorem Built.mono (h : x.Built V R) (hV : ∀ v, V v → V' v) (hR : ∀ r, R r → R' r) :
    x.Built V' R' := by
  induction x with
  | literal _ v => exact hV v h
  | reference r => exact hR r h
  | present _ r => exact hR r h
  | unary _ _ x ih => exact ih h
  | binary _ _ l r ihl ihr => exact ⟨ihl h.1, ihr h.2⟩

theorem Built.and (h : x.Built V R) (h' : x.Built V' R') :
    x.Built (fun v => V v ∧ V' v) fun r => R r ∧ R' r := by
  induction x with
  | literal _ v => exact ⟨h, h'⟩
  | reference r => exact ⟨h, h'⟩
  | present _ r => exact ⟨h, h'⟩
  | unary _ _ x ih => exact ih h h'
  | binary _ _ l r ihl ihr => exact ⟨ihl h.1 h'.1, ihr h.2 h'.2⟩

end

/-! ## What is written -/

theorem wordLiteral?_cases {name : Bytes} {v : Value} (h : wordLiteral? name = some v) :
    v = .null ∨ ∃ b, v = .bool b := by
  unfold wordLiteral? at h
  split at h
  · cases h
    exact .inr ⟨_, rfl⟩
  · split at h
    · cases h
      exact .inr ⟨_, rfl⟩
    · split at h <;> cases h
      exact .inl rfl

/-- A number is the nearest real to a number that is not negative, or an integer of 63 bits. -/
theorem numberValue_cases {source : Bytes} {v : Value} (h : numberValue source = .ok v) :
    (∃ x, 0 < x.den ∧ v = .real (Binary64.nearest x)) ∨
      ∃ n < Nat.pow 2 63, v = .int (Int64.ofNat n) := by
  unfold numberValue at h
  dsimp only at h
  split at h
  · cases h
  · split at h
    · cases h
      exact .inl ⟨_, Nat.pow_pos (by decide), rfl⟩
    · split at h
      · rename_i hlt
        cases h
        exact .inr ⟨_, hlt, rfl⟩
      · cases h

/-! ## Tokens -/

/-- The values and the references that a lexeme can stand for are such. -/
def Lexeme.Supplies (V : Value → Prop) (R : Reference → Prop) : Lexeme → Prop
  | .number _ v => V v
  | .text s => V (.text s)
  | .name n =>
    (∀ v, wordLiteral? n = some v → V v) ∧ ∀ position r, referenceTo position n = .ok r → R r
  | .mark _ => True

/-- What can be written in a source satisfies the conditions: `V` what numbers, quoted texts and
words stand for, and `R` the references that names stand for. -/
structure Writes (V : Value → Prop) (R : Reference → Prop) : Prop where
  number : ∀ source v, numberValue source = .ok v → V v
  text : ∀ s, V (.text s)
  word : ∀ name v, wordLiteral? name = some v → V v
  name : ∀ name position r, name ≠ [] → (∀ b ∈ name, continuesName b = true) →
    referenceTo position name = .ok r → R r

theorem continuesName_of_startsName {b : UInt8} (h : startsName b = true) :
    continuesName b = true := by
  simp only [startsName, continuesName, Bool.or_eq_true] at h ⊢
  tauto

theorem Writes.supplies {V : Value → Prop} {R : Reference → Prop} (hw : Writes V R) (b : UInt8)
    (rest : Bytes) (p : Lexeme × Bytes) (h : lexeme b rest = .ok p) : p.1.Supplies V R := by
  unfold lexeme at h
  dsimp only at h
  split at h
  · obtain ⟨v, hv, h⟩ := bind_eq_ok.1 h
    cases h
    exact hw.number _ v hv
  · split at h
    · split at h <;> cases h
      exact hw.text _
    · split at h
      · rename_i hb
        cases h
        refine ⟨hw.word _, fun position r hr => hw.name _ position r (by simp) (fun c hc => ?_) hr⟩
        rcases List.mem_cons.1 hc with rfl | hc
        · exact continuesName_of_startsName hb
        · exact List.all_eq_true.1 List.all_takeWhile c hc
      · split at h <;> cases h
        exact trivial

/-- What holds of all lexemes that can be cut off holds of all tokens of a source. -/
theorem forall_tokensFrom {Q : Lexeme → Prop}
    (hQ : ∀ b rest p, lexeme b rest = .ok p → Q p.1) {position : Nat} {bs : Bytes} {ts : Tokens}
    (h : tokensFrom position bs = .ok ts) : ∀ t ∈ ts.tokens, Q t.lexeme := by
  induction position, bs using tokensFrom.induct generalizing ts with
  | case1 position =>
    rw [tokensFrom] at h
    cases h
    exact fun t ht => absurd ht (by simp)
  | case2 position b rest hblank ih =>
    rw [tokensFrom, if_pos hblank] at h
    exact ih h
  | case3 position b rest hblank cause hlex =>
    rw [tokensFrom, if_neg hblank] at h
    split at h
    · cases h
    · rename_i hlex'
      rw [hlex] at hlex'
      cases hlex'
  | case4 position b rest hblank l back hlex taken ih =>
    rw [tokensFrom, if_neg hblank] at h
    split at h
    · cases h
    · rename_i l' back' hlex'
      obtain ⟨rfl, rfl⟩ := Prod.mk.inj (Except.ok.inj (hlex.symm.trans hlex'))
      cases hrest : tokensFrom (position + (rest.length + 1 - back.length)) back with
      | error e =>
        rw [hrest] at h
        cases h
      | ok more =>
        rw [hrest] at h
        cases h
        intro t ht
        rcases List.mem_cons.1 ht with rfl | ht
        · exact hQ _ _ _ hlex
        · exact ih hrest t ht

/-! ## Expressions -/

section

variable {V : Value → Prop} {R : Reference → Prop}

/-- All tokens supply what expressions are to be built from. -/
abbrev AllSupply (V : Value → Prop) (R : Reference → Prop) (ts : List Token) : Prop :=
  ∀ t ∈ ts, t.lexeme.Supplies V R

/-- A name supplies the reference that it stands for. -/
theorem Lexeme.Supplies.reference {n name : Bytes} {scope : Scope} (h : (Lexeme.name n).Supplies V R)
    (hname : Denotes n scope name) (position : Nat) : R ⟨position, scope, name⟩ :=
  h.2 position _ (referenceTo_eq_ok_iff.2 ⟨scope, name, hname, rfl⟩)

/-- An expression is built from the tokens that it derives from. -/
theorem built_of_derives {level : Level} {ts : List Token} {x : Expr} (h : Derives level ts x)
    (hts : AllSupply V R ts) : x.Built V R := by
  induction h with
  | operand hx ih | affirmed hx ih | sum hx ih | plain hx ih => exact ih hts
  | link hl ht hr ihl ihr | compare hl ht hr ihl ihr =>
    refine ⟨ihl fun t ht => hts t (List.mem_append_left _ ht), ihr fun t ht => hts t ?_⟩
    exact List.mem_append_right _ (List.mem_cons_of_mem _ ht)
  | not ht hx ih | minus ht hx ih => exact ih fun t ht => hts t (List.mem_cons_of_mem _ ht)
  | number ht | text ht =>
    have hsupplies := hts _ (List.mem_singleton_self _)
    rw [ht] at hsupplies
    exact hsupplies
  | word ht hn =>
    have hsupplies := hts _ (List.mem_singleton_self _)
    rw [ht] at hsupplies
    exact hsupplies.1 _ (wordLiteral?_eq_some_iff.2 hn)
  | reference ht hn hname =>
    have hsupplies := hts _ (List.mem_singleton_self _)
    rw [ht] at hsupplies
    exact hsupplies.reference hname _
  | @has h o t c n name scope hh ho ht hname hc =>
    have hsupplies := hts t (by simp)
    rw [ht] at hsupplies
    exact hsupplies.reference hname _
  | brackets ho hx hc ih =>
    exact ih fun t ht => hts t (List.mem_cons_of_mem _ (List.mem_append_left _ ht))

/-- An expression that was read is built from what can be written. -/
theorem built_of_parse (hw : Writes V R) {source : Bytes} {x : Expr} (h : parse source = .ok x) :
    x.Built V R := by
  obtain ⟨ts, hts, h⟩ := bind_eq_ok.1 h
  exact built_of_derives (derives_of_ofTokens h) (forall_tokensFrom hw.supplies hts)

end

end Expr
end DecisionEngine
