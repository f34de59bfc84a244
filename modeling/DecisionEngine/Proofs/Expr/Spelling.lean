import DecisionEngine.Proofs.Expr.Parts
import DecisionEngine.Proofs.Expr.Readers
import DecisionEngine.Proofs.Expr.References
/-!
# The tokens of a rendered expression

The text of an expression is cut into the tokens it was put together from, as long as its literals
are integers that are not negative, truth values, null and texts without quotes and backslashes.

* `Expr.Cut` — a text is cut into lexemes.
* `Expr.lexemes` — the lexemes that the text of an expression is put together from.
* `Expr.cut_toText` — what that text is cut into.
-/

namespace DecisionEngine
namespace Expr

/-! ## Classes of bytes -/

theorem isLetter_iff {b : UInt8} : isLetter b = true ↔
    (65 ≤ b.toNat ∧ b.toNat ≤ 90) ∨ (97 ≤ b.toNat ∧ b.toNat ≤ 122) := by
  simp [isLetter, UInt8.le_iff_toNat_le]

theorem isDigit_iff {b : UInt8} : isDigit b = true ↔ 48 ≤ b.toNat ∧ b.toNat ≤ 57 := by
  simp [isDigit, UInt8.le_iff_toNat_le]

theorem startsName_iff {b : UInt8} : startsName b = true ↔ isLetter b = true ∨ b.toNat = 95 := by
  simp [startsName, ← UInt8.toNat_inj]

theorem isBlank_iff {b : UInt8} :
    isBlank b = true ↔ b.toNat = 32 ∨ (9 ≤ b.toNat ∧ b.toNat ≤ 13) := by
  simp [isBlank, UInt8.le_iff_toNat_le, ← UInt8.toNat_inj]

theorem isQuote_iff {b : UInt8} : isQuote b = true ↔ b.toNat = 34 ∨ b.toNat = 39 := by
  simp [isQuote, ← UInt8.toNat_inj]

/-- A byte that starts a name starts nothing else. -/
theorem classes_of_startsName {b : UInt8} (h : startsName b = true) :
    isBlank b = false ∧ isDigit b = false ∧ isQuote b = false := by
  simp only [← Bool.not_eq_true, isBlank_iff, isDigit_iff, isQuote_iff]
  rw [startsName_iff, isLetter_iff] at h
  omega

theorem continuesName_of_continuesNumber {b : UInt8} (h : continuesNumber b = true) :
    continuesName b = true := by
  simp only [continuesNumber, continuesName, Bool.or_eq_true] at h ⊢
  tauto

/-! ## Cutting -/

/-- A text is cut into lexemes, wherever in a source it stands. -/
def Cut (bs : Bytes) (ls : List Lexeme) : Prop :=
  ∀ position, ∃ ts, tokensFrom position bs = .ok ts ∧ ts.tokens.map (·.lexeme) = ls

section Cut

variable {b : UInt8} {bs rest back : Bytes} {l : Lexeme} {ls : List Lexeme}

theorem cut_nil : Cut [] [] := by
  intro position
  rw [tokensFrom]
  exact ⟨_, rfl, rfl⟩

theorem Cut.blank (hb : isBlank b = true) (h : Cut rest ls) : Cut (b :: rest) ls := by
  intro position
  rw [tokensFrom, if_pos hb]
  exact h (position + 1)

theorem Cut.cons (h : Cut back ls) (hb : isBlank b = false)
    (hlex : lexeme b rest = .ok (l, back)) : Cut (b :: rest) (l :: ls) := by
  intro position
  rw [tokensFrom, if_neg (by simp [hb])]
  split
  · rename_i hlex'
    rw [hlex] at hlex'
    cases hlex'
  · rename_i l' back' hlex'
    obtain ⟨rfl, rfl⟩ := Prod.mk.inj (Except.ok.inj (hlex.symm.trans hlex'))
    obtain ⟨ts, hts, hls⟩ := h (position + (rest.length + 1 - back.length))
    rw [hts]
    exact ⟨_, rfl, by rw [List.map_cons, hls]⟩

/-! ### Marks -/

/-- The marks that are tried before a mark, the mark, and the others. -/
theorem Mark.all_eq (m : Mark) : Mark.all =
    Mark.all.takeWhile (· ≠ m) ++ m :: (Mark.all.dropWhile (· ≠ m)).tail := by
  cases m <;> rfl

/-- A mark that is tried before another one does not start like it, or is that one with an equality
sign behind it. -/
theorem Mark.tried_before : ∀ m ∈ Mark.all, ∀ a ∈ Mark.all.takeWhile (· ≠ m),
    a.text.take m.text.length ≠ m.text.take a.text.length ∨ a.text = m.text ++ [61] := by
  decide +kernel

/-- A source that starts with a mark is cut at that mark where no equality sign follows. -/
theorem Mark.find_all (m : Mark) (hback : back.head? ≠ some 61) :
    (Mark.all.find? fun a => a.text == (m.text ++ back).take a.text.length) = some m := by
  refine List.find?_eq_some_iff_append.2 ⟨by simp, _, _, Mark.all_eq m, fun a ha => ?_⟩
  rw [Bool.not_eq_true', beq_eq_false_iff_ne]
  intro htext
  have hmem : m ∈ Mark.all := by
    rw [Mark.all_eq m]
    simp
  -- A mark that is tried earlier would have to start like `m`, or with the `=` that is not there.
  rcases Mark.tried_before m hmem a ha with hne | hlonger
  · refine hne ?_
    calc a.text.take m.text.length
        = ((m.text ++ back).take a.text.length).take m.text.length := congrArg _ htext
      _ = ((m.text ++ back).take m.text.length).take a.text.length := by
        rw [List.take_take, Nat.min_comm, ← List.take_take]
      _ = m.text.take a.text.length := by rw [List.take_left]
  · rw [hlonger, List.length_append, List.take_length_add_append, List.append_cancel_left_eq]
      at htext
    cases back with
    | nil => cases htext
    | cons b back =>
      cases htext
      exact hback rfl

theorem cut_mark (m : Mark) (hback : back.head? ≠ some 61) (h : Cut back ls) :
    Cut (m.text ++ back) (.mark m :: ls) := by
  have hfirst : ∃ b tail, m.text = b :: tail ∧ isBlank b = false ∧ isDigit b = false ∧
      isQuote b = false ∧ startsName b = false := by
    cases m <;> exact ⟨_, _, rfl, by decide, by decide, by decide, by decide⟩
  obtain ⟨b, tail, htext, hblank, hdigit, hquote, hname⟩ := hfirst
  have hfind := m.find_all hback
  have hdrop : (m.text ++ back).drop m.text.length = back := List.drop_left
  rw [htext, List.cons_append] at hfind hdrop ⊢
  refine h.cons hblank ?_
  rw [lexeme, hdigit, hquote, hname, hfind]
  simp only [Bool.false_eq_true, if_false, htext, hdrop]

/-! ### Names -/

theorem takeWhile_of_delimited {p : UInt8 → Bool} {bs : Bytes} (hbs : ∀ b ∈ bs, p b = true)
    (hback : ∀ b ∈ back.head?, p b = false) :
    (bs ++ back).takeWhile p = bs ∧ (bs ++ back).dropWhile p = back := by
  rw [List.takeWhile_append_of_pos hbs, List.dropWhile_append_of_pos hbs]
  cases back with
  | nil => simp
  | cons b back => simp [hback b rfl]

theorem cut_name {name : Bytes} (hstart : ∃ b ∈ name.head?, startsName b = true)
    (hname : name.all continuesName = true)
    (hback : ∀ b ∈ back.head?, continuesName b = false) (h : Cut back ls) : Cut (name ++ back) (.name name :: ls) := by
  obtain ⟨b, hb, hletter⟩ := hstart
  obtain ⟨bs, rfl⟩ := List.head?_eq_some_iff.1 hb
  obtain ⟨hblank, hdigit, hquote⟩ := classes_of_startsName hletter
  obtain ⟨htake, hdrop⟩ :=
    takeWhile_of_delimited (fun c hc => List.all_eq_true.1 hname c (List.mem_cons_of_mem _ hc))
      hback
  rw [List.cons_append]
  refine h.cons hblank ?_
  rw [lexeme, hdigit, hquote, hletter]
  simp only [Bool.false_eq_true, if_false, if_true, htake, hdrop]

/-! ### Quoted texts -/

theorem quotedText_append {quote : UInt8} (hquote : quote ∉ bs) (hescape : 92 ∉ bs) :
    quotedText quote (bs ++ quote :: back) = some (bs, back) := by
  induction bs with
  | nil =>
    rw [quotedText.eq_def]
    exact if_pos rfl
  | cons b bs ih =>
    rw [List.mem_cons, not_or] at hquote hescape
    rw [quotedText.eq_def]
    simp only [List.cons_append, if_neg (Ne.symm hquote.1), if_neg (Ne.symm hescape.1),
      ih hquote.2 hescape.2, Option.map_some]

theorem cut_text (hquote : 34 ∉ bs) (hescape : 92 ∉ bs) (h : Cut back ls) :
    Cut (34 :: bs ++ [34] ++ back) (.text bs :: ls) := by
  rw [List.append_assoc, List.cons_append]
  refine h.cons (by decide) ?_
  rw [lexeme, if_neg (by decide), if_pos (by decide), List.singleton_append,
    quotedText_append hquote hescape]

/-! ### Numbers -/

theorem toNat_digit {n : Nat} (h : n < 10) : (Bytes.digit n).toNat = 48 + n := by
  unfold Bytes.digit
  rw [UInt8.toNat_ofNat']
  omega

theorem isDigit_of_mem_decimal {n : Nat} : ∀ b ∈ Bytes.decimal n, isDigit b = true := by
  induction n using Bytes.decimal.induct with
  | case1 n hn =>
    rw [Bytes.decimal, if_pos hn]
    intro b hb
    rw [List.mem_singleton.1 hb, isDigit_iff, toNat_digit hn]
    omega
  | case2 n hn ih =>
    rw [Bytes.decimal, if_neg hn]
    intro b hb
    rcases List.mem_append.1 hb with hb | hb
    · exact ih b hb
    · rw [List.mem_singleton.1 hb, isDigit_iff, toNat_digit (Nat.mod_lt _ (by decide))]
      omega

theorem digitsValue_decimal (n : Nat) : digitsValue (Bytes.decimal n) = n := by
  induction n using Bytes.decimal.induct with
  | case1 n hn =>
    rw [Bytes.decimal, if_pos hn]
    show 10 * 0 + ((Bytes.digit n).toNat - 48) = n
    rw [toNat_digit hn]
    omega
  | case2 n hn ih =>
    rw [Bytes.decimal, if_neg hn]
    unfold digitsValue at ih ⊢
    rw [List.foldl_append, ih]
    show 10 * (n / 10) + ((Bytes.digit (n % 10)).toNat - 48) = n
    rw [toNat_digit (Nat.mod_lt _ (by decide))]
    omega

theorem exists_decimal_eq_cons (n : Nat) :
    ∃ b bs, Bytes.decimal n = b :: bs ∧ ∀ c ∈ b :: bs, isDigit c = true := by
  have hdigits := isDigit_of_mem_decimal (n := n)
  cases hdecimal : Bytes.decimal n with
  | nil =>
    rw [Bytes.decimal] at hdecimal
    split at hdecimal <;> simp at hdecimal
  | cons b bs => exact ⟨b, bs, rfl, hdecimal ▸ hdigits⟩

theorem numberValue_decimal {n : Nat} (hn : n < Nat.pow 2 63) :
    numberValue (Bytes.decimal n) = .ok (.int (Int64.ofNat n)) := by
  have hpoints : (Bytes.decimal n).count 46 = 0 := by
    refine List.count_eq_zero_of_not_mem fun hmem => ?_
    exact absurd (isDigit_of_mem_decimal 46 hmem) (by decide)
  unfold numberValue
  rw [hpoints, digitsValue_decimal]
  exact if_pos hn

theorem cut_decimal {n : Nat} (hn : n < Nat.pow 2 63)
    (hback : ∀ b ∈ back.head?, continuesName b = false) (h : Cut back ls) :
    Cut (Bytes.decimal n ++ back)
      (.number (Bytes.decimal n) (.int (Int64.ofNat n)) :: ls) := by
  have hvalue := numberValue_decimal hn
  obtain ⟨b, bs, hdecimal, hdigits⟩ := exists_decimal_eq_cons n
  rw [hdecimal] at hvalue ⊢
  have hb := hdigits b (List.mem_cons_self ..)
  have hblank : isBlank b = false := by
    simp only [← Bool.not_eq_true, isBlank_iff]
    rw [isDigit_iff] at hb
    omega
  have hbs : ∀ c ∈ bs, continuesNumber c = true := fun c hc => by
    rw [continuesNumber, hdigits c (List.mem_cons_of_mem _ hc), Bool.true_or]
  have hend : ∀ c ∈ back.head?, continuesNumber c = false := fun c hc => by
    rw [← Bool.not_eq_true]
    intro hnumber
    exact absurd (continuesName_of_continuesNumber hnumber) (by simp [hback c hc])
  obtain ⟨htake, hdrop⟩ := takeWhile_of_delimited hbs hend
  rw [List.cons_append]
  refine h.cons hblank ?_
  rw [lexeme, if_pos hb]
  simp only [htake, hdrop, hvalue]
  rfl

end Cut

end Expr

/-! ## Literals and references -/

open DecisionEngine.Expr

/-- A value that is no real, and no text with a double quote or a backslash in it. -/
def Value.Plain : Value → Prop
  | .real _ => False
  | .text s => 34 ∉ s ∧ 92 ∉ s
  | _ => True

/-- A value that is a literal of an expression as it is written: minus is an operator. -/
structure Value.Spelled (v : Value) : Prop where
  plain : v.Plain
  nonneg : ∀ n, v = .int n → 0 ≤ n.toInt

/-- The lexeme that a literal is written as. -/
def Value.lexeme : Value → Lexeme
  | .text s => .text s
  | .int n => .number (Bytes.signedDecimal n.toInt) (.int n)
  | .real x => .number x.shortest (.real x)
  | v => .name v.toText

namespace Expr

/-- The lexemes that the text of an expression is put together from. -/
def lexemes : Expr → List Lexeme
  | .literal _ v => [v.lexeme]
  | .reference r => [.name r.toText]
  | .present _ r => [.name (utf8 "has"), .mark .opening, .name r.toText, .mark .closing]
  | .unary _ op x => .mark op.mark :: x.lexemes
  | .binary _ op l r =>
    .mark .opening :: l.lexemes ++ .mark op.mark :: r.lexemes ++ [.mark .closing]

section Cut

variable {v : Value} {r : Reference} {x : Expr} {back : Bytes} {ls : List Lexeme}

/-- Behind an expression stands a blank, a closing bracket or nothing. -/
def Delimits (back : Bytes) : Prop := ∀ b ∈ back.head?, b = 32 ∨ b = 41

theorem Delimits.continuesName (h : Delimits back) :
    ∀ b ∈ back.head?, continuesName b = false := by
  intro b hb
  rcases h b hb with rfl | rfl <;> decide

theorem Delimits.ne (h : Delimits back) : back.head? ≠ some 61 := by
  intro hb
  rcases h 61 hb with h | h <;> cases h

theorem toNat_of_nonneg {n : Int64} (hn : 0 ≤ n.toInt) :
    n.toInt = (n.toInt.toNat : Int) ∧ n.toInt.toNat < Nat.pow 2 63 ∧
      Int64.ofNat n.toInt.toNat = n := by
  have hlt := n.toInt_lt
  have hpow : Nat.pow 2 63 = 9223372036854775808 := rfl
  refine ⟨(Int.toNat_of_nonneg hn).symm, by omega, ?_⟩
  rw [← Int64.ofInt_eq_ofNat, Int.toNat_of_nonneg hn, Int64.ofInt_toInt]

theorem cut_literal (hv : v.Spelled) (hback : Delimits back) (h : Cut back ls) :
    Cut (v.literalText ++ back) (v.lexeme :: ls) := by
  have hword : ∀ name : Bytes, (∃ b ∈ name.head?, startsName b = true) →
      name.all continuesName = true → Cut (name ++ back) (.name name :: ls) :=
    fun name hstart hname => cut_name hstart hname hback.continuesName h
  cases v with
  | null => exact hword _ ⟨_, rfl, by decide⟩ (by decide)
  | bool b => cases b <;> exact hword _ ⟨_, rfl, by decide⟩ (by decide)
  | int n =>
    obtain ⟨hn, hlt, hof⟩ := toNat_of_nonneg (hv.nonneg n rfl)
    have hcut := cut_decimal hlt hback.continuesName h
    rw [hof] at hcut
    show Cut (Bytes.signedDecimal n.toInt ++ back)
      (.number (Bytes.signedDecimal n.toInt) (.int n) :: ls)
    rw [hn]
    exact hcut
  | real _ => exact hv.plain.elim
  | text s => exact cut_text hv.plain.1 hv.plain.2 h

theorem cut_reference (hr : r.Named) (hback : Delimits back) (h : Cut back ls) :
    Cut (r.toText ++ back) (.name r.toText :: ls) := by
  have hqualifier : (∃ b ∈ r.scope.qualifier.head?, startsName b = true) ∧
      r.scope.qualifier.all continuesName = true := by
    cases r.scope <;> exact ⟨⟨_, rfl, by decide⟩, by decide⟩
  refine cut_name ?_ ?_ hback.continuesName h
  · obtain ⟨b, hb, hletter⟩ := hqualifier.1
    exact ⟨b, List.mem_head?_append_of_mem_head? hb, hletter⟩
  · rw [Reference.toText, List.all_append, hqualifier.2, Bool.true_and]
    exact List.all_eq_true.2 hr.bytes

/-- No expression starts with an equality sign, which would make another mark of the one in front
of it. -/
theorem head?_toText_append (hx : x.Built Value.Spelled Reference.Named) :
    (x.toText ++ back).head? ≠ some 61 := by
  have hstart : ∃ b ∈ x.toText.head?, b ≠ 61 := by
    cases x with
    | literal _ v =>
      have hx : v.Spelled := hx
      cases v with
      | null => exact ⟨110, rfl, by decide⟩
      | bool b => cases b <;> exact ⟨_, rfl, by decide⟩
      | int n =>
        obtain ⟨hn, -, -⟩ := toNat_of_nonneg (hx.nonneg n rfl)
        show ∃ b ∈ (Bytes.signedDecimal n.toInt).head?, b ≠ 61
        rw [hn]
        show ∃ b ∈ (Bytes.decimal n.toInt.toNat).head?, b ≠ 61
        obtain ⟨b, bs, hdecimal, hdigits⟩ := exists_decimal_eq_cons n.toInt.toNat
        rw [hdecimal]
        refine ⟨b, rfl, ?_⟩
        rintro rfl
        exact absurd (hdigits 61 (List.mem_cons_self ..)) (by decide)
      | real _ => exact hx.plain.elim
      | text s => exact ⟨34, rfl, by decide⟩
    | reference r =>
      have hqualifier : ∃ b ∈ r.scope.qualifier.head?, b ≠ 61 := by
        cases r.scope <;> exact ⟨_, rfl, by decide⟩
      obtain ⟨b, hb, hne⟩ := hqualifier
      exact ⟨b, List.mem_head?_append_of_mem_head? hb, hne⟩
    | present _ r => exact ⟨104, rfl, by decide⟩
    | unary _ op x => cases op <;> exact ⟨_, rfl, by decide⟩
    | binary _ op l r => exact ⟨40, rfl, by decide⟩
  obtain ⟨b, hb, hne⟩ := hstart
  intro h
  have hb' : b ∈ (x.toText ++ back).head? := List.mem_head?_append_of_mem_head? hb
  rw [h] at hb'
  exact hne (Option.some.inj hb').symm

/-- What the text of an expression is cut into. -/
theorem cut_toText (hx : x.Built Value.Spelled Reference.Named) (hback : Delimits back)
    (h : Cut back ls) : Cut (x.toText ++ back) (x.lexemes ++ ls) := by
  induction x generalizing back ls with
  | literal _ v => exact cut_literal hx hback h
  | reference r => exact cut_reference hx hback h
  | present _ r =>
    have hclosing : Cut (Mark.closing.text ++ back) (.mark .closing :: ls) := cut_mark _ hback.ne h
    have hname := cut_reference hx (by rintro b ⟨rfl⟩; exact .inr rfl) hclosing
    have hopening := cut_mark .opening (head?_toText_append (x := .reference r) hx) hname
    have hhas : Cut (utf8 "has" ++ _) (.name (utf8 "has") :: _) :=
      cut_name ⟨_, rfl, by decide⟩ (by decide) (by rintro b ⟨rfl⟩; decide) hopening
    rw [toText, List.append_assoc, List.append_assoc]
    exact hhas
  | unary _ op x ih =>
    have hsign : op.sign = op.mark.text := by cases op <;> rfl
    rw [toText, hsign, List.append_assoc]
    exact cut_mark _ (head?_toText_append hx) (ih hx hback h)
  | binary _ op l r ihl ihr =>
    have hsign : op.sign = op.mark.text := by cases op <;> rfl
    have hclosing : Cut (Mark.closing.text ++ back) (.mark .closing :: ls) := cut_mark _ hback.ne h
    have hright := (ihr hx.2 (by rintro b ⟨rfl⟩; exact .inr rfl) hclosing).blank
      (b := 32) (by decide)
    have hmark := (cut_mark op.mark (by simp) hright).blank (b := 32) (by decide)
    have hleft := ihl hx.1 (by rintro b ⟨rfl⟩; exact .inl rfl) hmark
    have hopening := cut_mark .opening (head?_toText_append hx.1) hleft
    rw [toText, hsign, lexemes]
    simp only [List.append_assoc, List.cons_append, List.nil_append]
    exact hopening

end Cut

end Expr
end DecisionEngine
