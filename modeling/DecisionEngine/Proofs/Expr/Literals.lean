import DecisionEngine.Proofs.Expr.Parts
import DecisionEngine.Proofs.Program.Meaning
import Mathlib.Algebra.Order.Field.Power
import Mathlib.Data.Rat.Cast.Order
import Mathlib.Tactic.FieldSimp
import Mathlib.Tactic.Linarith
/-!
# Literals of expressions

A number in a source has no sign, so the real that it is read as is not negative: negative zero is
never among the literals of an expression that was read.

* `Binary64.nearest_bits_lt` — the nearest real to a number that is not negative has no sign bit.
* `Expr.hasNegativeZero_of_parse` — expressions that were read are free of negative zero.
-/

namespace DecisionEngine
namespace Binary64

/-! ## The nearest real -/

namespace Ratio

/-- The rational number. -/
def toRat (x : Ratio) : ℚ := x.num / x.den

theorem toRat_scaled (m : Nat) (e : Int) : (scaled m 2 e).toRat = m * 2 ^ e := by
  unfold scaled toRat
  by_cases h : 0 ≤ e
  · rw [if_pos h]
    obtain ⟨n, rfl⟩ := Int.eq_ofNat_of_zero_le h
    simp
  · rw [if_neg h]
    obtain ⟨n, hn⟩ := Int.eq_ofNat_of_zero_le (show 0 ≤ -e by omega)
    obtain rfl : e = -(n : Int) := by omega
    simp [div_eq_mul_inv]

theorem den_scaled_pos (m : Nat) (e : Int) : 0 < (scaled m 2 e).den := by
  unfold scaled
  split
  · exact Nat.one_pos
  · exact Nat.pow_pos (by decide)

theorem le_iff {x y : Ratio} (hx : 0 < x.den) (hy : 0 < y.den) :
    x.le y = true ↔ x.toRat ≤ y.toRat := by
  unfold le toRat
  rw [decide_eq_true_eq, div_le_div_iff₀ (by exact_mod_cast hx) (by exact_mod_cast hy)]
  exact_mod_cast Iff.rfl

/-- A number is below the power of two that its parts are below. -/
theorem toRat_lt (x : Ratio) (hden : 0 < x.den) :
    x.toRat < 2 ^ ((x.num.log2 : Int) - x.den.log2 + 1) := by
  have hnum : (x.num : ℚ) < 2 ^ (x.num.log2 + 1) := by exact_mod_cast Nat.lt_log2_self
  have hlow : (2 : ℚ) ^ x.den.log2 ≤ x.den := by
    exact_mod_cast Nat.log2_self_le (Nat.pos_iff_ne_zero.1 hden)
  have hpow : (2 : ℚ) ^ ((x.num.log2 : Int) - x.den.log2 + 1) =
      2 ^ (x.num.log2 + 1) / 2 ^ x.den.log2 := by
    rw [show (x.num.log2 : Int) - x.den.log2 + 1 = (x.num.log2 + 1 : Nat) - (x.den.log2 : Nat) by
      push_cast; omega, zpow_sub₀ (by norm_num), zpow_natCast, zpow_natCast]
  unfold toRat
  rw [hpow, div_lt_div_iff₀ (by exact_mod_cast hden) (by positivity)]
  calc (x.num : ℚ) * 2 ^ x.den.log2
      < 2 ^ (x.num.log2 + 1) * 2 ^ x.den.log2 := by
        exact mul_lt_mul_of_pos_right hnum (by positivity)
    _ ≤ 2 ^ (x.num.log2 + 1) * x.den := by
        exact mul_le_mul_of_nonneg_left hlow (by positivity)

/-- A number below a natural number is rounded to that number at most. -/
theorem rounded_le {x : Ratio} (hden : 0 < x.den) {n : Nat} (h : x.toRat < n) :
    x.rounded ≤ n := by
  have hlt : x.num < n * x.den := by
    unfold toRat at h
    rw [div_lt_iff₀ (by exact_mod_cast hden)] at h
    exact_mod_cast h
  have hq : x.num / x.den < n := (Nat.div_lt_iff_lt_mul hden).2 hlt
  unfold rounded
  dsimp only
  split <;> omega

end Ratio

/-- In units of `unitExponent`, a number is below `2 ^ 53`. -/
theorem toRat_lt_unit (x : Ratio) (hden : 0 < x.den) :
    x.toRat < 2 ^ (unitExponent x + 53) := by
  have hlt := x.toRat_lt hden
  have hmono : ∀ {a b : Int}, a ≤ b → (2 : ℚ) ^ a ≤ 2 ^ b := fun h =>
    zpow_le_zpow_right₀ (by norm_num) h
  unfold unitExponent
  dsimp only
  by_cases hfits : (Ratio.scaled (Nat.pow 2 52) 2
      ((x.num.log2 : Int) - x.den.log2 - 52)).le x = true
  · rw [if_pos hfits]
    exact lt_of_lt_of_le hlt (hmono (by omega))
  · rw [if_neg hfits]
    rw [Ratio.le_iff (Ratio.den_scaled_pos _ _) hden, Ratio.toRat_scaled, not_le] at hfits
    refine lt_of_lt_of_le hfits ?_
    have hsum : ((Nat.pow 2 52 : Nat) : ℚ) * 2 ^ ((x.num.log2 : Int) - x.den.log2 - 52) =
        2 ^ ((x.num.log2 : Int) - x.den.log2) := by
      rw [show ((Nat.pow 2 52 : Nat) : ℚ) = 2 ^ (52 : Int) by norm_num,
        ← zpow_add₀ (by norm_num)]
      congr 1
      omega
    rw [hsum]
    exact hmono (by omega)

/-- A number that is composed without a sign from less than `2 ^ 53` units of bounded size has no
sign bit. -/
theorem compose_bits_lt {m : Nat} {e : Int} (hm : m < 2 ^ 53) (he : e ≤ 971) :
    (compose false m e).bits.toNat < 2 ^ 63 := by
  unfold compose
  dsimp only
  by_cases h0 : m = 0
  · rw [if_pos h0]
    decide
  · rw [if_neg h0]
    have hlog : m.log2 ≤ 52 := by
      have hlt := (Nat.log2_lt h0).2 hm
      omega
    have hwide : m * Nat.pow 2 (min (52 - m.log2) (e + 1074).toNat) < 2 ^ 53 := by
      calc m * Nat.pow 2 (min (52 - m.log2) (e + 1074).toNat)
          < 2 ^ (m.log2 + 1) * 2 ^ (min (52 - m.log2) (e + 1074).toNat) :=
            Nat.mul_lt_mul_of_pos_right Nat.lt_log2_self (Nat.pow_pos (by decide))
        _ = 2 ^ (m.log2 + 1 + min (52 - m.log2) (e + 1074).toNat) := by rw [← Nat.pow_add]
        _ ≤ 2 ^ 53 := Nat.pow_le_pow_right (by decide) (by omega)
    generalize hshift : min (52 - m.log2) (e + 1074).toNat = shift at hwide ⊢
    generalize m * Nat.pow 2 shift = wide at hwide ⊢
    have hpow : Nat.pow 2 52 = 4503599627370496 := by decide
    have hexponent : (e - shift + 1075).toNat ≤ 2046 := by omega
    generalize (e - shift + 1075).toNat = biased at hexponent ⊢
    rw [hpow]
    have hword : ∀ n : Nat, n < 2 ^ 63 → (UInt64.ofNat n).toNat < 2 ^ 63 := by
      intro n hn
      rw [UInt64.toNat_ofNat']
      omega
    split
    · exact hword _ (by simp; omega)
    · exact hword _ (by simp; omega)

/-- The nearest real to a number that is not negative has no sign bit. -/
theorem nearest_bits_lt (x : Ratio) (hden : 0 < x.den) : (nearest x).bits.toNat < 2 ^ 63 := by
  unfold nearest
  by_cases h0 : x.num = 0
  · rw [if_pos h0]
    decide
  · rw [if_neg h0]
    dsimp only
    have hlt := toRat_lt_unit x hden
    generalize unitExponent x = e at hlt ⊢
    let units : Ratio :=
      if 0 ≤ e then ⟨x.num, x.den * Nat.pow 2 e.toNat⟩ else ⟨x.num * Nat.pow 2 (-e).toNat, x.den⟩
    have hunits : 0 < units.den ∧ units.toRat = x.toRat * 2 ^ (-e) := by
      by_cases he : 0 ≤ e
      · obtain ⟨n, rfl⟩ := Int.eq_ofNat_of_zero_le he
        simp only [units, if_pos he]
        refine ⟨Nat.mul_pos hden (Nat.pow_pos (by decide)), ?_⟩
        simp only [Ratio.toRat, zpow_neg]
        push_cast
        field_simp
        simp
      · obtain ⟨n, hn⟩ := Int.eq_ofNat_of_zero_le (show 0 ≤ -e by omega)
        simp only [units, if_neg he]
        refine ⟨hden, ?_⟩
        simp only [Ratio.toRat, hn]
        push_cast
        field_simp
        simp
    have hrounded : units.rounded ≤ 2 ^ 53 := by
      refine Ratio.rounded_le hunits.1 ?_
      rw [hunits.2]
      calc x.toRat * 2 ^ (-e) < 2 ^ (e + 53) * 2 ^ (-e) := by
            exact mul_lt_mul_of_pos_right hlt (by positivity)
        _ = ((2 ^ 53 : Nat) : ℚ) := by
            rw [← zpow_add₀ (by norm_num), show e + 53 + -e = 53 by omega]
            norm_num
    change (if 971 < (if units.rounded = Nat.pow 2 53 then (Nat.pow 2 52, e + 1)
      else (units.rounded, e)).2 then infinity else compose false
        (if units.rounded = Nat.pow 2 53 then (Nat.pow 2 52, e + 1) else (units.rounded, e)).1
        (if units.rounded = Nat.pow 2 53 then (Nat.pow 2 52, e + 1)
          else (units.rounded, e)).2).bits.toNat < 2 ^ 63
    have hbound : ∀ m e, m < 2 ^ 53 →
        (if 971 < e then infinity else compose false m e).bits.toNat < 2 ^ 63 := by
      intro m e hm
      by_cases hsize : 971 < e
      · rw [if_pos hsize]
        decide
      · rw [if_neg hsize]
        exact compose_bits_lt hm (by omega)
    by_cases hm : units.rounded = Nat.pow 2 53
    · rw [if_pos hm]
      exact hbound _ _ (show Nat.pow 2 52 < 2 ^ 53 by decide)
    · rw [if_neg hm]
      exact hbound _ _ (lt_of_le_of_ne hrounded hm)

/-- Negative zero is no nearest real to a number that is not negative. -/
theorem nearest_ne_negativeZero (x : Ratio) (hden : 0 < x.den) : nearest x ≠ negativeZero := by
  intro h
  have hlt := nearest_bits_lt x hden
  rw [h] at hlt
  exact absurd hlt (by decide)

end Binary64

namespace Expr

/-! ## Expressions -/

theorem numberValue_ne {source : Bytes} {v : Value} (h : numberValue source = .ok v) :
    v ≠ .real .negativeZero := by
  rcases numberValue_cases h with ⟨x, hden, rfl⟩ | ⟨n, -, rfl⟩
  · intro hv
    exact Binary64.nearest_ne_negativeZero x hden (Value.real.inj hv)
  · exact nofun

theorem wordLiteral_ne {name : Bytes} {v : Value} (h : wordLiteral? name = some v) :
    v ≠ .real .negativeZero := by
  rcases wordLiteral?_cases h with rfl | ⟨b, rfl⟩ <;> exact nofun

theorem hasNegativeZero_of_built {x : Expr}
    (h : x.Built (fun v => v ≠ .real .negativeZero) fun _ => True) :
    x.hasNegativeZero = false := by
  induction x with
  | literal _ v => exact beq_eq_false_iff_ne.2 h
  | reference | present => rfl
  | unary _ _ x ih => exact ih h
  | binary _ _ l r ihl ihr => simp only [hasNegativeZero, ihl h.1, ihr h.2, Bool.or_self]

/-- Negative zero is not among the literals of an expression that was read. -/
theorem hasNegativeZero_of_parse {source : Bytes} {x : Expr} (h : parse source = .ok x) :
    x.hasNegativeZero = false :=
  hasNegativeZero_of_built <| built_of_parse
    ⟨fun _ _ => numberValue_ne, fun _ => nofun, fun _ _ => wordLiteral_ne,
      fun _ _ _ _ _ _ => trivial⟩ h

end Expr
end DecisionEngine
