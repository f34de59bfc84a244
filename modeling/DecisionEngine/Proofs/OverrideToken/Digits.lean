import DecisionEngine.Bytes
import Mathlib.Tactic.SplitIfs
/-!
# Reading hexadecimal digits

Two digits stand for a byte, in letters of either case.  A text is read as some bytes just if it is
what is written for them, when its capital letters are made small.

* `Bytes.small` — a text in small letters.
* `Bytes.hexValue?_eq_some_iff` — which bytes are digits.
* `Bytes.unhex?_eq_some_iff` — which texts are read, and as what.
-/

namespace DecisionEngine
namespace Bytes

/-- The letter in small if it is a capital one. -/
def smallLetter (c : UInt8) : UInt8 :=
  if 65 ≤ c.toNat ∧ c.toNat ≤ 90 then UInt8.ofNat (c.toNat + 32) else c

/-- The text in small letters. -/
def small (s : Bytes) : Bytes := s.map smallLetter

/-! ## Digits -/

theorem toNat_smallLetter (c : UInt8) : (smallLetter c).toNat =
    if 65 ≤ c.toNat ∧ c.toNat ≤ 90 then c.toNat + 32 else c.toNat := by
  unfold smallLetter
  split
  · exact UInt8.toNat_ofNat_of_lt' (show c.toNat + 32 < 256 by omega)
  · rfl

theorem toNat_hexDigit {n : Nat} (h : n < 16) :
    (hexDigit n).toNat = if n < 10 then 48 + n else 87 + n := by
  unfold hexDigit
  split
  · exact UInt8.toNat_ofNat_of_lt' (show 48 + n < 256 by omega)
  · exact UInt8.toNat_ofNat_of_lt' (show 87 + n < 256 by omega)

/-- A byte is a digit of a number just if the digit of that number is the same letter in small. -/
theorem hexValue?_eq_some_iff {c : UInt8} {n : Nat} :
    hexValue? c = some n ↔ n < 16 ∧ smallLetter c = hexDigit n := by
  have hletter : n < 16 → (smallLetter c = hexDigit n ↔
      (if 65 ≤ c.toNat ∧ c.toNat ≤ 90 then c.toNat + 32 else c.toNat) =
        if n < 10 then 48 + n else 87 + n) := fun h => by
    rw [← UInt8.toNat_inj, toNat_smallLetter, toNat_hexDigit h]
  rw [and_congr_right hletter]
  unfold hexValue?
  split_ifs <;> simp only [Option.some.injEq, false_iff] <;> omega

/-! ## Texts -/

/-- A byte is written as two digits that stand for it. -/
theorem hexPair_iff {b : UInt8} {high low : Nat} (hhigh : high < 16) (hlow : low < 16) :
    UInt8.ofNat (16 * high + low) = b ↔ high = b.toNat / 16 ∧ low = b.toNat % 16 := by
  rw [← UInt8.toNat_inj, UInt8.toNat_ofNat_of_lt' (show 16 * high + low < 256 by omega)]
  omega

theorem unhex?_cons_cons {a c : UInt8} {rest bytes : Bytes} :
    unhex? (a :: c :: rest) = some bytes ↔ ∃ high low tail, hexValue? a = some high ∧
      hexValue? c = some low ∧ unhex? rest = some tail ∧
        UInt8.ofNat (16 * high + low) :: tail = bytes := by
  simp [unhex?, Option.bind_eq_some_iff]

/-- A text is read as some bytes just if it is what is written for them, in letters of either
case. -/
theorem unhex?_eq_some_iff {text bytes : Bytes} :
    unhex? text = some bytes ↔ small text = hex bytes := by
  induction text using unhex?.induct generalizing bytes with
  | case1 =>
    cases bytes with
    | nil => exact iff_of_true rfl rfl
    | cons b bytes => exact iff_of_false nofun nofun
  | case2 a =>
    cases bytes with
    | nil => exact iff_of_false nofun nofun
    | cons b bytes =>
      refine iff_of_false nofun fun h => ?_
      have hlength := congrArg List.length h
      simp [small, hex] at hlength
  | case3 a c rest ih =>
    rw [unhex?_cons_cons]
    constructor
    · rintro ⟨high, low, tail, hhigh, hlow, htail, rfl⟩
      obtain ⟨hhigh, ha⟩ := hexValue?_eq_some_iff.1 hhigh
      obtain ⟨hlow, hc⟩ := hexValue?_eq_some_iff.1 hlow
      obtain ⟨hb, hb'⟩ := (hexPair_iff hhigh hlow).1 rfl
      show smallLetter a :: smallLetter c :: small rest = _ :: _ :: hex tail
      rw [ha, hc, ih.1 htail, ← hb, ← hb']
    · intro h
      cases bytes with
      | nil => cases h
      | cons b bytes =>
        obtain ⟨ha, hc, hrest⟩ : smallLetter a = hexDigit (b.toNat / 16) ∧
            smallLetter c = hexDigit (b.toNat % 16) ∧ small rest = hex bytes := by
          simpa [small, hex] using h
        have hb := b.toNat_lt
        have hhigh : b.toNat / 16 < 16 := by omega
        have hlow : b.toNat % 16 < 16 := by omega
        exact ⟨_, _, bytes, hexValue?_eq_some_iff.2 ⟨hhigh, ha⟩,
          hexValue?_eq_some_iff.2 ⟨hlow, hc⟩, ih.2 hrest,
          congrArg (· :: bytes) ((hexPair_iff hhigh hlow).2 ⟨rfl, rfl⟩)⟩

end Bytes
end DecisionEngine
