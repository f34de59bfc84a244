/-!
# Byte strings

Names, labels and texts are strings of bytes: they are compared, ordered and counted byte by
byte, and nothing asks whether they are well-formed in some character encoding.

* `utf8`: fixed wording as bytes.
* `decimal`, `signedDecimal`: numbers in base ten.
* `hex`, `hexWord`, `unhex?`: hexadecimal text and its reader, which takes both letter cases.
* `untilNul`: the part of a text in front of its first zero byte.
* `sortedDistinct`, `lowerBound`, `sortedContains`: names in order.
-/

namespace DecisionEngine

/-- A string of bytes, ordered lexicographically. -/
abbrev Bytes := List UInt8

/-- The UTF-8 bytes of a text. -/
def utf8 (s : String) : Bytes := s.toUTF8.data.toList

namespace Bytes

/-! ## Decimal text -/

/-- The character of a decimal digit. -/
def digit (n : Nat) : UInt8 := UInt8.ofNat (48 + n)

/-- A natural number in base ten, without leading zeros. -/
def decimal (n : Nat) : Bytes :=
  if n < 10 then [digit n] else decimal (n / 10) ++ [digit (n % 10)]

/-- An integer in base ten, with a minus sign in front of a negative one. -/
def signedDecimal : Int → Bytes
  | .ofNat n => decimal n
  | .negSucc n => 45 :: decimal (n + 1)

/-- The text of a number, padded on the left with `fill` to at least `width` bytes. -/
def padLeft (width : Nat) (fill : UInt8) (s : Bytes) : Bytes :=
  List.replicate (width - s.length) fill ++ s

/-! ## Hexadecimal text -/

/-- The lower-case character of a hexadecimal digit. -/
def hexDigit (n : Nat) : UInt8 := UInt8.ofNat (if n < 10 then 48 + n else 87 + n)

/-- A natural number in base sixteen, without leading zeros. -/
def hexadecimal (n : Nat) : Bytes :=
  if n < 16 then [hexDigit n] else hexadecimal (n / 16) ++ [hexDigit (n % 16)]

/-- The value of a hexadecimal digit of either letter case. -/
def hexValue? (c : UInt8) : Option Nat :=
  if 48 ≤ c.toNat ∧ c.toNat ≤ 57 then some (c.toNat - 48)
  else if 97 ≤ c.toNat ∧ c.toNat ≤ 102 then some (c.toNat - 87)
  else if 65 ≤ c.toNat ∧ c.toNat ≤ 70 then some (c.toNat - 55)
  else none

/-- Two lower-case digits per byte. -/
def hex (bs : Bytes) : Bytes :=
  bs.flatMap fun b => [hexDigit (b.toNat / 16), hexDigit (b.toNat % 16)]

/-- The bytes that pairs of hexadecimal digits stand for; nothing for any other text. -/
def unhex? : Bytes → Option Bytes
  | [] => some []
  | [_] => none
  | a :: b :: rest => do
    let high ← hexValue? a
    let low ← hexValue? b
    let tail ← unhex? rest
    return UInt8.ofNat (16 * high + low) :: tail

/-- The bytes of a 64-bit word, the most significant first. -/
def bigEndian (w : UInt64) : Bytes :=
  (List.range 8).map fun i => (w >>> UInt64.ofNat (8 * (7 - i))).toUInt8

/-- A 64-bit word as sixteen hexadecimal digits. -/
def hexWord (w : UInt64) : Bytes := hex (bigEndian w)

/-! ## Pieces of text -/

/-- The bytes in front of the first zero byte: what is left of a text where a zero ends it. -/
def untilNul (s : Bytes) : Bytes := s.takeWhile (· != 0)

/-- The texts one after another, with `separator` between two of them. -/
def joined (separator : Bytes) (parts : List Bytes) : Bytes := separator.intercalate parts

/-- The text between two single quotes. -/
def quoted (s : Bytes) : Bytes := 39 :: s ++ [39]

end Bytes

/-! ## Sorted lists of names -/

/-- The entries in ascending order, each once. -/
def sortedDistinct (names : List Bytes) : List Bytes :=
  (names.mergeSort fun a b => decide (a ≤ b)).eraseDups

/-- The rest of a list from the first of its `count` leading names on that is not below `name`,
found by halving. -/
@[semireducible]
def lowerBound (name : Bytes) (names : List Bytes) (count : Nat) : List Bytes :=
  if _more : count = 0 then names
  else
    match names.drop (count / 2) with
    | middle :: rest =>
      if middle < name then lowerBound name rest (count - count / 2 - 1)
      else lowerBound name names (count / 2)
    | [] => names
termination_by count
decreasing_by all_goals omega

/-- The names are in order. -/
def Ordered (names : List Bytes) : Prop := names.Pairwise (· ≤ ·)

theorem dropWhile_of_none_below {name : Bytes} {names : List Bytes}
    (h : ∀ x ∈ names, ¬x < name) : names.dropWhile (fun x => decide (x < name)) = names := by
  cases names with
  | nil => rfl
  | cons x rest => rw [List.dropWhile_cons_of_neg (by simpa using h x (List.mem_cons_self ..))]

/-- In a list in order, halving skips just the names that are below, if none is behind the first
`count` ones. -/
theorem lowerBound_eq_dropWhile {name : Bytes} {names : List Bytes} {count : Nat}
    (hordered : Ordered names) (hcount : count ≤ names.length)
    (hbehind : ∀ x ∈ names.drop count, ¬x < name) :
    lowerBound name names count = names.dropWhile (fun x => decide (x < name)) := by
  fun_induction lowerBound name names count with
  | case1 names => exact (dropWhile_of_none_below hbehind).symm
  | case2 names count hmore middle rest hdrop hbelow ih =>
    -- Everything up to the middle is below the name, so it is skipped either way.
    have hsplit : names = names.take (count / 2) ++ middle :: rest := by
      rw [← hdrop, List.take_append_drop]
    have hlength : (names.take (count / 2)).length = count / 2 := by
      rw [List.length_take]
      omega
    rw [hsplit] at hordered hbehind hcount
    obtain ⟨-, hrest, hfront⟩ := List.pairwise_append.1 hordered
    have hskipped : ∀ x ∈ names.take (count / 2), decide (x < name) = true := fun x hx =>
      decide_eq_true (List.lt_of_le_of_lt (hfront x hx middle (List.mem_cons_self ..)) hbelow)
    rw [ih (List.pairwise_cons.1 hrest).2 ?_ fun x hx => hbehind x ?_]
    · conv => rhs; rw [hsplit]
      rw [List.dropWhile_append_of_pos hskipped, List.dropWhile_cons_of_pos (by simpa using hbelow)]
    · rw [List.length_append, hlength, List.length_cons] at hcount
      omega
    · rw [List.drop_append, hlength]
      refine List.mem_append_right _ ?_
      obtain ⟨d, hd⟩ : ∃ d, count - count / 2 = d + 1 := ⟨count - count / 2 - 1, by omega⟩
      rw [hd, List.drop_succ_cons]
      rwa [hd] at hx
  | case3 names count hmore middle rest hdrop hbelow ih =>
    refine ih hordered (by omega) fun x hx hlt => hbelow ?_
    rw [hdrop] at hx
    have hsorted : Ordered (middle :: rest) := hdrop ▸ hordered.sublist (List.drop_sublist ..)
    rcases List.mem_cons.1 hx with rfl | hx
    · exact hlt
    · exact List.lt_of_le_of_lt ((List.pairwise_cons.1 hsorted).1 x hx) hlt
  | case4 names count hmore hdrop =>
    rw [List.drop_eq_nil_iff] at hdrop
    omega

/-- Looks a name up by halving; in a list that is in order this finds every name of it. -/
def sortedContains (names : List Bytes) (name : Bytes) : Bool :=
  match lowerBound name names names.length with
  | found :: _ => !decide (name < found)
  | [] => false

end DecisionEngine
