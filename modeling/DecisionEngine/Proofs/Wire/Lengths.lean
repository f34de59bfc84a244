import DecisionEngine.Proofs.Wire.Numbers
/-!
# Lengths of any size

A length is written in groups of seven bits, however large it is, and read as long as it has nine
groups.  Ten groups are refused at the tenth byte, whatever this byte is and whatever follows it.
So what is written is read back up to `2 ^ 63`, and from there on no length of 64 bits is.

* `Reader.refuses_varintWithin` — a length of more groups than a reader takes.
* `Reader.varint_written` — what comes of every length that was written.
* `Reader.smallest_refused` — the smallest length that is not read back.
-/

namespace DecisionEngine
namespace Wire
namespace Reader

/-- A length that has more groups than are read is refused at the first of the others. -/
theorem refuses_varintWithin {groups n : Nat} (h : 128 ^ groups ≤ n) (position : Nat)
    (rest : Bytes) :
    varintWithin groups ⟨position, Wire.varint n ++ rest⟩ =
      .error ⟨.malformed .varintTooLarge, position + groups⟩ := by
  -- One group is taken off at each step, by the writer and by the reader alike.
  induction groups generalizing n position with
  | zero =>
    obtain ⟨b, bs, hbytes⟩ : ∃ b bs, Wire.varint n = b :: bs := by
      rw [Wire.varint]
      split
      · exact ⟨_, _, rfl⟩
      · exact ⟨_, _, rfl⟩
    rw [hbytes]
    rfl
  | succ groups ih =>
    have hlarge : ¬n < 128 := by
      have hfirst : 128 ^ 1 ≤ 128 ^ (groups + 1) := Nat.pow_le_pow_right (by decide) (by omega)
      omega
    have hrest : 128 ^ groups ≤ n / 128 := by
      rw [Nat.le_div_iff_mul_le (by decide), ← Nat.pow_succ]
      exact h
    have hnext := ih hrest (position + 1)
    have hbyte : (UInt8.ofNat (n % 128 + 128)).toNat = n % 128 + 128 :=
      toNat_ofNat_of_lt (by omega)
    have hcontinued : ¬n % 128 + 128 < 128 := by omega
    rw [Wire.varint, if_neg hlarge, varintWithin, List.cons_append]
    simp only [Bind.bind, StateT.bind, byte, Except.bind, hbyte, if_neg hcontinued, hnext]
    rw [Nat.add_assoc, Nat.add_comm 1]

/-- **Lengths below `2 ^ 63` are read back, and larger ones are refused.**  Whatever follows the
bytes of a length, and wherever they stand, they are read as that length if it has at most nine
groups of seven bits, and exactly they are taken.  Otherwise the tenth byte is refused. -/
theorem varint_written (n position : Nat) (rest : Bytes) :
    varint ⟨position, Wire.varint n ++ rest⟩ =
      if n < 2 ^ 63 then .ok (n, ⟨position + (Wire.varint n).length, rest⟩)
      else .error ⟨.malformed .varintTooLarge, position + 9⟩ := by
  by_cases h : n < 2 ^ 63
  · rw [if_pos h]
    exact exact_varint h position rest
  · have hgroups : 128 ^ 9 ≤ n := by
      have hpow : 128 ^ 9 = 2 ^ 63 := by decide
      omega
    rw [if_neg h]
    exact refuses_varintWithin hgroups position rest

/-- The smallest length that is refused is one of 64 bits. -/
theorem smallest_refused :
    2 ^ 63 < 2 ^ 64 ∧
      varint ⟨0, Wire.varint (2 ^ 63)⟩ = .error ⟨.malformed .varintTooLarge, 9⟩ := by
  have hrefused := refuses_varintWithin (show 128 ^ 9 ≤ 2 ^ 63 by decide) 0 []
  rw [List.append_nil] at hrefused
  exact ⟨by decide, hrefused⟩

end Reader
end Wire
end DecisionEngine
