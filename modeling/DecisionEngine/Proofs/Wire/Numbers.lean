import DecisionEngine.Wire.Reader
import Mathlib.Algebra.Group.Nat.Defs
/-!
# Reading numbers back

What was written is read back from the front of any bytes, and exactly that is taken.

* `Reader.Exact` — a reader reads some bytes as something, wherever they stand.
* `Reader.Exact.bind` — one after another.
* `Reader.Reads` — the same of bytes of which there are not more than a length can count.
* `Reader.exact_varint`, `Reader.exact_int`, `Reader.exact_word`, `Reader.exact_real` — numbers.
-/

namespace DecisionEngine
namespace Wire
namespace Reader

variable {α β : Type}

/-! ## Readers -/

/-- How many bytes a byte string can have that lengths are written of. -/
def Short (bs : Bytes) : Prop := bs.length < 2 ^ 63

instance (bs : Bytes) : Decidable (Short bs) := inferInstanceAs (Decidable (bs.length < 2 ^ 63))

theorem Short.left {bs more : Bytes} (h : Short (bs ++ more)) : Short bs := by
  unfold Short at *
  rw [List.length_append] at h
  omega

theorem Short.right {bs more : Bytes} (h : Short (bs ++ more)) : Short more := by
  unfold Short at *
  rw [List.length_append] at h
  omega

/-- A reader takes exactly these bytes from the front of any others, and reads them as `x`. -/
def Exact (r : Reader α) (bs : Bytes) (x : α) : Prop :=
  ∀ position rest, r ⟨position, bs ++ rest⟩ = .ok (x, ⟨position + bs.length, rest⟩)

/-- A reader takes exactly these bytes from the front of any others, and reads them as `x`; byte
strings that no length can be written of are left out. -/
def Reads (r : Reader α) (bs : Bytes) (x : α) : Prop :=
  Short bs → ∀ position rest, r ⟨position, bs ++ rest⟩ = .ok (x, ⟨position + bs.length, rest⟩)

theorem Exact.reads {r : Reader α} {bs : Bytes} {x : α} (h : Exact r bs x) : Reads r bs x :=
  fun _ => h

/-- The bytes may be taken to be short. -/
theorem Reads.of_short {r : Reader α} {bs : Bytes} {x : α} (h : Short bs → Reads r bs x) :
    Reads r bs x := fun hs => h hs hs

theorem exact_pure (x : α) : Exact (pure x) [] x := fun _ _ => rfl

theorem reads_pure (x : α) : Reads (pure x) [] x := (exact_pure x).reads

theorem Exact.bind {r : Reader α} {f : α → Reader β} {bs more : Bytes} {x : α} {y : β}
    (h : Exact r bs x) (h' : Exact (f x) more y) : Exact (r >>= f) (bs ++ more) y := by
  intro position rest
  have hr := h position (more ++ rest)
  have hf := h' (position + bs.length) rest
  simp only [Bind.bind, StateT.bind, List.append_assoc, List.length_append]
  rw [hr]
  dsimp only [Except.bind]
  rw [hf, Nat.add_assoc]

theorem Reads.bind {r : Reader α} {f : α → Reader β} {bs more : Bytes} {x : α} {y : β}
    (h : Reads r bs x) (h' : Reads (f x) more y) : Reads (r >>= f) (bs ++ more) y :=
  fun hs => Exact.bind (h hs.left) (h' hs.right)

/-- The last item, behind which nothing is taken. -/
theorem Exact.last {r : Reader α} {f : α → Reader β} {bs : Bytes} {x : α} {y : β}
    (h : Exact r bs x) (h' : Exact (f x) [] y) : Exact (r >>= f) bs y := by
  rw [← List.append_nil bs]
  exact h.bind h'

theorem Reads.last {r : Reader α} {f : α → Reader β} {bs : Bytes} {x : α} {y : β}
    (h : Reads r bs x) (h' : Reads (f x) [] y) : Reads (r >>= f) bs y :=
  fun hs => Exact.last (h hs) (h' (Nat.two_pow_pos 63))

/-- What is read last can be changed on the way out. -/
theorem Exact.map {r : Reader α} (f : α → β) {bs : Bytes} {x : α} (h : Exact r bs x) :
    Exact (r >>= fun x => pure (f x)) bs (f x) := h.last (exact_pure _)

theorem Reads.map {r : Reader α} (f : α → β) {bs : Bytes} {x : α} (h : Reads r bs x) :
    Reads (r >>= fun x => pure (f x)) bs (f x) := fun hs => Exact.map f (h hs)

/-- A reader reads these bytes as `x`, where nothing follows them. -/
def ReadsAll (r : Reader α) (bs : Bytes) (x : α) : Prop :=
  Short bs → ∀ position, r ⟨position, bs⟩ = .ok (x, ⟨position + bs.length, []⟩)

theorem Reads.bindAll {r : Reader α} {f : α → Reader β} {bs more : Bytes} {x : α} {y : β}
    (h : Reads r bs x) (h' : ReadsAll (f x) more y) : ReadsAll (r >>= f) (bs ++ more) y := by
  intro hs position
  have hr := h hs.left position more
  have hf := h' hs.right (position + bs.length)
  simp only [Bind.bind, StateT.bind, List.length_append]
  rw [hr]
  dsimp only [Except.bind]
  rw [hf, Nat.add_assoc]

theorem readsAll_pure (x : α) : ReadsAll (pure x) [] x := fun _ _ => rfl

/-- At the end of the bytes, nothing more is expected. -/
theorem ReadsAll.finish {what : String} {f : Unit → Reader β} {y : β} (h : ReadsAll (f ()) [] y) :
    ReadsAll (Reader.finish what >>= f) [] y := fun hs position => h hs position

/-- Reading a whole byte string. -/
theorem ReadsAll.run {r : Reader α} {bs : Bytes} {x : α} (h : ReadsAll r bs x) (hs : Short bs) :
    Reader.run r bs = .ok x := by
  unfold Reader.run Cursor.start
  rw [h hs 0]
  rfl

/-- Asking where a reader is takes nothing. -/
theorem Exact.position {f : Nat → Reader β} {bs : Bytes} {y : β} (h : ∀ p, Exact (f p) bs y) :
    Exact (Reader.position >>= f) bs y := fun p rest => h p p rest

theorem Reads.position {f : Nat → Reader β} {bs : Bytes} {y : β} (h : ∀ p, Reads (f p) bs y) :
    Reads (Reader.position >>= f) bs y := fun hs => Exact.position fun p => h p hs

theorem exact_byte (b : UInt8) : Exact byte [b] b := fun _ _ => rfl

/-- Reading a byte and going on. -/
theorem Exact.byte {f : UInt8 → Reader β} {b : UInt8} {bs : Bytes} {y : β}
    (h : Exact (f b) bs y) : Exact (Reader.byte >>= f) (b :: bs) y := (exact_byte b).bind h

theorem ofByte?_byte (tag : Tag) : Tag.ofByte? tag.byte = some tag := by
  cases tag <;> decide

/-- Looking at the tag of the next item takes nothing. -/
theorem Exact.peekTag (tag : Tag) {f : Option Tag → Reader β} {bs : Bytes} {y : β}
    (h : Exact (f (some tag)) (tag.byte :: bs) y) :
    Exact (Reader.peekTag >>= f) (tag.byte :: bs) y := by
  intro p rest
  have hf := h p rest
  rw [← ofByte?_byte tag] at hf
  exact hf

theorem Reads.peekTag (tag : Tag) {f : Option Tag → Reader β} {bs : Bytes} {y : β}
    (h : Reads (f (some tag)) (tag.byte :: bs) y) :
    Reads (Reader.peekTag >>= f) (tag.byte :: bs) y := fun hs => Exact.peekTag tag (h hs)

theorem split?_append (bs rest : Bytes) : split? bs.length (bs ++ rest) = some (bs, rest) := by
  induction bs with
  | nil => rfl
  | cons b bs ih =>
    rw [List.length_cons, List.cons_append, split?, ih]
    rfl

theorem exact_take (bs : Bytes) : Exact (take bs.length) bs bs := by
  intro p rest
  unfold take
  rw [split?_append]

/-! ## Lengths -/

theorem toNat_ofNat_of_lt {n : Nat} (h : n < 256) : (UInt8.ofNat n).toNat = n :=
  UInt8.toNat_ofNat_of_lt' h

theorem exact_varintWithin {groups n : Nat} (h : n < 128 ^ (groups + 1)) :
    Exact (varintWithin (groups + 1)) (Wire.varint n) n := by
  induction groups generalizing n with
  | zero =>
    have hn : n < 128 := by simpa using h
    rw [Wire.varint, if_pos hn, varintWithin]
    refine Exact.byte ?_
    rw [toNat_ofNat_of_lt (by omega), if_pos hn]
    exact exact_pure n
  | succ groups ih =>
    rw [Wire.varint, varintWithin]
    by_cases hn : n < 128
    · rw [if_pos hn]
      refine Exact.byte ?_
      rw [toNat_ofNat_of_lt (by omega), if_pos hn]
      exact exact_pure n
    · rw [if_neg hn]
      refine Exact.byte ?_
      rw [toNat_ofNat_of_lt (by omega), if_neg (by omega)]
      have hrest : n / 128 < 128 ^ (groups + 1) := by
        rw [Nat.div_lt_iff_lt_mul (by decide), ← Nat.pow_succ]
        exact h
      have hvalue : n % 128 + 128 - 128 + 128 * (n / 128) = n := by omega
      have hread := (ih hrest).map fun m => n % 128 + 128 - 128 + 128 * m
      rwa [hvalue] at hread

/-- Lengths below `2 ^ 63` are read back. -/
theorem exact_varint {n : Nat} (h : n < 2 ^ 63) : Exact varint (Wire.varint n) n :=
  exact_varintWithin (by simpa using h)

/-! ## Numbers of fixed width -/

theorem length_littleEndian (width n : Nat) : (littleEndian width n).length = width := by
  induction width generalizing n with
  | zero => rfl
  | succ width ih => rw [littleEndian, List.length_cons, ih]

theorem ofLittleEndian_littleEndian (width n : Nat) :
    ofLittleEndian (littleEndian width n) = n % 256 ^ width := by
  induction width generalizing n with
  | zero => simp [littleEndian, ofLittleEndian, Nat.mod_one]
  | succ width ih =>
    rw [littleEndian, ofLittleEndian, toNat_ofNat_of_lt (Nat.mod_lt _ (by decide)), ih,
      Nat.pow_succ', Nat.mod_mul]

theorem ofLittleEndian_lt (bs : Bytes) : ofLittleEndian bs < 256 ^ bs.length := by
  induction bs with
  | nil => exact Nat.one_pos
  | cons b bs ih =>
    have hb := b.toNat_lt
    rw [ofLittleEndian, List.length_cons, Nat.pow_succ]
    omega

/-- The lowest bytes of the number that bytes give are those bytes. -/
theorem littleEndian_ofLittleEndian (bs : Bytes) :
    littleEndian bs.length (ofLittleEndian bs) = bs := by
  induction bs with
  | nil => rfl
  | cons b bs ih =>
    have hb := b.toNat_lt
    have hlow : (b.toNat + 256 * ofLittleEndian bs) % 256 = b.toNat := by omega
    have hhigh : (b.toNat + 256 * ofLittleEndian bs) / 256 = ofLittleEndian bs := by omega
    rw [ofLittleEndian, List.length_cons, littleEndian, hlow, hhigh, ih, UInt8.ofNat_toNat]

theorem exact_littleEndian (width n : Nat) :
    Exact (take width) (littleEndian width n) (littleEndian width n) := by
  have htake := exact_take (littleEndian width n)
  rwa [length_littleEndian] at htake

/-- A signed number is its own residue in as many bytes as it fits into. -/
theorem ofInt_bmod {n : Int64} {width : Nat} (hpos : 0 < width) (hwidth : width ≤ 8)
    (h : fitsInt n (8 * width) = true) :
    Int64.ofInt (((n.toUInt64.toNat % 256 ^ width : Nat) : Int).bmod (Nat.pow 2 (8 * width))) =
      n := by
  have hn : (n.toUInt64.toNat : Int).bmod (2 ^ 64) = n.toInt := by
    rw [Int64.toInt, BitVec.toInt_eq_toNat_bmod]
    rfl
  have hpow : 256 ^ width = Nat.pow 2 (8 * width) := (Nat.pow_mul 2 8 width).symm
  have hdvd : Nat.pow 2 (8 * width) ∣ 2 ^ 64 := Nat.pow_dvd_pow 2 (by omega)
  obtain ⟨hlow, hhigh⟩ := of_decide_eq_true h
  rw [hpow, Int.natCast_emod, Int.emod_bmod, ← Int.bmod_bmod_of_dvd hdvd, hn]
  have hhalf : Nat.pow 2 (8 * width) = Nat.pow 2 (8 * width - 1) * 2 := by
    obtain ⟨bits, hbits⟩ : ∃ bits, 8 * width = bits + 1 := ⟨8 * width - 1, by omega⟩
    rw [hbits]
    rfl
  rw [Int.bmod_eq_of_le_mul_two, Int64.ofInt_toInt]
  · rw [hhalf]
    omega
  · rw [hhalf]
    omega

theorem fitsInt_64 (n : Int64) : fitsInt n (8 * 8) = true :=
  decide_eq_true ⟨n.le_toInt, n.toInt_lt⟩

/-- The smallest tag that holds a number holds it. -/
theorem intTag_spec (n : Int64) :
    ∃ width, (intTag n).intWidth? = some width ∧ 0 < width ∧ width ≤ 8 ∧
      fitsInt n (8 * width) = true := by
  unfold intTag
  by_cases h8 : fitsInt n 8 = true
  · exact ⟨1, by rw [if_pos h8]; rfl, by omega, by omega, h8⟩
  · rw [if_neg h8]
    by_cases h16 : fitsInt n 16 = true
    · exact ⟨2, by rw [if_pos h16]; rfl, by omega, by omega, h16⟩
    · rw [if_neg h16]
      by_cases h32 : fitsInt n 32 = true
      · exact ⟨4, by rw [if_pos h32]; rfl, by omega, by omega, h32⟩
      · rw [if_neg h32]
        exact ⟨8, rfl, by omega, by omega, fitsInt_64 n⟩

/-- An item of a signed number is read back. -/
theorem exact_intOf {tag : Tag} {width : Nat} {n : Int64} (htag : tag.intWidth? = some width)
    (hpos : 0 < width) (hwidth : width ≤ 8) (h : fitsInt n (8 * width) = true) :
    Exact int (tag.byte :: littleEndian width n.toUInt64.toNat) n := by
  unfold int
  refine Exact.peekTag _ ?_
  rw [Option.bind_some, htag]
  refine Exact.byte ?_
  have hread := (exact_littleEndian width n.toUInt64.toNat).map fun bs =>
    Int64.ofInt ((ofLittleEndian bs : Int).bmod (Nat.pow 2 (8 * width)))
  rwa [ofLittleEndian_littleEndian, ofInt_bmod hpos hwidth h] at hread

theorem exact_int (n : Int64) : Exact int (Wire.int n) n := by
  obtain ⟨width, htag, hpos, hwidth, hfits⟩ := intTag_spec n
  have hread := exact_intOf htag hpos hwidth hfits
  unfold Wire.int
  dsimp only
  rw [htag]
  exact hread

theorem reads_int (n : Int64) : Reads int (Wire.int n) n := (exact_int n).reads

theorem exact_word (w : UInt64) : Exact word (Wire.word w) w := by
  have htag : Tag.int64.intWidth? = some 8 := rfl
  have hread : Exact int (Wire.word w) w.toInt64 :=
    exact_intOf htag (by decide) (by decide) (fitsInt_64 _)
  exact hread.map Int64.toUInt64

theorem reads_word (w : UInt64) : Reads word (Wire.word w) w := (exact_word w).reads

/-- A real is read back, with positive zero in the place of negative zero. -/
theorem exact_real (x : Binary64) : Exact real (Wire.real x) x.withoutNegativeZero := by
  unfold real Wire.real
  refine Exact.peekTag _ (Exact.byte ?_)
  have hread := (exact_littleEndian 8 x.withoutNegativeZero.bits.toNat).map fun bs =>
    (⟨UInt64.ofNat (ofLittleEndian bs)⟩ : Binary64)
  have hbits : UInt64.ofNat (x.withoutNegativeZero.bits.toNat % 256 ^ 8) =
      x.withoutNegativeZero.bits := by
    rw [show 256 ^ 8 = 2 ^ 64 from rfl, Nat.mod_eq_of_lt (UInt64.toNat_lt _), UInt64.ofNat_toNat]
  rwa [ofLittleEndian_littleEndian, hbits] at hread

theorem reads_real (x : Binary64) : Reads real (Wire.real x) x.withoutNegativeZero :=
  (exact_real x).reads

end Reader
end Wire
end DecisionEngine
