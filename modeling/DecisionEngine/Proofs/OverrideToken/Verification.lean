import DecisionEngine.OverrideToken
import DecisionEngine.Proofs.Failure
import DecisionEngine.Proofs.OverrideToken.Digits
import DecisionEngine.Proofs.Wire.Items
import DecisionEngine.Proofs.Wire.Refusals
/-!
# Override tokens are accepted if they are genuine, current and for the entity

What is signed is a function of the bytes in front of the signature, any function that gives 32
bytes.  A text is accepted only if it writes a payload with its signature, and then says what the
payload says.  The payload of a token is read back as the token.

* `OverrideToken.ofPayload_payload` — the payload of a token says the token.
* `OverrideToken.isCodec_of_ofPayload` — other bytes are refused as damaged or of another kind.
* `TokenAuthority.verify_eq_ok_iff` — which texts are accepted, and as what.
* `TokenAuthority.verify_iff` — tokens that were issued are accepted when and where they should be,
  and nothing is accepted that was not signed.
-/

namespace DecisionEngine

open Wire (Reader)
open Wire.Reader (Short)

/-! ## Payloads -/

namespace OverrideToken

/-- The token with positive zero in the place of negative zero. -/
def withoutNegativeZero (t : OverrideToken) : OverrideToken :=
  { t with attributes := t.attributes.withoutNegativeZero }

/-- The payload of a token says the token, but for negative zeros. -/
theorem ofPayload_payload {t : OverrideToken} (h : Short t.payload) :
    ofPayload t.payload = .ok t.withoutNegativeZero := by
  refine Reader.ReadsAll.run ?_ h
  simp only [payload, List.append_assoc]
  refine Reader.reads_header.bindAll ((Reader.reads_function (by decide)).bindAll ?_)
  refine (Reader.reads_text t.tenant).bindAll ((Reader.reads_text t.entity).bindAll ?_)
  refine (Reader.reads_attributes t.attributes).bindAll ((Reader.reads_int t.issuedAt).bindAll ?_)
  rw [← List.append_nil (Wire.int t.expiresAt)]
  exact (Reader.reads_int t.expiresAt).bindAll (Reader.ReadsAll.finish (Reader.readsAll_pure _))

/-- Bytes that say no token are refused as damaged or as another kind of item. -/
theorem isCodec_of_ofPayload {bytes : Bytes} {e : Wire.Error} (h : ofPayload bytes = .error e) :
    e.IsCodec := by
  by_contra hcodec
  refine Reader.tame_of_orderly (fun all => ?_) _ (Reader.overflows_run_iff.1 ⟨e, h, hcodec⟩)
  exact Reader.orderly_header.bind fun _ => (Reader.orderly_function _).bind fun _ =>
    Reader.orderly_text.bind fun _ => Reader.orderly_text.bind fun _ =>
      Reader.orderly_attributes.bind fun _ => Reader.orderly_int.bind fun _ =>
        Reader.orderly_int.bind fun _ => (Reader.orderly_finish _).map _

theorem payload_ne_nil (t : OverrideToken) : t.payload ≠ [] := List.cons_ne_nil _ _

end OverrideToken

/-! ## Signatures -/

namespace TokenAuthority

variable {a : TokenAuthority} {text payload : Bytes}

/-- A payload with its signature. -/
def signed (a : TokenAuthority) (payload : Bytes) : Bytes := payload ++ a.sign payload

theorem signed_inj {payload' : Bytes} (h : a.signed payload = a.signed payload') :
    payload = payload' := by
  refine (List.append_inj h ?_).1
  have hlength := congrArg List.length h
  simp only [signed, List.length_append, a.length_sign] at hlength
  omega

/-- The payload of a text is what is left of its bytes in front of the right signature. -/
theorem signedPayload_eq_ok_iff :
    a.signedPayload text = .ok payload ↔
      payload ≠ [] ∧ Bytes.small text = Bytes.hex (a.signed payload) := by
  rw [← Bytes.unhex?_eq_some_iff]
  unfold signedPayload
  cases hbytes : Bytes.unhex? text with
  | none => exact iff_of_false nofun nofun
  | some bytes =>
    dsimp only
    rw [Option.some.injEq]
    constructor
    · intro h
      split at h
      · cases h
      · rename_i hlong
        split at h
        · rename_i hsign
          obtain rfl := Except.ok.inj h
          refine ⟨fun hnil => ?_, ?_⟩
          · have hlength := congrArg List.length hnil
            rw [List.length_take, List.length_nil] at hlength
            omega
          · rw [signed, hsign, List.take_append_drop]
        · cases h
    · rintro ⟨hne, rfl⟩
      have hlength : (a.signed payload).length = payload.length + signatureLength := by
        rw [signed, List.length_append, a.length_sign]
      have hpos := List.length_pos_iff.2 hne
      have hfront : (a.signed payload).length - signatureLength = payload.length := by omega
      rw [if_neg (by omega), hfront, signed, List.take_left, List.drop_left, if_pos rfl]

/-! ## Verification -/

/-- A text is accepted as a token just if it writes a payload with its signature, and the payload
says the token, which is for the entity, lives no longer than it may and has not expired. -/
theorem verify_eq_ok_iff {tenant entity : Bytes} {now : Int64} {t : OverrideToken} :
    a.verify text tenant entity now = .ok t ↔
      ∃ payload, (payload ≠ [] ∧ Bytes.small text = Bytes.hex (a.signed payload)) ∧
        OverrideToken.ofPayload payload = .ok t ∧ (t.tenant = tenant ∧ t.entity = entity) ∧
        t.expiresAt - t.issuedAt ≤ a.maxTtlMillis ∧ now < t.expiresAt := by
  unfold verify
  simp only [← signedPayload_eq_ok_iff, bind_eq_ok, mapError_eq_ok]
  refine exists_congr fun payload => and_congr_right fun _ => ?_
  constructor
  · rintro ⟨t', hread, h⟩
    split at h
    · cases h
    · rename_i hfor
      split at h
      · cases h
      · rename_i hlives
        split at h
        · cases h
        · rename_i hcurrent
          cases h
          rw [not_or, not_not, not_not] at hfor
          exact ⟨hread, hfor, Int64.not_lt.1 hlives, Int64.not_le.1 hcurrent⟩
  · rintro ⟨hread, ⟨rfl, rfl⟩, hlives, hcurrent⟩
    refine ⟨t, hread, ?_⟩
    rw [if_neg (by simp), if_neg (Int64.not_lt.2 hlives), if_neg (Int64.not_le.2 hcurrent)]
    rfl

theorem toInt_add_of_fits {now ttl : Int64} (hpos : 0 < ttl)
    (hfits : now.toInt + ttl.toInt ≤ Int64.maxValue.toInt) :
    (now + ttl).toInt = now.toInt + ttl.toInt := by
  have hlow := now.le_toInt
  rw [Int64.toInt_maxValue] at hfits
  rw [Int64.lt_iff_toInt_lt, Int64.toInt_zero] at hpos
  rw [Int64.toInt_add, Int.bmod_eq_of_le_mul_two] <;> omega

/-- The text of a token, in letters of either case, is accepted just where the token says so. -/
theorem verify_textOf_iff {t t' : OverrideToken} {tenant entity : Bytes} {now : Int64}
    (hshort : Short t.payload) (htext : Bytes.small text = a.textOf t) :
    a.verify text tenant entity now = .ok t' ↔
      ((tenant = t.tenant ∧ entity = t.entity) ∧ t.expiresAt - t.issuedAt ≤ a.maxTtlMillis ∧
        now < t.expiresAt) ∧ t' = t.withoutNegativeZero := by
  rw [verify_eq_ok_iff]
  constructor
  · rintro ⟨payload, ⟨-, hsmall⟩, hread, ⟨rfl, rfl⟩, hlives, hcurrent⟩
    have hbytes := (Bytes.unhex?_eq_some_iff.2 hsmall).symm.trans
      (Bytes.unhex?_eq_some_iff.2 htext)
    obtain rfl := signed_inj (Option.some.inj hbytes)
    rw [OverrideToken.ofPayload_payload hshort] at hread
    cases hread
    exact ⟨⟨⟨rfl, rfl⟩, hlives, hcurrent⟩, rfl⟩
  · rintro ⟨⟨⟨rfl, rfl⟩, hlives, hcurrent⟩, rfl⟩
    exact ⟨t.payload, ⟨t.payload_ne_nil, htext⟩, OverrideToken.ofPayload_payload hshort,
      ⟨rfl, rfl⟩, hlives, hcurrent⟩

/-- **Tokens are accepted if they are genuine, current and for the entity.**  Let signatures be any
function of payloads that gives 32 bytes, such as that of a secret.  A token that is issued, with a
positive lifetime within the bound and a time of expiry and a payload that can be held in memory, is
accepted in letters of either case, by an authority with the same signatures and any bound, just if
it is asked for the same tenant and entity, its lifetime is within that bound, and it has not
expired yet; it is then accepted with the attributes and times that it was issued with, but for
negative zeros.  A text that does not write some bytes followed by their signature is rejected; and
the only errors that a payload is refused with are those that are made a rejection. -/
theorem verify_iff (a : TokenAuthority) :
    (∀ (tenant entity : Bytes) (attributes : AttributeSet) (issued ttl : Int64),
      0 < ttl → ttl ≤ a.maxTtlMillis → issued.toInt + ttl.toInt ≤ Int64.maxValue.toInt →
      Short (OverrideToken.payload ⟨tenant, entity, attributes, issued, issued + ttl⟩) →
      ∃ token, a.issue tenant entity attributes issued ttl = .ok token ∧
        ∀ maxTtl text tenant' entity' now t, Bytes.small text = token →
          (verify { a with maxTtlMillis := maxTtl } text tenant' entity' now = .ok t ↔
            ((tenant' = tenant ∧ entity' = entity) ∧ ttl ≤ maxTtl ∧
              now.toInt < issued.toInt + ttl.toInt) ∧
            t = ⟨tenant, entity, attributes.withoutNegativeZero, issued, issued + ttl⟩ ∧
              t.expiresAt.toInt = issued.toInt + ttl.toInt)) ∧
    (∀ text tenant entity now,
      (∀ payload, payload ≠ [] → Bytes.small text ≠ Bytes.hex (payload ++ a.sign payload)) →
      ∃ reason, a.verify text tenant entity now = .error reason) ∧
    ∀ payload e, OverrideToken.ofPayload payload = .error e → e.IsCodec := by
  refine ⟨fun tenant entity attributes issued ttl hpos hmax hfits hshort => ?_,
    fun text tenant entity now hforged => ?_, fun payload e => OverrideToken.isCodec_of_ofPayload⟩
  · have hissue : ¬(ttl ≤ 0 ∨ a.maxTtlMillis < ttl) :=
      not_or.2 ⟨Int64.not_le.2 hpos, Int64.not_lt.2 hmax⟩
    refine ⟨_, if_neg hissue, fun maxTtl text tenant' entity' now t htext => ?_⟩
    have hexpires := toInt_add_of_fits hpos hfits
    have hlifetime : issued + ttl - issued = ttl := by
      rw [Int64.add_comm, Int64.add_sub_cancel]
    rw [verify_textOf_iff (a := { a with maxTtlMillis := maxTtl }) hshort htext]
    dsimp only [OverrideToken.withoutNegativeZero]
    rw [hlifetime, Int64.lt_iff_toInt_lt, hexpires]
    refine and_congr_right fun _ => ⟨fun ht => ⟨ht, ?_⟩, fun ht => ht.1⟩
    rw [ht]
    exact hexpires
  · cases hverify : a.verify text tenant entity now with
    | error reason => exact ⟨reason, rfl⟩
    | ok t =>
      obtain ⟨payload, ⟨hne, hsmall⟩, -⟩ := verify_eq_ok_iff.1 hverify
      exact absurd hsmall (hforged payload hne)

/-- An authority whose signatures repeat the length of what is signed. -/
def sample : TokenAuthority where
  sign payload := List.replicate signatureLength (UInt8.ofNat payload.length)
  maxTtlMillis := 300000
  length_sign _ := List.length_replicate

/-- The letter in capitals. -/
def capitalLetter (c : UInt8) : UInt8 := if 97 ≤ c.toNat then UInt8.ofNat (c.toNat - 32) else c

/-- A token of which the last millisecond is nearly the last one of all. -/
def sampleToken : OverrideToken :=
  ⟨utf8 "acme", utf8 "c", AttributeSet.empty.set (utf8 "x") (.real .negativeZero),
    9223372036854775000, 9223372036854775800⟩

/-- In capitals, the token is accepted in its last millisecond by an authority whose bound is just
its lifetime, with zero in the place of negative zero. -/
theorem verify_iff_sample :
    ∃ token, sample.issue sampleToken.tenant sampleToken.entity sampleToken.attributes
        sampleToken.issuedAt 800 = .ok token ∧
      token.map capitalLetter ≠ token ∧
      verify { sample with maxTtlMillis := 800 } (token.map capitalLetter) sampleToken.tenant
          sampleToken.entity 9223372036854775799 = .ok sampleToken.withoutNegativeZero ∧
      sampleToken.withoutNegativeZero ≠ sampleToken := by
  obtain ⟨token, hissue, hverify⟩ := (verify_iff sample).1 sampleToken.tenant sampleToken.entity
    sampleToken.attributes sampleToken.issuedAt 800 (by decide) (by decide) (by decide)
    (by decide +kernel)
  have hletters : Bytes.small ((sample.textOf sampleToken).map capitalLetter) =
      sample.textOf sampleToken ∧
        (sample.textOf sampleToken).map capitalLetter ≠ sample.textOf sampleToken := by
    decide +kernel
  obtain rfl : sample.textOf sampleToken = token := Except.ok.inj hissue
  have hcurrent : (sampleToken.tenant = sampleToken.tenant ∧
      sampleToken.entity = sampleToken.entity) ∧ (800 : Int64) ≤ 800 ∧
      Int64.toInt 9223372036854775799 < sampleToken.issuedAt.toInt + Int64.toInt 800 :=
    ⟨⟨rfl, rfl⟩, by decide, by decide⟩
  have haccepted := (hverify 800 _ _ _ _ _ hletters.1).2 ⟨hcurrent, rfl, by decide⟩
  exact ⟨_, hissue, hletters.2, haccepted, by decide⟩

end TokenAuthority
end DecisionEngine
