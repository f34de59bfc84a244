import DecisionEngine.Hash.Sha256
import DecisionEngine.Wire.Reader
/-!
# Override tokens

An override token carries attributes that replace those of an entity for a limited time. It is
issued for one entity of one tenant and signed, so that a request can bring it along: its text is
the payload and the signature behind it in hexadecimal digits.

* `TokenAuthority`: signs with any function that yields 32 bytes; `TokenAuthority.ofSecret?` is the
  one that signs with a secret.
* `TokenAuthority.issue`, `TokenAuthority.verify`: the two ends of a token's way.
-/

namespace DecisionEngine

/-- What a token says. -/
structure OverrideToken where
  tenant : Bytes
  entity : Bytes
  attributes : AttributeSet
  issuedAt : Int64
  expiresAt : Int64
  deriving DecidableEq

namespace OverrideToken

/-- The bytes that are signed. -/
def payload (t : OverrideToken) : Bytes :=
  Wire.header ++ Wire.functionHead (utf8 "OverrideToken") 5 ++ Wire.text t.tenant ++
    Wire.text t.entity ++ Wire.attributes t.attributes ++ Wire.int t.issuedAt ++
    Wire.int t.expiresAt

open Wire (Reader)

/-- The token that signed bytes say. -/
def ofPayload (bytes : Bytes) : Except Wire.Error OverrideToken :=
  Reader.run (do
    Reader.header
    let _ ← Reader.function (utf8 "OverrideToken")
    let tenant ← Reader.text
    let entity ← Reader.text
    let attributes ← Reader.attributes
    let issuedAt ← Reader.int
    let expiresAt ← Reader.int
    Reader.finish "token"
    return ⟨tenant, entity, attributes, issuedAt, expiresAt⟩) bytes

end OverrideToken

/-! ## Authorities -/

/-- The number of bytes of a signature. -/
def signatureLength : Nat := 32

/-- Issues and verifies tokens. -/
structure TokenAuthority where
  sign : Bytes → Bytes
  maxTtlMillis : Int64
  length_sign : ∀ payload, (sign payload).length = signatureLength

/-- Why there is no authority, or no token. -/
inductive TokenError
  | emptySecret
  | lifetime (maxTtlMillis : Int64)
  deriving DecidableEq

/-- The wording of the reason. -/
def TokenError.message : TokenError → Bytes
  | emptySecret => utf8 "Override token secret must not be empty"
  | lifetime max =>
    utf8 "Override token ttl must be positive and at most " ++ Bytes.signedDecimal max.toInt ++
      utf8 "ms"

/-- Why a token is not accepted. -/
inductive TokenRejection
  | malformed
  | badSignature
  | issuedFor (tenant entity : Bytes)
  | lifetimeTooLong
  | expired
  deriving DecidableEq

/-- The wording of the reason. -/
def TokenRejection.message : TokenRejection → Bytes
  | malformed => utf8 "malformed token"
  | badSignature => utf8 "bad signature"
  | issuedFor tenant entity => utf8 "token was issued for " ++ tenant ++ utf8 "/" ++ entity
  | lifetimeTooLong => utf8 "token lifetime exceeds the maximum"
  | expired => utf8 "token expired"

namespace TokenAuthority

/-- The authority that signs with a secret. -/
def ofSecret? (secret : Bytes) (maxTtlMillis : Int64) : Except TokenError TokenAuthority :=
  if secret = [] then .error .emptySecret
  else .ok ⟨Hmac.code secret, maxTtlMillis, Hmac.length_code secret⟩

/-- The text of a token. -/
def textOf (a : TokenAuthority) (t : OverrideToken) : Bytes :=
  Bytes.hex (t.payload ++ a.sign t.payload)

/-- A token for an entity, valid from `now` on for `ttlMillis` milliseconds. -/
def issue (a : TokenAuthority) (tenant entity : Bytes) (attributes : AttributeSet)
    (now ttlMillis : Int64) : Except TokenError Bytes :=
  if ttlMillis ≤ 0 ∨ a.maxTtlMillis < ttlMillis then .error (.lifetime a.maxTtlMillis)
  else .ok (a.textOf ⟨tenant, entity, attributes, now, now + ttlMillis⟩)

/-- The payload of a token text whose signature is right. -/
def signedPayload (a : TokenAuthority) (text : Bytes) : Except TokenRejection Bytes :=
  match Bytes.unhex? text with
  | none => .error .malformed
  | some bytes =>
    if bytes.length ≤ signatureLength then .error .malformed
    else
      let payload := bytes.take (bytes.length - signatureLength)
      if a.sign payload = bytes.drop (bytes.length - signatureLength) then .ok payload
      else .error .badSignature

/-- The token that a text is, if it is genuine, for the entity, and valid at the moment. -/
def verify (a : TokenAuthority) (text tenant entity : Bytes) (now : Int64) :
    Except TokenRejection OverrideToken := do
  let payload ← a.signedPayload text
  let token ← (OverrideToken.ofPayload payload).mapError fun _ => .malformed
  if token.tenant ≠ tenant ∨ token.entity ≠ entity then
    throw (.issuedFor token.tenant token.entity)
  else if a.maxTtlMillis < token.expiresAt - token.issuedAt then throw .lifetimeTooLong
  else if token.expiresAt ≤ now then throw .expired
  else return token

end TokenAuthority
end DecisionEngine
