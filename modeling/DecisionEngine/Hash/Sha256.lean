import DecisionEngine.Bytes
/-!
# SHA-256

The hash is computed over blocks of sixteen words. A block is extended to sixty-four words, each
of which is mixed into a state of eight words with a constant of its own; the state at the end of a
block is added to the one at its start. A digest has 32 bytes (`length_hash`).
-/

namespace DecisionEngine
namespace Sha256

/-! ## Words -/

/-- A word turned to the right. -/
def rotate (x : UInt32) (by_ : UInt32) : UInt32 := (x >>> by_) ||| (x <<< (32 - by_))

/-- The word of four bytes, the most significant first. -/
def wordOf (a b c d : UInt8) : UInt32 :=
  (a.toUInt32 <<< 24) ||| (b.toUInt32 <<< 16) ||| (c.toUInt32 <<< 8) ||| d.toUInt32

/-- The bytes of a word, the most significant first. -/
def bytesOf (w : UInt32) : Bytes :=
  [(w >>> 24).toUInt8, (w >>> 16).toUInt8, (w >>> 8).toUInt8, w.toUInt8]

/-- The words of a byte string whose length is a multiple of four. -/
def words : Bytes → List UInt32
  | a :: b :: c :: d :: rest => wordOf a b c d :: words rest
  | _ => []

/-! ## Padding -/

/-- The bytes that are hashed: the message, a single set bit, zeros, and the number of bits of the
message in eight bytes. -/
def padded (message : Bytes) : Bytes :=
  message ++ [0x80] ++ List.replicate ((119 - message.length % 64) % 64) 0 ++
    Bytes.bigEndian (UInt64.ofNat (8 * message.length))

/-! ## The schedule of a block -/

/-- The word that follows the given ones; the latest comes first. -/
def nextWord (latest : List UInt32) : UInt32 :=
  let w (back : Nat) : UInt32 := latest.getD (back - 1) 0
  let s0 := rotate (w 15) 7 ^^^ rotate (w 15) 18 ^^^ (w 15 >>> 3)
  let s1 := rotate (w 2) 17 ^^^ rotate (w 2) 19 ^^^ (w 2 >>> 10)
  w 16 + s0 + w 7 + s1

/-- More words behind the given ones; the latest comes first. -/
def extended : Nat → List UInt32 → List UInt32
  | 0, latest => latest
  | n + 1, latest => extended n (nextWord latest :: latest)

/-- The sixty-four words of a block of sixteen. -/
def schedule (block : List UInt32) : List UInt32 := (extended 48 block.reverse).reverse

/-! ## Compression -/

/-- The state of a hash. -/
structure State where
  a : UInt32
  b : UInt32
  c : UInt32
  d : UInt32
  e : UInt32
  f : UInt32
  g : UInt32
  h : UInt32

namespace State

/-- The state a hash starts from. -/
def start : State :=
  ⟨0x6a09e667, 0xbb67ae85, 0x3c6ef372, 0xa54ff53a, 0x510e527f, 0x9b05688c, 0x1f83d9ab,
    0x5be0cd19⟩

/-- Both states, word by word. -/
def plus (s t : State) : State :=
  ⟨s.a + t.a, s.b + t.b, s.c + t.c, s.d + t.d, s.e + t.e, s.f + t.f, s.g + t.g, s.h + t.h⟩

/-- A word of the schedule is mixed in with its constant. -/
def round (s : State) (constant word : UInt32) : State :=
  let sum1 := rotate s.e 6 ^^^ rotate s.e 11 ^^^ rotate s.e 25
  let choice := (s.e &&& s.f) ^^^ ((~~~ s.e) &&& s.g)
  let t1 := s.h + sum1 + choice + constant + word
  let sum0 := rotate s.a 2 ^^^ rotate s.a 13 ^^^ rotate s.a 22
  let majority := (s.a &&& s.b) ^^^ (s.a &&& s.c) ^^^ (s.b &&& s.c)
  ⟨t1 + (sum0 + majority), s.a, s.b, s.c, s.d + t1, s.e, s.f, s.g⟩

/-- The bytes of a state. -/
def toBytes (s : State) : Bytes := [s.a, s.b, s.c, s.d, s.e, s.f, s.g, s.h].flatMap bytesOf

theorem length_toBytes (s : State) : s.toBytes.length = 32 := rfl

end State

/-- The constants of the rounds. -/
def constants : List UInt32 :=
  [0x428a2f98, 0x71374491, 0xb5c0fbcf, 0xe9b5dba5, 0x3956c25b, 0x59f111f1, 0x923f82a4, 0xab1c5ed5,
    0xd807aa98, 0x12835b01, 0x243185be, 0x550c7dc3, 0x72be5d74, 0x80deb1fe, 0x9bdc06a7, 0xc19bf174,
    0xe49b69c1, 0xefbe4786, 0x0fc19dc6, 0x240ca1cc, 0x2de92c6f, 0x4a7484aa, 0x5cb0a9dc, 0x76f988da,
    0x983e5152, 0xa831c66d, 0xb00327c8, 0xbf597fc7, 0xc6e00bf3, 0xd5a79147, 0x06ca6351, 0x14292967,
    0x27b70a85, 0x2e1b2138, 0x4d2c6dfc, 0x53380d13, 0x650a7354, 0x766a0abb, 0x81c2c92e, 0x92722c85,
    0xa2bfe8a1, 0xa81a664b, 0xc24b8b70, 0xc76c51a3, 0xd192e819, 0xd6990624, 0xf40e3585, 0x106aa070,
    0x19a4c116, 0x1e376c08, 0x2748774c, 0x34b0bcb5, 0x391c0cb3, 0x4ed8aa4a, 0x5b9cca4f, 0x682e6ff3,
    0x748f82ee, 0x78a5636f, 0x84c87814, 0x8cc70208, 0x90befffa, 0xa4506ceb, 0xbef9a3f7, 0xc67178f2]

/-- A block is mixed into a state. -/
def compress (s : State) (block : List UInt32) : State :=
  s.plus ((constants.zip (schedule block)).foldl (fun t p => t.round p.1 p.2) s)

/-- Blocks of sixteen words are mixed into a state one after another. -/
def compressAll (s : State) (ws : List UInt32) : State :=
  if _enough : 16 ≤ ws.length then compressAll (compress s (ws.take 16)) (ws.drop 16) else s
termination_by ws.length
decreasing_by simp only [List.length_drop]; omega

/-- The digest of a message. -/
def hash (message : Bytes) : Bytes := (compressAll .start (words (padded message))).toBytes

theorem length_hash (message : Bytes) : (hash message).length = 32 := State.length_toBytes _

end Sha256

/-! ## Message authentication -/

namespace Hmac

/-- The number of bytes of a block. -/
def blockLength : Nat := 64

/-- The key of one block that a secret gives; a secret that is longer is hashed. -/
def blockKey (secret : Bytes) : Bytes :=
  let key := if blockLength < secret.length then Sha256.hash secret else secret
  key ++ List.replicate (blockLength - key.length) 0

/-- The authentication code of a message under a secret. -/
def code (secret message : Bytes) : Bytes :=
  let key := blockKey secret
  Sha256.hash (key.map (· ^^^ 0x5c) ++ Sha256.hash (key.map (· ^^^ 0x36) ++ message))

theorem length_code (secret message : Bytes) : (code secret message).length = 32 :=
  Sha256.length_hash _

end Hmac
end DecisionEngine
