import Countersign.Hash.Sha512
import Countersign.Curve.Edwards

/-!
# Ed25519 keys and signatures

A 32-byte seed is hashed to 64 bytes: the first half, with some bits fixed, is the secret scalar,
and the second half makes the nonces. A nonce is a hash of that half and of the message, so a
signature is a function of the seed and the message alone.
-/

namespace Countersign

/-- A secret seed of a signing key. -/
abbrev Seed := Block 32

/-- An encoded public key. -/
abbrev PublicKey := Block 32

/-- A signature: an encoded point and a scalar. -/
abbrev Signature := Block 64

namespace Ed25519

/-- The secret scalar: the three low bits clear, bit 254 set, bit 255 clear. -/
def scalar (seed : Seed) : Nat :=
  let v := ofLittleEndian ((Sha512.digest seed.bytes).bytes.take 32)
  (v % Nat.pow 2 254) / 8 * 8 + Nat.pow 2 254

/-- The bytes that nonces are made from. -/
def nonceKey (seed : Seed) : Bytes := (Sha512.digest seed.bytes).bytes.drop 32

/-- The public key of a seed. -/
def publicKey (seed : Seed) : PublicKey := (Edwards.base.times (scalar seed)).encode

/-- A hash as a scalar. -/
def hashScalar (bs : Bytes) : Nat := ofLittleEndian (Sha512.digest bs).bytes % Edwards.order

/-- The signature of a message under the key of a seed. -/
def sign (seed : Seed) (message : Bytes) : Signature :=
  let nonce := hashScalar (nonceKey seed ++ message)
  let commitment := (Edwards.base.times nonce).encode
  let challenge := hashScalar (commitment.bytes ++ (publicKey seed).bytes ++ message)
  let response := (nonce + challenge * scalar seed) % Edwards.order
  ⟨commitment.bytes ++ littleEndian 32 response, by simp⟩

end Ed25519

end Countersign
