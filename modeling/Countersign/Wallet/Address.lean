import Countersign.Hash.Blake2b
import Countersign.Curve.Signature

/-!
# Addresses

An address is the root hash of the conditions that unlock an output. The standard conditions ask for
one signature by one key, with no timelock; their Merkle tree has three leaves,

  `node (node timelock key) required`,

where the bytes under a leaf follow a zero byte and the children of a node a one byte, so that no
leaf is a node. An address is shown as 64 hexadecimal digits and 12 more for the checksum.
-/

namespace Countersign

/-- The root hash of the conditions that unlock an output. -/
structure Address where
  hash : Digest
deriving DecidableEq

/-! ## The Merkle tree of the unlock conditions -/

/-- The hash of a leaf. -/
def merkleLeaf (content : Bytes) : Digest := Blake2b.digest (0 :: content)

/-- The hash of an inner node. -/
def merkleNode (left right : Digest) : Digest :=
  Blake2b.digest (1 :: (left.bytes ++ right.bytes))

/-- The name of the signature scheme as 16 bytes. -/
def keyAlgorithm : Bytes := asciiBytes "ed25519".toList ++ List.replicate 9 0

/-- The root hash for one key, one required signature and no timelock. -/
def conditionsRoot (key : PublicKey) : Digest :=
  let timelock := merkleLeaf (bytesOfWord 0)
  let publicKey := merkleLeaf (keyAlgorithm ++ bytesOfWord 32 ++ key.bytes)
  let required := merkleLeaf (bytesOfWord 1)
  merkleNode (merkleNode timelock publicKey) required

/-! ## Addresses and their text -/

namespace Address

/-- The standard address of a public key. -/
def ofPublicKey (key : PublicKey) : Address := ⟨conditionsRoot key⟩

/-- The number of bytes of a checksum. -/
def checksumLength : Nat := 6

/-- The number of characters of an address as text. -/
def textLength : Nat := 76

/-- The first six bytes of the hash of the address. -/
def checksum (a : Address) : Bytes := (Blake2b.digest a.hash.bytes).bytes.take checksumLength

@[simp] theorem length_checksum (a : Address) : a.checksum.length = 6 := by
  simp [checksum, checksumLength]

/-- The hexadecimal digits of the hash and of the checksum. -/
def digits (a : Address) : List Char := hexDigits (a.hash.bytes ++ a.checksum)

@[simp] theorem length_digits (a : Address) : a.digits.length = 76 := by
  simp [digits]

/-- The address as text. -/
def text (a : Address) : String := String.ofList a.digits

/-- The address as ASCII text in bytes. -/
def textBytes (a : Address) : Block 76 := ⟨asciiBytes a.digits, by simp⟩

end Address

end Countersign
