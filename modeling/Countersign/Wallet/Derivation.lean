import Countersign.Curve.Signature

/-!
# Key derivation

Every key of the wallet is named by a 32-bit index and found at the path `44'/93'/index'/0'/0'` of
a tree of seeds, all of whose steps are hardened. What holds the tree is a `KeySource`: a function
from paths to seeds. `KeySource.ofMaster` is the tree of SLIP-0010 for Ed25519; nothing else in the
library depends on it.
-/

namespace Countersign

/-- A path in the tree of keys, one number for each step. -/
abbrev Path := List UInt32

/-- The flag of a hardened step. -/
def hardened : UInt32 := 0x80000000

/-- The coin type registered for siacoins. -/
def coinType : UInt32 := 93

/-- The path of the key with this index. -/
def derivationPath (index : UInt32) : Path :=
  [44 ||| hardened, coinType ||| hardened, index ||| hardened, hardened, hardened]

/-- A holder of secret seeds, one for each path. -/
structure KeySource where
  seedAt : Path → Seed

namespace KeySource

/-- The public key with this index. -/
def publicKey (keys : KeySource) (index : UInt32) : PublicKey :=
  Ed25519.publicKey (keys.seedAt (derivationPath index))

/-- The signature of a message under the key with this index. -/
def sign (keys : KeySource) (index : UInt32) (message : Bytes) : Signature :=
  Ed25519.sign (keys.seedAt (derivationPath index)) message

/-! ## The tree of SLIP-0010 -/

/-- The node of the tree above all paths: a seed and, after it, a chain code. -/
def root (master : Bytes) : Block 64 :=
  Sha512.keyedDigest (asciiBytes "ed25519 seed".toList) master

/-- The child of a node at a step, which is always hardened. -/
def child (node : Block 64) (step : UInt32) : Block 64 :=
  Sha512.keyedDigest (node.bytes.drop 32)
    (0 :: node.bytes.take 32 ++ bigEndian 4 (step ||| hardened).toNat)

/-- The keys that grow from a master seed. -/
def ofMaster (master : Bytes) : KeySource :=
  ⟨fun path => ⟨(path.foldl child (root master)).bytes.take 32, by simp⟩⟩

end KeySource

end Countersign
