import Countersign.Message.Code
import Countersign.Message.Codec
import Countersign.Wallet.Address

/-!
# What the device answers

Every answer has a fixed length. How far a transaction has got is the code of a phase and the
number of elements to review.
-/

namespace Countersign

instance : Codec Phase where
  size _ := 1
  write p := Print.byte p.code
  scan := do
    match Phase.ofCode? (← Scan.byte) with
    | some p => return p
    | none => throw .invalidEncoding

/-- A public key and its address as text in ASCII. -/
structure KeyResponse where
  publicKey : PublicKey
  address : Block 76
deriving DecidableEq

/-- The address as text, if its bytes are text. -/
def KeyResponse.addressText (r : KeyResponse) : Except CodecError String :=
  match String.fromUTF8? (ByteArray.mk r.address.bytes.toArray) with
  | some s => .ok s
  | none => .error .invalidEncoding

instance : Codec KeyResponse where
  size _ := 108
  write r := Print.block r.publicKey |>.followedBy (Print.block r.address)
  scan := do return ⟨← Scan.block 32, ← Scan.block 76⟩

/-- A signature. -/
structure SignatureResponse where
  signature : Signature
deriving DecidableEq

instance : Codec SignatureResponse where
  size _ := 64
  write r := Print.block r.signature
  scan := do return ⟨← Scan.block 64⟩

/-- The hash of a transaction. -/
structure HashResponse where
  hash : Digest
deriving DecidableEq

instance : Codec HashResponse where
  size _ := 32
  write r := Print.block r.hash
  scan := do return ⟨← Scan.block 32⟩

/-- How far a transaction has got. -/
structure Progress where
  phase : Phase
  elements : UInt16
deriving DecidableEq

instance : Codec Progress where
  size _ := 3
  write r := (Codec.write r.phase : Print).followedBy (Print.half r.elements)
  scan := do return ⟨← Codec.scan, ← Scan.half⟩

end Countersign
