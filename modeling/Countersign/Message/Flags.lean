import Countersign.Message.Codec
import Countersign.Txn.Format

/-!
# The flags of a transaction request

Two of the eight bits of a byte have a meaning: whether the hash is to be signed, and which format
the transaction is in.
-/

namespace Countersign

/-- What is to be done with a transaction. -/
structure Flags where
  /-- The hash is to be signed. -/
  sign : Bool
  /-- The transaction is in the second format. -/
  v2 : Bool
deriving DecidableEq

namespace Flags

/-- No flag. -/
def none : Flags := ⟨false, false⟩

/-- The flags as bits. -/
def bits (f : Flags) : UInt8 := (if f.sign then 1 else 0) ||| (if f.v2 then 2 else 0)

/-- The flags among some bits; bits without a meaning are dropped. -/
def truncate (bits : UInt8) : Flags := ⟨bits &&& 1 != 0, bits &&& 2 != 0⟩

/-- The flags with exactly these bits. -/
def ofBits? (bits : UInt8) : Option Flags :=
  if bits &&& 0xfc = 0 then some (truncate bits) else Option.none

/-- The format that the flags select. -/
def format (f : Flags) : Format := if f.v2 then .v2 else .v1

end Flags

instance : Codec Flags where
  size _ := 1
  write f := Print.byte f.bits
  scan := do return Flags.truncate (← Scan.byte)

end Countersign
