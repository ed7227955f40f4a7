import Countersign.Message.Code
import Countersign.Message.Codec
import Countersign.Message.Flags

/-!
# What the host sends

A request has a header of four bytes, the class, the instruction and two parameters, and a
payload. The flags of a transaction travel in the second parameter; read from a payload alone,
they are empty.
-/

namespace Countersign

/-- The class of all requests. -/
def requestClass : UInt8 := 0xe0

/-- The most bytes of a payload. -/
def maxPayload : Nat := 255

/-- The first parameter of the first part of a transaction. -/
def firstPart : UInt8 := 0x00

/-- The first parameter of every further part of a transaction. -/
def furtherPart : UInt8 := 0x80

/-- The change index that stands for no change address. -/
def noChange : UInt32 := 0xffffffff

/-- A message that is sent with an instruction and two parameters. -/
class Request (α : Type) extends Codec α where
  instruction : Instruction
  p1 : α → UInt8 := fun _ => 0
  p2 : α → UInt8 := fun _ => 0

/-- The four bytes ahead of a payload. -/
def Request.header {α : Type} [Request α] (a : α) : Bytes :=
  [requestClass, (instruction α).code, p1 a, p2 a]

/-- Asks for the version. -/
structure VersionRequest where
deriving DecidableEq

instance : Request VersionRequest where
  size _ := 0
  write _ := Print.nothing
  scan := pure {}
  instruction := .getVersion

/-- Asks for a public key. -/
structure KeyRequest where
  keyIndex : UInt32
deriving DecidableEq

instance : Request KeyRequest where
  size _ := 4
  write r := Print.quarter r.keyIndex
  scan := do return ⟨← Scan.quarter⟩
  instruction := .getPublicKey

/-- Asks for a signature of a hash. -/
structure HashRequest where
  keyIndex : UInt32
  hash : Digest
deriving DecidableEq

instance : Request HashRequest where
  size _ := 36
  write r := Print.quarter r.keyIndex |>.followedBy (Print.block r.hash)
  scan := do return ⟨← Scan.quarter, ← Scan.block 32⟩
  instruction := .signHash

/-- Starts a transaction and brings its first bytes. -/
structure TransactionStart where
  flags : Flags
  keyIndex : UInt32
  sigIndex : UInt16
  changeIndex : UInt32
  data : Bytes
deriving DecidableEq

/-- The bytes of a transaction's start that are not data. -/
def TransactionStart.headerLength : Nat := 10

instance : Request TransactionStart where
  size r := TransactionStart.headerLength + r.data.length
  write r := Print.within (TransactionStart.headerLength + r.data.length)
    (Print.quarter r.keyIndex |>.followedBy (Print.half r.sigIndex)
      |>.followedBy (Print.quarter r.changeIndex) |>.followedBy (Print.bytes r.data))
  scan := do
    return ⟨Flags.none, ← Scan.quarter, ← Scan.half, ← Scan.quarter, ← Scan.rest⟩
  instruction := .hashTransaction
  p1 _ := firstPart
  p2 r := r.flags.bits

/-- Brings further bytes of a transaction. -/
structure TransactionPart where
  flags : Flags
  data : Bytes
deriving DecidableEq

instance : Request TransactionPart where
  size r := r.data.length
  write r := Print.bytes r.data
  scan := do return ⟨Flags.none, ← Scan.rest⟩
  instruction := .hashTransaction
  p1 _ := furtherPart
  p2 r := r.flags.bits

end Countersign
