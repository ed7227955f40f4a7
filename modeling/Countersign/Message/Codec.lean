import Countersign.Bytes

/-!
# Messages as bytes

A message of type `α` is written to the front of a buffer and read from the front of a byte string,
both field by field. A `Print` writes to a buffer, and each field goes behind the fields that are
there already; a `Scan` takes the bytes of each field off the front of what is left. Each field
looks for itself whether there is room for it, or whether its bytes are there.
-/

namespace Countersign

/-- Why a message cannot be written or read. -/
inductive CodecError where
  /-- Too few bytes. -/
  | invalidLength
  /-- Bytes that are not text where text should be. -/
  | invalidUtf8
  /-- Bytes that stand for nothing. -/
  | invalidEncoding
deriving DecidableEq

namespace CodecError

/-- The name of an error. -/
def name : CodecError → String
  | invalidLength => "InvalidLength"
  | invalidUtf8 => "InvalidUtf8"
  | invalidEncoding => "InvalidEncoding"

/-- The text of an error. -/
def message : CodecError → String
  | invalidLength => "Invalid buffer length"
  | invalidUtf8 => "Invalid Utf8 string encoding"
  | invalidEncoding => "Invalid APDU encoding"

end CodecError

/-! ## Writing field by field -/

/-- Writes to the front of a buffer; gives the number of bytes written and the buffer. -/
abbrev Print := Bytes → Except CodecError (Nat × Bytes)

namespace Print

/-- Nothing at all. -/
def nothing : Print := fun buffer => .ok (0, buffer)

/-- These bytes, if there is room for them. -/
def bytes (bs : Bytes) : Print := fun buffer =>
  if buffer.length < bs.length then .error .invalidLength
  else .ok (bs.length, bs ++ buffer.drop bs.length)

/-- One thing, and another behind it. -/
def followedBy (p q : Print) : Print := fun buffer => do
  let (n, buffer) ← p buffer
  let (m, behind) ← q (buffer.drop n)
  return (n + m, buffer.take n ++ behind)

/-- A thing for which there must be room for `n` bytes from the start. -/
def within (n : Nat) (p : Print) : Print := fun buffer =>
  if buffer.length < n then .error .invalidLength else p buffer

/-- A byte string of a fixed length. -/
def block {n : Nat} (b : Block n) : Print := bytes b.bytes

/-- A number of one byte. -/
def byte (v : UInt8) : Print := bytes [v]

/-- A number of two bytes, least significant byte first. -/
def half (v : UInt16) : Print := bytes (littleEndian 2 v.toNat)

/-- A number of four bytes, least significant byte first. -/
def quarter (v : UInt32) : Print := bytes (littleEndian 4 v.toNat)

end Print

/-! ## Reading field by field -/

/-- Reads an `α` from the front of the bytes that are left. -/
abbrev Scan (α : Type) := StateT Bytes (Except CodecError) α

namespace Scan

/-- The next `n` bytes. -/
def block (n : Nat) : Scan (Block n) := fun bs =>
  if h : n ≤ bs.length then .ok (⟨bs.take n, List.length_take_of_le h⟩, bs.drop n)
  else .error .invalidLength

/-- The number in the next `n` bytes, least significant byte first. -/
def number (n : Nat) : Scan Nat := do
  let b ← block n
  return ofLittleEndian b.bytes

/-- A number of one byte. -/
def byte : Scan UInt8 := do return UInt8.ofNat (← number 1)

/-- A number of two bytes. -/
def half : Scan UInt16 := do return UInt16.ofNat (← number 2)

/-- A number of four bytes. -/
def quarter : Scan UInt32 := do return UInt32.ofNat (← number 4)

/-- All bytes that are left. -/
def rest : Scan Bytes := fun bs => .ok (bs, [])

end Scan

/-! ## Messages -/

/-- A message type, with how its messages are written and read. -/
class Codec (α : Type) where
  /-- The number of bytes that a message takes. -/
  size : α → Nat
  /-- Writes a message to the front of a buffer. -/
  write : α → Print
  /-- Reads a message from the front. -/
  scan : Scan α

namespace Codec

variable {α : Type} [Codec α]

/-- Reads a message from the front; gives the message and the number of bytes it took. -/
def decode (bs : Bytes) : Except CodecError (α × Nat) :=
  (scan.run bs).map fun (a, left) => (a, bs.length - left.length)

end Codec

end Countersign
