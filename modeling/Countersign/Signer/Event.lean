import Countersign.Message.Request
import Countersign.Signer.Refusal

/-!
# Events

An event is what the host wants of the signer. It is read from the instruction, the two parameters
and the payload of a request; the parameters are looked at before the payload.
-/

namespace Countersign

/-- What of a key the user compares with the host's screen. -/
inductive KeyView where
  | address
  | publicKey
deriving DecidableEq

namespace KeyView

/-- The name of what is compared. -/
def name : KeyView → String
  | address => "Address"
  | publicKey => "PublicKey"

/-- The second parameter that asks for it. -/
def code : KeyView → UInt8
  | address => 0
  | publicKey => 1

/-- What a second parameter asks for. -/
def ofCode? (c : UInt8) : Option KeyView := [address, publicKey].find? (·.code = c)

end KeyView

/-- What the host wants. -/
inductive Event where
  /-- Nothing but the state of the signer. -/
  | none
  /-- The version of the application. -/
  | getVersion
  /-- A public key and its address. -/
  | getPublicKey (keyIndex : UInt32) (display : KeyView)
  /-- A signature of a hash. -/
  | signHash (keyIndex : UInt32) (hash : Digest)
  /-- The start of a transaction. -/
  | start (keyIndex : UInt32) (sigIndex : UInt16) (changeIndex : UInt32) (flags : Flags)
      (data : Bytes)
  /-- More of a transaction. -/
  | more (flags : Flags) (data : Bytes)
deriving DecidableEq

namespace Event

/-- The message that a payload begins with. -/
def payload (α : Type) [Codec α] (bs : Bytes) : Except Refusal α :=
  match (Codec.decode bs : Except CodecError (α × Nat)) with
  | .ok (a, _) => .ok a
  | .error _ => .error .invalidLength

/-- The event of a request for a key. -/
def ofKeyRequest (display : KeyView) (r : KeyRequest) : Event := .getPublicKey r.keyIndex display

/-- The event of a request for a signature of a hash. -/
def ofHashRequest (r : HashRequest) : Event := .signHash r.keyIndex r.hash

/-- The event of the start of a transaction, with the flags of the header. -/
def ofStart (flags : Flags) (r : TransactionStart) : Event :=
  .start r.keyIndex r.sigIndex r.changeIndex flags r.data

/-- The event of a further part of a transaction, with the flags of the header. -/
def ofPart (flags : Flags) (r : TransactionPart) : Event := .more flags r.data

/-- The event of a request. -/
def parse (ins p1 p2 : UInt8) (bs : Bytes) : Except Refusal Event :=
  match Instruction.ofCode? ins with
  | .none => .error .notSupported
  | some .getVersion => (payload VersionRequest bs).map fun _ => .getVersion
  | some .getPublicKey =>
    match KeyView.ofCode? p2 with
    | .none => .error .invalidParam
    | some display => (payload KeyRequest bs).map (ofKeyRequest display)
  | some .signHash => (payload HashRequest bs).map ofHashRequest
  | some .hashTransaction =>
    match Flags.ofBits? p2 with
    | .none => .error .invalidParam
    | some flags =>
      if p1 = firstPart then (payload TransactionStart bs).map (ofStart flags)
      else if p1 = furtherPart then (payload TransactionPart bs).map (ofPart flags)
      else .error .invalidParam

end Event

end Countersign
