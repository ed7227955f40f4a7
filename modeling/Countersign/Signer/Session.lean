import Countersign.Signer.Operation
import Countersign.Wallet.Derivation

/-!
# The signer

A `Session` answers the host's events and carries out what the user decides. The host can start a
transaction, send its parts and ask for hashes to be signed; only the user's consent releases a
hash or a signature, and it uses up the operation. Keys are given out only while the session is
unlocked.

An event that is refused for its arguments changes nothing, except that a transaction whose first
data are too long has begun without them; an event that shows the transaction to be bad ends the
operation.
-/

namespace Countersign

/-- The version of the application. -/
def applicationVersion : String := "0.1.0"

/-- The longest chunk of a transaction. -/
def maxChunk : Nat := 255

/-- A signer with its keys. -/
structure Session where
  keys : KeySource
  state : State
  unlocked : Bool
  operation : Operation

namespace Session

/-- A signer that has just been started. -/
def new (keys : KeySource) : Session := ⟨keys, .init, false, .none⟩

/-- The elements for the user to review. -/
def elements (s : Session) : List Element := s.operation.elements

/-- The hash that waits for the user. -/
def pending (s : Session) : Option Offer :=
  match s.state with
  | .pending => s.operation.pending
  | _ => none

/-- The operation is dropped, and this is the state after it. -/
def finish (s : Session) (state : State) : Session := { s with state, operation := .none }

/-- The state and the number of elements. -/
def progress (s : Session) : Reply := .state s.state (UInt16.ofNat s.elements.length)

/-! ## Events of the host -/

/-- Gives the transaction at hand a chunk. -/
def receive (s : Session) (flags : Flags) (chunk : Bytes) : Except Refusal Reply × Session :=
  match s.operation with
  | .review r =>
    if r.flags ≠ flags then (.error .invalidParam, s)
    else if chunk.length > maxChunk then (.error .invalidLength, s)
    else
      match r.push chunk with
      | (.ok true, r) =>
        let s := { s with state := .pending, operation := .review r }
        (.ok s.progress, s)
      | (.ok false, r) =>
        let s := { s with operation := .review r }
        (.ok s.progress, s)
      | (.error e, _) => (.error e, s.finish .error)
  | _ => (.error .invalidState, s)

/-- The address whose outputs are change. -/
def changeAddress (s : Session) (changeIndex : UInt32) : Option Address :=
  if changeIndex = noChange then none
  else some (Address.ofPublicKey (s.keys.publicKey changeIndex))

/-- A transaction is coming in or waits for the user. -/
def isReviewing (s : Session) : Bool :=
  (s.state = .decoding || s.state = .pending) && s.operation.review?.isSome

/-- Answers an event. -/
def handle (s : Session) (event : Event) : Except Refusal Reply × Session :=
  match event with
  | .none => (.ok s.progress, s)
  | .getVersion =>
    match Version.parse? applicationVersion with
    | some v => (.ok (.version v), s)
    | none => (.error .encodingFailed, s)
  | .getPublicKey keyIndex display =>
    if s.unlocked then
      let key := s.keys.publicKey keyIndex
      (.ok (.publicKey key (Address.ofPublicKey key) display), s)
    else (.error .approvalPending, s)
  | .signHash keyIndex hash =>
    if s.state = .decoding then (.error .unexpectedEvent, s)
    else
      let s := { s with state := .pending, operation := .signHash keyIndex hash }
      (.ok s.progress, s)
  | .start keyIndex sigIndex changeIndex flags data =>
    if s.isReviewing then (.error .improperInit, s.finish .error)
    else
      let r := Review.new keyIndex sigIndex (s.changeAddress changeIndex) flags
      receive { s with state := .decoding, operation := .review r } flags data
  | .more flags data =>
    if s.state = .decoding then s.receive flags data
    else (.error .improperInit, s)

/-! ## Actions of the user -/

/-- Allows keys to be given out. -/
def unlock (s : Session) : Session := { s with unlocked := true }

/-- Forbids keys to be given out. -/
def lock (s : Session) : Session := { s with unlocked := false }

/-- Consents to what is pending: gives out the hash, or a signature of it. -/
def approve (s : Session) : Except Refusal Reply × Session :=
  match s.pending with
  | none => (.error .invalidState, s)
  | some p =>
    let reply : Reply :=
      if p.sign then .signature (s.keys.sign p.keyIndex p.hash.bytes) else .hash p.hash
    (.ok reply, s.finish .complete)

/-- Says no to what is pending or coming in. -/
def deny (s : Session) : Session := s.finish .deny

/-- Goes back to the beginning; the lock stays as it is. -/
def reset (s : Session) : Session := s.finish .init

end Session

end Countersign
