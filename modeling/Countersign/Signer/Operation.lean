import Countersign.Signer.Reply
import Countersign.Txn.Format

/-!
# The operation at hand

The signer works on one thing at a time: a transaction that streams in, or a hash that the host
gives. A transaction is kept with its decoder and with the elements found so far, of which there
can be 64. The hash that comes out is what waits for the user, together with the key and whether
it is to be signed.
-/

namespace Countersign

/-- The most elements that can be reviewed. -/
def maxElements : Nat := 64

/-- A hash that waits for the user. -/
structure Offer where
  keyIndex : UInt32
  hash : Digest
  /-- The hash is to be signed, and not only to be given out. -/
  sign : Bool
deriving DecidableEq

/-! ## A transaction under review -/

/-- A transaction that streams in. -/
structure Review where
  decoder : AnyDecoder
  elements : List Element
  keyIndex : UInt32
  flags : Flags
  hash : Option Digest

namespace Review

/-- A transaction before its first byte. -/
def new (keyIndex : UInt32) (sigIndex : UInt16) (change : Option Address) (flags : Flags) :
    Review :=
  ⟨AnyDecoder.new flags.format sigIndex change, [], keyIndex, flags, none⟩

/-- Takes the elements that are complete: `true` at the end of the transaction, `false` when more
data is needed. An element for which there is no room is lost to the review. -/
def drain (r : Review) : Except Refusal Bool × Review :=
  match _h : r.decoder.next with
  | (.error e, decoder) => (.error (.decode e), { r with decoder })
  | (.ok .needsMore, decoder) => (.ok false, { r with decoder })
  | (.ok (.finished hash), decoder) => (.ok true, { r with decoder, hash := some hash })
  | (.ok (.element e), decoder) =>
    if r.elements.length < maxElements then
      drain { r with decoder, elements := r.elements ++ [e] }
    else (.error .tooManyElements, { r with decoder })
termination_by r.decoder.measure
decreasing_by exact AnyDecoder.measure_next _h

/-- Receives a chunk and takes the elements that it completes. -/
def push (r : Review) (chunk : Bytes) : Except Refusal Bool × Review :=
  match r.decoder.push chunk with
  | .error e => (.error (.decode e), r)
  | .ok decoder => drain { r with decoder }

end Review

/-! ## Operations -/

/-- What the signer is working on. -/
inductive Operation where
  | none
  | review (r : Review)
  | signHash (keyIndex : UInt32) (hash : Digest)

namespace Operation

/-- The transaction under review. -/
def review? : Operation → Option Review
  | review r => some r
  | _ => Option.none

/-- The elements found so far. -/
def elements (o : Operation) : List Element :=
  match o with
  | review r => r.elements
  | _ => []

/-- The hash that waits for the user. -/
def pending : Operation → Option Offer
  | none => Option.none
  | review r => r.hash.map fun hash => ⟨r.keyIndex, hash, r.flags.sign⟩
  | signHash keyIndex hash => some ⟨keyIndex, hash, true⟩

end Operation

end Countersign
