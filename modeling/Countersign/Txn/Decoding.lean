import Countersign.Txn.Schedule

/-!
# Decodings that come to a hash

A decoding is all that happened to a decoder, from the first byte to the hash: chunks, some of which
may have been refused, and requests for the next finding, in any order and number. What matters of
it is the stream of the bytes that were taken, the bytes that went into the hash, the elements that
were shown, and the hash.
-/

namespace Countersign

/-- The bytes that a decoder takes: the chunks that are not refused, one after the other. -/
def Decoder.accepted {S : Type} [Layout S] (d : Decoder S) : List Call → Bytes
  | [] => []
  | .push chunk :: cs =>
    match d.push chunk with
    | .ok d' => chunk ++ d'.accepted cs
    | .error _ => d.accepted cs
  | .next :: cs => d.next.2.accepted cs

/-- The calls that bring a new decoder to a hash. -/
structure Decoding (S : Type) [Layout S] where
  sigIndex : UInt16
  change : Option Address
  calls : List Call
  hash : Digest
  finished : lastFinding ((Decoder.new sigIndex change : Decoder S).observe calls).1 =
    some (.ok (.finished hash))

namespace Decoding

variable {S : Type} [Layout S]

/-- The decoder ahead of the first byte. -/
def decoder (x : Decoding S) : Decoder S := Decoder.new x.sigIndex x.change

/-- The bytes that were taken. -/
def stream (x : Decoding S) : Bytes := x.decoder.accepted x.calls

/-- The bytes that went into the hash. -/
def absorbed (x : Decoding S) : Bytes := (x.decoder.observe x.calls).2.transcript.bytes

/-- The elements that were shown. -/
def elements (x : Decoding S) : List Element := elementsSeen (x.decoder.observe x.calls).1

end Decoding

end Countersign
