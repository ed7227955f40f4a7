import Countersign.Txn.Decoding
import Countersign.Txn.Queue

/-!
# The parts of a transaction

A decoder takes a transaction apart into headers and entries. A `Part` is one of them that has been
decoded, with its place and its bytes, and `Decoder.parts` lists those that are completed in a
sequence of calls. The bytes of a part are those by which the buffer got shorter when it was
completed.

What a signature covers of a part depends on nothing but its place in the first format, and on
nothing at all in the second.
-/

namespace Countersign

/-- Where a part stands: ahead of a section, or with some number among its entries. -/
inductive Spot (S : Type) where
  | header (s : S)
  | entry (s : S) (k : UInt64)
deriving DecidableEq

/-- A header or an entry that has been decoded. -/
structure Part (S : Type) where
  spot : Spot S
  bytes : Bytes
deriving DecidableEq

/-- What a signature covers of a part: all of it, with the replay byte ahead of an input; but
nothing of the number of signatures, and of the signatures the first 48 bytes of the wanted one. -/
def V1.coveredOf (sigIndex : UInt16) (p : Part V1.Section) : Bytes :=
  match p.spot with
  | .header .signatures => []
  | .header _ => p.bytes
  | .entry .siacoinInputs _ | .entry .siafundInputs _ => Transcript.replayByteV1 :: p.bytes
  | .entry .signatures k => if k.toNat = sigIndex.toNat then p.bytes.take 48 else []
  | .entry _ _ => p.bytes

/-- What a signature covers of a part: all of it. -/
def V2.coveredOf (p : Part V2.Section) : Bytes := p.bytes

namespace Decoder

variable {S : Type} [Layout S]

/-- The part that a decoder has completed when it has become `d'` in one step. -/
def partTo (d d' : Decoder S) : Part S :=
  ⟨if d.index = d.count then .header d'.place else .entry d.place d.index,
   d.buffer.queue.bytes.take (d.buffer.length - d'.buffer.length)⟩

/-- The parts that are completed when the next finding is asked for. -/
def partsOfNext (d : Decoder S) : List (Part S) :=
  match d.outcome with
  | some _ => []
  | none =>
    match _h : d.step with
    | .hidden d' => d.partTo d' :: partsOfNext d'
    | .shows _ d' => [d.partTo d']
    | .ends _ _ | .waits | .fails _ => []
termination_by d.measure
decreasing_by exact measure_step (by rw [_h]; rfl)

/-- The parts that are completed by a call. -/
def partsOfCall (d : Decoder S) : Call → List (Part S)
  | .push _ => []
  | .next => d.partsOfNext

/-- The parts that are completed in a sequence of calls, in order. -/
def parts (d : Decoder S) : List Call → List (Part S)
  | [] => []
  | c :: cs => d.partsOfCall c ++ (d.call c).2.parts cs

end Decoder

end Countersign
