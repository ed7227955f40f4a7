import Countersign.Txn.Decoder
import Countersign.Txn.V1
import Countersign.Txn.V2

/-!
# Either format

A transaction is in one of two formats, fixed when decoding starts. `AnyDecoder` is the decoder of
either; each of its operations is that of the decoder inside.
-/

namespace Countersign

/-- A transaction format. -/
inductive Format where
  | v1
  | v2
deriving DecidableEq

/-- The name of a format. -/
def Format.name : Format → String
  | v1 => "V1"
  | v2 => "V2"

/-- The transcript of a format before anything is read. -/
def Format.opening : Format → Transcript
  | v1 => Transcript.v1
  | v2 => Transcript.v2

/-- A decoder of either format. -/
inductive AnyDecoder where
  | v1 (d : Decoder V1.Section)
  | v2 (d : Decoder V2.Section)

namespace AnyDecoder

/-- A decoder ahead of the first byte. -/
def new (format : Format) (sigIndex : UInt16) (change : Option Address) : AnyDecoder :=
  match format with
  | .v1 => v1 (Decoder.new sigIndex change)
  | .v2 => v2 (Decoder.new sigIndex change)

/-- The format. -/
def format : AnyDecoder → Format
  | v1 _ => .v1
  | v2 _ => .v2

/-- The room left for the next chunk. -/
def available : AnyDecoder → Nat
  | v1 d => d.available
  | v2 d => d.available

/-- The name of the section being decoded. -/
def sectionName : AnyDecoder → String
  | v1 d => Layout.name d.place
  | v2 d => Layout.name d.place

/-- Receives a chunk; refused when decoding has ended or when there is no room for all of it. -/
def push (d : AnyDecoder) (chunk : Bytes) : Except DecodeError AnyDecoder :=
  match d with
  | v1 d => (d.push chunk).map v1
  | v2 d => (d.push chunk).map v2

/-- Decodes up to the next element to show, the end of the buffered bytes, or the end of the
transaction. -/
def next : AnyDecoder → Except DecodeError Finding × AnyDecoder
  | v1 d => let (r, d) := d.next; (r, v1 d)
  | v2 d => let (r, d) := d.next; (r, v2 d)

/-- A bound on the steps that can be taken without a further chunk. -/
def measure : AnyDecoder → Nat
  | v1 d => d.measure
  | v2 d => d.measure

/-- Between two elements the bound gets smaller. -/
theorem measure_next {d d' : AnyDecoder} {e : Element} (h : d.next = (.ok (.element e), d')) :
    d'.measure < d.measure := by
  cases d with
  | v1 d =>
    simp only [next, Prod.mk.injEq] at h
    obtain ⟨hr, rfl⟩ := h
    exact Decoder.measure_next (Prod.ext hr rfl)
  | v2 d =>
    simp only [next, Prod.mk.injEq] at h
    obtain ⟨hr, rfl⟩ := h
    exact Decoder.measure_next (Prod.ext hr rfl)

end AnyDecoder

end Countersign
