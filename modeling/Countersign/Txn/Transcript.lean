import Countersign.Hash.Blake2b
import Countersign.Txn.DecodeError

/-!
# What a signature covers

The bytes under a signature are put together while the transaction streams by, element by element in
wire order, and hashed at the end. A `Transcript` is that string of bytes, in the pieces in which it
was written, newest first. Sealing it gives its hash; nothing can be written to it after that.
-/

namespace Countersign

/-- How much of an element a signature covers. -/
inductive Coverage where
  /-- The whole element. -/
  | all
  /-- The first `n` bytes of the element. -/
  | front (n : Nat)
  /-- Nothing of the element. -/
  | nothing
deriving DecidableEq

/-- The covered part of an element. -/
def Coverage.part (c : Coverage) (element : Bytes) : Bytes :=
  match c with
  | all => element
  | front n => element.take n
  | nothing => []

/-- The bytes written so far, in pieces, the newest first. -/
structure Transcript where
  written : List Bytes
  isSealed : Bool
deriving DecidableEq

namespace Transcript

/-- What separates the hashes of the second format from all other hashes. -/
def distinguisher : Bytes := asciiBytes "sia/sig/input|".toList

/-- The byte ahead of each input of the first format. -/
def replayByteV1 : UInt8 := 1

/-- The byte ahead of a transaction of the second format. -/
def replayByteV2 : UInt8 := 2

/-- The transcript that begins with these bytes. -/
def ofBytes (bs : Bytes) : Transcript := ⟨[bs], false⟩

/-- The transcript of the first format before anything is read. -/
def v1 : Transcript := ofBytes []

/-- The transcript of the second format before anything is read. -/
def v2 : Transcript := ofBytes (distinguisher ++ [replayByteV2])

/-- All bytes written so far. -/
def bytes (t : Transcript) : Bytes := t.written.reverse.flatten

/-- Writes bytes at the end. -/
def write (t : Transcript) (bs : Bytes) : Except DecodeError Transcript :=
  if t.isSealed then .error .finalized else .ok { t with written := bs :: t.written }

/-- Writes the covered part of an element; an element that is not covered leaves even a sealed
transcript as it is. -/
def record (t : Transcript) (element : Bytes) (cover : Coverage) : Except DecodeError Transcript :=
  match cover with
  | .nothing => .ok t
  | _ => t.write (cover.part element)

/-- The hash of the bytes, and the transcript closed. -/
def close (t : Transcript) : Except DecodeError (Digest × Transcript) :=
  if t.isSealed then .error .finalized
  else .ok (Blake2b.digest t.bytes, { t with isSealed := true })

theorem bytes_write {t t' : Transcript} {bs : Bytes} (h : t.write bs = .ok t') :
    t'.bytes = t.bytes ++ bs := by
  unfold write at h
  split at h
  · cases h
  · cases h
    simp [bytes]

theorem bytes_record {t t' : Transcript} {element : Bytes} {cover : Coverage}
    (h : t.record element cover = .ok t') : t'.bytes = t.bytes ++ cover.part element := by
  cases cover with
  | nothing =>
    cases h
    simp [Coverage.part]
  | all => exact bytes_write h
  | front n => exact bytes_write h

end Transcript

end Countersign
