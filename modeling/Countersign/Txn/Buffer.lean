import Countersign.Bytes
import Countersign.Txn.DecodeError

/-!
# The staging buffer

A transaction arrives in chunks and waits here, at most 510 bytes at a time, until the element at
its front is complete. The bytes lie at the front of a fixed store, with a read offset into them:

  `| read | unread | stale |`   with ends at `offset`, `length` and 510.

Reading moves the offset and fails when fewer bytes are unread than asked for; `rewind` goes back
to the start of the element, and `discard` drops what was read and moves the rest to the front.
What lies beyond `length` is left over from earlier and never looked at.
-/

namespace Countersign

/-- A fixed store with some bytes at its front, of which some have been read. -/
structure Buffer where
  store : Vector UInt8 510
  length : Nat
  offset : Nat

namespace Buffer

/-- The number of bytes a buffer can hold. -/
def capacity : Nat := 510

/-- The buffer without any bytes. -/
def empty : Buffer := ⟨Vector.replicate 510 0, 0, 0⟩

instance : Inhabited Buffer := ⟨empty⟩

/-! ## Sizes -/

/-- The number of unread bytes. -/
def unreadLength (b : Buffer) : Nat := b.length - b.offset

/-- The room left for further chunks. -/
def available (b : Buffer) : Nat := capacity - b.length

/-- No bytes are held, read or unread. -/
def isEmpty (b : Buffer) : Bool := b.length == 0

/-- No room is left, so an element that is not complete will never be. -/
def isFull (b : Buffer) : Bool := b.length == capacity

/-! ## Contents -/

/-- The `n` bytes from position `i` of the store, zero where the store has ended. -/
def slice (b : Buffer) (i n : Nat) : Bytes :=
  List.ofFn fun k : Fin n => (b.store[i + k.val]?).getD 0

@[simp] theorem length_slice (b : Buffer) (i n : Nat) : (b.slice i n).length = n := by
  simp [slice]

/-- The bytes that have been read since the last rewind. -/
def readBytes (b : Buffer) : Bytes := b.slice 0 b.offset

/-- The bytes that have not been read. -/
def unread (b : Buffer) : Bytes := b.slice b.offset b.unreadLength

/-- The store with bytes written from position `i` on. -/
def overwrite (store : Vector UInt8 510) (i : Nat) : Bytes → Vector UInt8 510
  | [] => store
  | x :: xs => overwrite (store.setIfInBounds i x) (i + 1) xs

/-! ## Operations -/

/-- Adds a chunk at the end and goes back to the start, or refuses a chunk there is no room for. -/
def push (b : Buffer) (chunk : Bytes) : Except DecodeError Buffer :=
  if b.length + chunk.length > capacity then
    .error .capacity
  else
    .ok ⟨overwrite b.store b.length chunk, b.length + chunk.length, 0⟩

/-- Reads the next `n` bytes, if as many are unread. -/
def take (b : Buffer) (n : Nat) : Option (Block n × Buffer) :=
  if b.unreadLength < n then
    none
  else
    some (⟨b.slice b.offset n, by simp⟩, { b with offset := b.offset + n })

/-- Passes over the next `n` bytes, if as many are unread. -/
def skip (b : Buffer) (n : Nat) : Option Buffer := (b.take n).map (·.2)

/-- Passes over the next `n` bytes, if as many are unread, and gives the positions where they
lie. -/
def takeRange (b : Buffer) (n : Nat) : Option ((Nat × Nat) × Buffer) :=
  (b.skip n).map fun b' => ((b.offset, b'.offset), b')

/-- The bytes between two positions. -/
def between (b : Buffer) (positions : Nat × Nat) : Bytes :=
  b.slice positions.1 (positions.2 - positions.1)

/-- Reads the next byte. -/
def takeByte (b : Buffer) : Option (UInt8 × Buffer) :=
  (b.take 1).map fun (x, b') => (UInt8.ofNat (ofLittleEndian x.bytes), b')

/-- Reads the next eight bytes as a number, least significant byte first. -/
def takeWord (b : Buffer) : Option (UInt64 × Buffer) :=
  (b.take 8).map fun (x, b') => (wordOfBytes x.bytes, b')

/-- Goes back to the start of the element. -/
def rewind (b : Buffer) : Buffer := { b with offset := 0 }

/-- Drops the bytes that have been read. -/
def discard (b : Buffer) : Buffer := ⟨overwrite b.store 0 b.unread, b.unreadLength, 0⟩

/-- A read that is not short gives the bytes at the offset, and moves the offset behind them and
nothing else. -/
theorem eq_of_take {b b' : Buffer} {n : Nat} {x : Block n} (h : b.take n = some (x, b')) :
    n ≤ b.unreadLength ∧ x.bytes = b.slice b.offset n ∧ b' = { b with offset := b.offset + n } := by
  unfold take at h
  split at h
  · cases h
  · cases h
    exact ⟨by omega, rfl, rfl⟩

/-! ## Valid buffers -/

/-- The offset lies within the bytes, and the bytes within the store. -/
structure Valid (b : Buffer) : Prop where
  offset_le : b.offset ≤ b.length
  length_le : b.length ≤ 510

theorem valid_empty : empty.Valid := ⟨Nat.le_refl 0, Nat.zero_le 510⟩

theorem valid_push {b b' : Buffer} {chunk : Bytes} (h : b.push chunk = .ok b') : b'.Valid := by
  unfold push at h
  split at h
  · cases h
  · next hroom =>
    cases h
    simp only [capacity] at hroom
    exact ⟨Nat.zero_le _, by dsimp only; omega⟩

theorem valid_take {b b' : Buffer} {n : Nat} {x : Block n} (hb : b.Valid)
    (h : b.take n = some (x, b')) : b'.Valid := by
  obtain ⟨hunread, -, rfl⟩ := eq_of_take h
  have hoffset := hb.offset_le
  simp only [unreadLength] at hunread
  exact ⟨by dsimp only; omega, hb.length_le⟩

theorem valid_rewind {b : Buffer} (hb : b.Valid) : b.rewind.Valid :=
  ⟨Nat.zero_le _, hb.length_le⟩

theorem valid_discard {b : Buffer} (hb : b.Valid) : b.discard.Valid := by
  have hlength := hb.length_le
  exact ⟨Nat.zero_le _, by simp only [discard, unreadLength]; omega⟩

/-! ## What reading does to the sizes -/

theorem length_take {b b' : Buffer} {n : Nat} {x : Block n} (h : b.take n = some (x, b')) :
    b'.length = b.length ∧ b'.offset = b.offset + n ∧ n ≤ b.unreadLength := by
  obtain ⟨hunread, -, rfl⟩ := eq_of_take h
  exact ⟨rfl, rfl, hunread⟩

@[simp] theorem length_discard (b : Buffer) : b.discard.length = b.length - b.offset := rfl

end Buffer

end Countersign
