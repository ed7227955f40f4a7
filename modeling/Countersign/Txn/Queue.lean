import Countersign.Txn.Buffer

/-!
# Bounded byte queues

What the staging buffer amounts to: a list of at most 510 bytes and an offset into it. Here nothing
is left over from earlier, since there is no store apart from the list. `Buffer.queue` forgets the
store, and each operation on a buffer is the operation of the same name on its queue.
-/

namespace Countersign

/-- Bytes in order of arrival, and how many of them have been read. -/
structure Queue where
  bytes : Bytes
  offset : Nat
deriving DecidableEq

namespace Queue

/-- The queue without any bytes. -/
def empty : Queue := ⟨[], 0⟩

/-- Adds a chunk at the end and goes back to the start, or refuses a chunk there is no room for. -/
def push (q : Queue) (chunk : Bytes) : Except DecodeError Queue :=
  if q.bytes.length + chunk.length > 510 then .error .capacity else .ok ⟨q.bytes ++ chunk, 0⟩

/-- Reads the next `n` bytes, if as many are unread. -/
def take (q : Queue) (n : Nat) : Option (Bytes × Queue) :=
  if q.bytes.length < q.offset + n then none
  else some ((q.bytes.drop q.offset).take n, { q with offset := q.offset + n })

/-- Goes back to the start of the element. -/
def rewind (q : Queue) : Queue := { q with offset := 0 }

/-- Drops the bytes that have been read. -/
def discard (q : Queue) : Queue := ⟨q.bytes.drop q.offset, 0⟩

end Queue

namespace Buffer

/-- The bytes of a buffer, without what its store has left over. -/
def queue (b : Buffer) : Queue := ⟨b.slice 0 b.length, b.offset⟩

/-! ## Slices of a store -/

theorem getElem_slice (b : Buffer) (i n k : Nat) (h : k < (b.slice i n).length) :
    (b.slice i n)[k] = (b.store[i + k]?).getD 0 := by
  simp [slice]

/-- A slice depends on nothing but the bytes of the store in its range. -/
theorem slice_congr {b b' : Buffer} {i n : Nat}
    (h : ∀ k, i ≤ k → k < i + n → b.store[k]? = b'.store[k]?) : b.slice i n = b'.slice i n := by
  apply List.ext_getElem
  · simp
  · intro k hk _
    simp only [length_slice] at hk
    simp only [getElem_slice]
    rw [h (i + k) (by omega) (by omega)]

theorem slice_add (b : Buffer) (i m n : Nat) :
    b.slice i (m + n) = b.slice i m ++ b.slice (i + m) n := by
  apply List.ext_getElem
  · simp
  · intro k _ _
    rw [List.getElem_append]
    split
    · simp only [getElem_slice]
    · next h =>
      simp only [length_slice] at h
      simp only [getElem_slice, length_slice]
      rw [show i + m + (k - m) = i + k by omega]

/-- A byte of a store is the written one in the range that was written, and else the old one. -/
theorem getElem?_overwrite (store : Vector UInt8 510) (i : Nat) (xs : Bytes) (j : Nat)
    (h : i + xs.length ≤ 510) :
    (overwrite store i xs)[j]? = if i ≤ j ∧ j < i + xs.length then xs[j - i]? else store[j]? := by
  induction xs generalizing store i with
  | nil =>
    rw [overwrite, if_neg]
    simp only [List.length_nil]
    omega
  | cons x xs ih =>
    simp only [List.length_cons] at h ⊢
    rw [overwrite, ih _ _ (by omega)]
    rcases Nat.lt_trichotomy j i with hj | rfl | hj
    · rw [if_neg (by omega), if_neg (by omega), Vector.getElem?_setIfInBounds_ne (by omega)]
    · rw [if_neg (by omega), if_pos (by omega),
        Vector.getElem?_setIfInBounds_self_of_lt (by omega)]
      simp
    · by_cases hlast : j < i + 1 + xs.length
      · rw [if_pos (by omega), if_pos (by omega)]
        rw [show j - i = j - (i + 1) + 1 by omega, List.getElem?_cons_succ]
      · rw [if_neg (by omega), if_neg (by omega), Vector.getElem?_setIfInBounds_ne (by omega)]

/-- What was written is read back. -/
theorem slice_overwrite (b : Buffer) (i : Nat) (xs : Bytes) (h : i + xs.length ≤ 510) :
    ({ b with store := overwrite b.store i xs } : Buffer).slice i xs.length = xs := by
  apply List.ext_getElem
  · simp
  · intro k _ hk
    simp only [getElem_slice, getElem?_overwrite _ _ _ _ h]
    rw [if_pos (by omega)]
    simp [hk]

/-! ## Operations on a buffer and on its queue -/

theorem queue_empty : empty.queue = Queue.empty := rfl

theorem queue_rewind (b : Buffer) : b.rewind.queue = b.queue.rewind := rfl

theorem queue_push (b : Buffer) (chunk : Bytes) :
    (b.push chunk).map queue = b.queue.push chunk := by
  by_cases hroom : b.length + chunk.length > 510
  · have hqueue : b.queue.push chunk = .error .capacity := by
      simp [Queue.push, queue, hroom]
    rw [hqueue, push, if_pos (show b.length + chunk.length > capacity from hroom)]
    rfl
  · have hqueue : b.queue.push chunk = .ok ⟨b.slice 0 b.length ++ chunk, 0⟩ := by
      simp [Queue.push, queue, hroom]
    have hwritten := slice_overwrite b b.length chunk (by omega)
    have hkept : ({ b with store := overwrite b.store b.length chunk } : Buffer).slice 0 b.length =
        b.slice 0 b.length := by
      apply slice_congr
      intro k _ hk
      simp only [getElem?_overwrite b.store b.length chunk k (by omega)]
      rw [if_neg (by omega)]
    rw [hqueue, push, if_neg (show ¬ b.length + chunk.length > capacity from hroom)]
    show Except.ok (⟨({ b with store := overwrite b.store b.length chunk } : Buffer).slice 0
      (b.length + chunk.length), 0⟩ : Queue) = _
    rw [slice_add, hkept, Nat.zero_add, hwritten]

theorem queue_take {b : Buffer} (hb : b.Valid) (n : Nat) :
    (b.take n).map (fun r => (r.1.bytes, r.2.queue)) = b.queue.take n := by
  have hoffset := hb.offset_le
  by_cases hn : b.length < b.offset + n
  · have hqueue : b.queue.take n = none := by
      simp [Queue.take, queue, hn]
    rw [hqueue, take, if_pos (by rw [unreadLength]; omega)]
    rfl
  · have hqueue : b.queue.take n = some (((b.slice 0 b.length).drop b.offset).take n,
        ⟨b.slice 0 b.length, b.offset + n⟩) := by
      simp [Queue.take, queue, hn]
    have hcount : b.length = b.offset + (n + (b.length - b.offset - n)) := by omega
    have hsplit : b.slice 0 b.length =
        b.slice 0 b.offset ++ (b.slice b.offset n ++
          b.slice (b.offset + n) (b.length - b.offset - n)) := by
      conv => lhs; rw [hcount, slice_add, Nat.zero_add, slice_add]
    rw [hqueue, take, if_neg (by rw [unreadLength]; omega)]
    refine congrArg some (Prod.ext ?_ rfl)
    rw [hsplit]
    simp

theorem queue_discard {b : Buffer} (hb : b.Valid) : b.discard.queue = b.queue.discard := by
  have hoffset := hb.offset_le
  have hlength := hb.length_le
  have hunread : b.unread.length = b.unreadLength := by simp [unread]
  have hwritten : b.discard.slice 0 b.unread.length = b.unread :=
    slice_overwrite { b with length := b.unreadLength, offset := 0 } 0 b.unread
      (by rw [hunread, unreadLength]; omega)
  have hsplit : b.slice 0 b.length = b.slice 0 b.offset ++ b.unread := by
    have hcount : b.length = b.offset + b.unreadLength := by rw [unreadLength]; omega
    rw [hcount, slice_add, Nat.zero_add, unread]
  show (⟨b.discard.slice 0 b.unreadLength, 0⟩ : Queue) = ⟨(b.slice 0 b.length).drop b.offset, 0⟩
  rw [← hunread, hwritten, hsplit]
  simp

end Buffer

end Countersign
