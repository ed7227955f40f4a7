import Countersign.Proofs.Safety
import Countersign.Txn.Access

/-!
# The staging buffer as a bounded queue

Whatever is done to a buffer, it answers as a list of at most 510 bytes with an offset into it does
(`answers_as_queue`). One access keeps the buffer and its queue together (`queue_access`), and what
is seen of the one is what is seen of the other (`look_queue`), so this holds of any accesses in
turn (`queue_observe`). The queue has no store, and so nothing that is left over in the store is
ever seen. On a machine the accesses come to the same (`Checked.access_eq`): none of them takes a
byte from where there is none, whatever number of bytes is asked for.
-/

namespace Countersign

open Access (Answer Look)

/-! ## What reads come to -/

namespace Access

variable {σ τ α β : Type}

/-- A chunk comes to the same where the states are seen through a function. -/
theorem pushed_map (f : σ → τ) (s : σ) (r : Except DecodeError σ) :
    pushed (f s) (r.map f) = ((pushed s r).1, f (pushed s r).2) := by
  cases r <;> rfl

/-- A read comes to the same where values and states are seen through functions. -/
theorem taken_map (f : σ → τ) (g : α → β) (answer : β → Answer) (s : σ) (r : Option (α × σ)) :
    taken (f s) answer (r.map fun p => (g p.1, f p.2)) =
      ((taken s (answer ∘ g) r).1, f (taken s (answer ∘ g) r).2) := by
  rcases r with _ | ⟨a, s'⟩ <;> rfl

end Access

namespace Buffer

variable {b b' : Buffer}

theorem access_skip (b : Buffer) (n : UInt64) :
    b.access (.skip n) = Access.taken b (fun _ => .done) (b.take n.toNat) := by
  rw [access, skip]
  cases b.take n.toNat <;> rfl

theorem access_byte (b : Buffer) : b.access .byte =
    Access.taken b (fun x => .byte (UInt8.ofNat (ofLittleEndian x.bytes))) (b.take 1) := by
  rw [access, takeByte]
  cases b.take 1 <;> rfl

theorem access_word (b : Buffer) : b.access .word =
    Access.taken b (fun x => .word (wordOfBytes x.bytes)) (b.take 8) := by
  rw [access, takeWord]
  cases b.take 8 <;> rfl

/-- Bytes that are read where they lie are the bytes that are read. -/
theorem access_range (b : Buffer) (n : UInt64) : b.access (.range n) =
    Access.taken b (fun x => .range b.offset (b.offset + n.toNat) x.bytes) (b.take n.toNat) := by
  rw [access, takeRange, skip]
  rcases htake : b.take n.toNat with _ | ⟨x, b'⟩
  · rfl
  · obtain ⟨-, hbytes, rfl⟩ := eq_of_take htake
    simp only [Option.map_some, Access.taken, between, hbytes, Nat.add_sub_cancel_left]

/-! ## One access -/

theorem valid_taken {α : Type} {answer : α → Answer} {r : Option (α × Buffer)} (hb : b.Valid)
    (hr : ∀ a b', r = some (a, b') → b'.Valid) : (Access.taken b answer r).2.Valid := by
  rcases r with _ | ⟨a, b'⟩
  · exact hb
  · exact hr a b' rfl

/-- No access moves the offset past the bytes, or the bytes past the store. -/
theorem valid_access (hb : b.Valid) (a : Access) : (b.access a).2.Valid := by
  cases a with
  | push chunk =>
    rw [access]
    rcases hpush : b.push chunk with e | b'
    · exact hb
    · exact valid_push hpush
  | skip n =>
    rw [access_skip]
    exact valid_taken hb fun _ _ => valid_take hb
  | byte =>
    rw [access_byte]
    exact valid_taken hb fun _ _ => valid_take hb
  | word =>
    rw [access_word]
    exact valid_taken hb fun _ _ => valid_take hb
  | block n => exact valid_taken hb fun _ _ => valid_take hb
  | range n =>
    rw [access_range]
    exact valid_taken hb fun _ _ => valid_take hb
  | rewind => exact valid_rewind hb
  | discard => exact valid_discard hb

/-- A read comes to the same on a buffer and on its queue. -/
theorem queue_taken (hb : b.Valid) (n : Nat) (answer : Bytes → Answer) :
    Access.taken b.queue answer (b.queue.take n) =
      ((Access.taken b (fun x => answer x.bytes) (b.take n)).1,
        (Access.taken b (fun x => answer x.bytes) (b.take n)).2.queue) := by
  rw [← queue_take hb]
  exact Access.taken_map queue Block.bytes answer b (b.take n)

/-- The next byte of a queue. -/
theorem queue_byte (q : Queue) :
    Access.taken q (fun bs => .byte (UInt8.ofNat (ofLittleEndian bs))) (q.take 1) =
      q.access .byte := by
  rw [Queue.access, Queue.take]
  by_cases hshort : q.bytes.length < q.offset + 1
  · rw [if_pos hshort, List.getElem?_eq_none (by omega)]
    rfl
  · have hlt : q.offset < q.bytes.length := by omega
    have hbyte : (q.bytes.drop q.offset).take 1 = [q.bytes[q.offset]] := by
      rw [List.drop_eq_getElem_cons hlt, List.take_succ_cons, List.take_zero]
    rw [if_neg hshort, List.getElem?_eq_getElem hlt, hbyte]
    simp [Access.taken, ofLittleEndian]

/-- An access comes to the same on a buffer and on its queue, and leaves them together. -/
theorem queue_access (hb : b.Valid) (a : Access) :
    b.queue.access a = ((b.access a).1, (b.access a).2.queue) := by
  cases a with
  | push chunk =>
    rw [Queue.access, ← queue_push]
    exact Access.pushed_map queue b (b.push chunk)
  | skip n =>
    rw [access_skip]
    exact queue_taken hb n.toNat fun _ => .done
  | byte =>
    rw [access_byte, ← queue_byte]
    exact queue_taken hb 1 fun bs => .byte (UInt8.ofNat (ofLittleEndian bs))
  | word =>
    rw [access_word]
    exact queue_taken hb 8 fun bs => .word (wordOfBytes bs)
  | block n => exact queue_taken hb n .block
  | range n =>
    rw [access_range]
    exact queue_taken hb n.toNat (.range b.offset (b.offset + n.toNat))
  | rewind => rfl
  | discard =>
    rw [access, queue_discard hb]
    rfl

/-- The sizes of a buffer and the bytes that have been read are those of its queue. -/
theorem look_queue (hb : b.Valid) : b.queue.look = b.look := by
  have hlength : b.queue.bytes.length = b.length := length_slice b 0 b.length
  have hempty : b.queue.bytes.isEmpty = b.isEmpty := by
    rw [Bool.eq_iff_iff, List.isEmpty_iff_length_eq_zero, hlength, isEmpty, beq_iff_eq]
  have hread : b.queue.bytes.take b.offset = b.readBytes := by
    show (b.slice 0 b.length).take b.offset = b.readBytes
    rw [slice_length_eq hb]
    exact List.take_left' (length_slice b 0 b.offset)
  rw [Queue.look, hlength, hempty]
  show (⟨b.length, b.offset, b.isEmpty, b.length == 510, 510 - b.length,
    b.queue.bytes.take b.offset⟩ : Look) = b.look
  rw [hread]
  rfl

/-! ## Accesses in turn -/

/-- Accesses come to the same on a buffer and on its queue, and leave them together. -/
theorem queue_observe (hb : b.Valid) (as : List Access) :
    b.queue.observe as = ((b.observe as).1, (b.observe as).2.queue) ∧ (b.observe as).2.Valid := by
  induction as generalizing b with
  | nil => exact ⟨rfl, hb⟩
  | cons a as ih =>
    have hvalid := valid_access hb a
    obtain ⟨hrest, hafter⟩ := ih hvalid
    refine ⟨?_, hafter⟩
    have hlook := look_queue hvalid
    simp only [Queue.observe, observe] at hrest ⊢
    simp only [Access.observe, queue_access hb a, hrest, hlook]

/-- Nothing is seen of what is left over in the store: buffers with the same queue answer alike. -/
theorem observe_congr (hb : b.Valid) (h : b'.queue = b.queue) (as : List Access) :
    (b'.observe as).1 = (b.observe as).1 := by
  have hlength : b'.length = b.length := by
    have hbytes := congrArg (fun q : Queue => q.bytes.length) h
    simpa only [queue, length_slice] using hbytes
  have hoffset : b'.offset = b.offset := congrArg Queue.offset h
  have hb' : b'.Valid := ⟨by rw [hoffset, hlength]; exact hb.offset_le, by
    rw [hlength]; exact hb.length_le⟩
  have hobserve := (queue_observe hb as).1
  rw [← h, (queue_observe hb' as).1] at hobserve
  exact (Prod.mk.inj hobserve).1

end Buffer

/-! ## On a machine -/

namespace Checked

variable {size : Nat} {b : Buffer}

/-- An access comes to what it should, whatever number of bytes is asked for. -/
theorem access_eq (hsize : 65536 ≤ size) (hb : b.Valid) {a : Access} (ha : 2 * a.length < size) :
    access size b a = some (b.access a) := by
  have htake : ∀ n, take size b n = some (b.take n) := take_eq (by omega) hb
  cases a with
  | push chunk =>
    have hlength := hb.length_le
    have hchunk : 2 * chunk.length < size := ha
    rw [access, pushBuffer_eq (by omega)]
    rfl
  | skip n =>
    rw [access, htake, Buffer.access_skip]
    rfl
  | byte =>
    rw [access, htake, Buffer.access_byte]
    rfl
  | word =>
    rw [access, htake, Buffer.access_word]
    rfl
  | block n =>
    rw [access, htake]
    rfl
  | range n =>
    rw [access, htake, Buffer.access_range]
    rcases hread : b.take n.toNat with _ | ⟨x, b'⟩
    · rfl
    · have hvalid := Buffer.valid_take hb hread
      obtain ⟨-, hbytes, rfl⟩ := Buffer.eq_of_take hread
      have hstop : b.offset + n.toNat ≤ 510 := Nat.le_trans hvalid.offset_le hvalid.length_le
      simp only [Option.bind_eq_bind, Option.bind_some, sub_eq (Nat.le_add_right _ _),
        Nat.add_sub_cancel_left, slice_eq hstop, Access.taken, hbytes]
      rfl
  | rewind => rfl
  | discard =>
    rw [access, discard_eq hb]
    rfl

theorem look_eq (hb : b.Valid) : look b = some b.look := by
  have hread : slice b 0 b.offset = _ :=
    slice_eq (by have := hb.offset_le; have := hb.length_le; omega)
  have hroom : sub Buffer.capacity b.length = _ := sub_eq hb.length_le
  rw [look, hroom, hread]
  rfl

/-- Accesses in turn come to what they should. -/
theorem observeBuffer_eq (hsize : 65536 ≤ size) (hb : b.Valid) {as : List Access}
    (has : ∀ a ∈ as, 2 * a.length < size) :
    observeBuffer size b as = some (b.observe as) := by
  induction as generalizing b with
  | nil => rfl
  | cons a as ih =>
    obtain ⟨ha, has⟩ := List.forall_mem_cons.1 has
    have hvalid := Buffer.valid_access hb a
    rw [observeBuffer, access_eq hsize hb ha]
    simp only [Option.bind_eq_bind, Option.bind_some, look_eq hvalid, ih hvalid has]
    rfl

end Checked

namespace Buffer

/-- Whatever is done to a new buffer, refused chunks and short reads included, what is seen of it is
what is seen of a queue of at most 510 bytes, and its bytes and its offset are those of the queue.
Nothing else is ever seen: another buffer with the same queue, whatever is left over in its store,
goes on in the same way. On every machine with words of 16 bits or more the accesses come to the
same, with no number or position out of range; no chunk is as long as half of the numbers that fit
a word. -/
theorem answers_as_queue (as : List Access) :
    empty.look = Queue.empty.look ∧
    (empty.observe as).1 = (Queue.empty.observe as).1 ∧
    (empty.observe as).2.queue = (Queue.empty.observe as).2 ∧
    (Queue.empty.observe as).2.offset ≤ (Queue.empty.observe as).2.bytes.length ∧
    (Queue.empty.observe as).2.bytes.length ≤ 510 ∧
    (∀ b : Buffer, b.queue = (empty.observe as).2.queue → ∀ more : List Access,
      (b.observe more).1 = ((empty.observe as).2.observe more).1) ∧
    ∀ size, 65536 ≤ size → (∀ a ∈ as, 2 * a.length < size) →
      Checked.observeBuffer size empty as = some (empty.observe as) := by
  obtain ⟨hobserve, hvalid⟩ := queue_observe valid_empty as
  rw [queue_empty] at hobserve
  have hlength : (empty.observe as).2.queue.bytes.length = (empty.observe as).2.length :=
    length_slice _ _ _
  rw [hobserve]
  refine ⟨(look_queue valid_empty).symm, rfl, rfl, ?_, ?_,
    fun b hqueue more => observe_congr hvalid hqueue more,
    fun size hsize has => Checked.observeBuffer_eq hsize valid_empty has⟩
  · rw [hlength]
    exact hvalid.offset_le
  · rw [hlength]
    exact hvalid.length_le

/-- A byte is pushed where others are left over, and more is asked for than can be. -/
def overwritten : List Access :=
  [.push [1, 2, 3, 4, 5], .skip 3, .discard, .skip 18446744073709551615, .push [6], .word, .block 3,
    .byte, .push (List.replicate 508 0)]

theorem answers_overwritten :
    (∀ a ∈ overwritten, 2 * a.length < 65536) ∧
      Checked.observeBuffer 65536 empty overwritten = some (empty.observe overwritten) ∧
      (empty.observe overwritten).1.map Prod.fst =
        [.done, .done, .done, .short, .done, .short, .block [4, 5, 6], .short,
          .refused .capacity] := by
  have hfits : ∀ a ∈ overwritten, 2 * a.length < 65536 := by decide +kernel
  obtain ⟨-, hseen, -, -, -, -, hmachine⟩ := answers_as_queue overwritten
  refine ⟨hfits, hmachine 65536 (Nat.le_refl _) hfits, ?_⟩
  rw [hseen]
  decide +kernel

end Buffer

end Countersign
