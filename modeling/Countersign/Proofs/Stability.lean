import Countersign.Proofs.Delivery
import Countersign.Txn.V1
import Countersign.Txn.V2

/-!
# Readers and more data

An element that is not complete is read again from its start when more bytes have come, so what a
reader has decided must not change. A run from the start of a buffer is decided by the bytes that
the buffer holds: it is complete where a value is at their front (`run_eq_complete_iff`), and it is
refused or short where a reading of the bytes is (`run_eq_refused_iff`, `run_eq_short_iff`). Hence
every reader is `Stable`: a complete value depends on the bytes that it takes and on no others, more
bytes change neither a value nor a refusal, and fewer bytes than are too few are too few.
-/

namespace Countersign

/-! ## Buffers at their start -/

namespace Buffer

variable {b : Buffer} {bs more : Bytes}

/-- The buffer holds these bytes, and reading is at the start of them. Its store may have anything
left over behind them. -/
structure Holds (b : Buffer) (bs : Bytes) : Prop where
  valid : b.Valid
  queue_eq : b.queue = ⟨bs, 0⟩

theorem Holds.bytes_eq (h : b.Holds bs) : b.queue.bytes = bs := congrArg Queue.bytes h.queue_eq

theorem Holds.atStart (h : b.Holds bs) : b.offset = 0 := congrArg Queue.offset h.queue_eq

/-- A chunk for which there is room is behind the bytes that are held. -/
theorem exists_push_holds (h : b.Holds bs) (hroom : (bs ++ more).length ≤ 510) :
    ∃ b', b.push more = .ok b' ∧ b'.Holds (bs ++ more) := by
  rw [List.length_append] at hroom
  have hqueue := queue_push b more
  rw [h.queue_eq, Queue.push, if_neg (Nat.not_lt.2 hroom)] at hqueue
  rcases hpush : b.push more with e | b'
  · rw [hpush] at hqueue
    cases hqueue
  · rw [hpush] at hqueue
    exact ⟨b', rfl, valid_push hpush, Except.ok.inj hqueue⟩

end Buffer

/-! ## Runs from the start -/

namespace Reader

variable {α : Type} {r : Reader α} {b rest : Buffer} {bs : Bytes} {a : α} {e : DecodeError}

theorem map_unread_run_of_holds (r : Reader α) (hb : b.Holds bs) :
    (r.run b).map Buffer.unread = r.parse bs := by
  rw [map_unread_run_of_start r hb.atStart, hb.bytes_eq]

/-- What a run passes over is all bytes of a value, and it moves nothing but the offset. -/
theorem exists_accepts_of_run (hb : b.Holds bs) (h : r.run b = .complete a rest) :
    ∃ w, w <+: bs ∧ r.Accepts w a ∧ rest = { b with offset := w.length } := by
  obtain ⟨haccepts, hbytes⟩ := accepts_of_run hb.valid hb.atStart h
  obtain ⟨-, hstore, hlength⟩ := run_keeps hb.valid h
  refine ⟨rest.readBytes, ⟨_, hbytes.symm.trans hb.bytes_eq⟩, haccepts, ?_⟩
  rw [Buffer.readBytes, Buffer.length_slice, ← hstore, ← hlength]

/-- A run is complete where all bytes of a value are at the front, and it passes over these. -/
theorem run_eq_complete_iff (hb : b.Holds bs) :
    r.run b = .complete a rest ↔
      ∃ w, w <+: bs ∧ r.Accepts w a ∧ rest = { b with offset := w.length } := by
  refine ⟨exists_accepts_of_run hb, ?_⟩
  rintro ⟨w, ⟨v, rfl⟩, haccepts, rfl⟩
  have hrun := map_unread_run_of_holds r hb
  rw [parse_append_of_complete haccepts v] at hrun
  rcases houtcome : r.run b with ⟨a', rest'⟩ | _ | e
  · -- the run has found a value at the front, and there is no other
    obtain ⟨w', ⟨v', hw'⟩, haccepts', rfl⟩ := exists_accepts_of_run hb houtcome
    obtain ⟨rfl, rfl⟩ := eq_of_accepts haccepts' haccepts hw'
    rfl
  · rw [houtcome] at hrun
    cases hrun
  · rw [houtcome] at hrun
    cases hrun

theorem run_eq_refused_iff (hb : b.Holds bs) : r.run b = .refused e ↔ r.parse bs = .refused e := by
  rw [← map_unread_run_of_holds r hb]
  rcases r.run b with ⟨a, rest⟩ | _ | e' <;> simp [Outcome.map]

theorem run_eq_short_iff (hb : b.Holds bs) : r.run b = .short ↔ r.parse bs = .short := by
  rw [← map_unread_run_of_holds r hb]
  rcases r.run b with ⟨a, rest⟩ | _ | e' <;> simp [Outcome.map]

/-! ## Stable readers -/

/-- What a reader makes of the bytes at its start is decided by as many of them as it takes. -/
structure Stable (r : Reader α) : Prop where
  /-- A value stays the same when more bytes come, and is read from as many. -/
  complete : ∀ {b b' : Buffer} {bs more : Bytes} {a : α} {rest : Buffer}, b.Holds bs →
    b'.Holds (bs ++ more) → r.run b = .complete a rest →
    r.run b' = .complete a { b' with offset := rest.offset }
  /-- A refusal stays the same when more bytes come. -/
  refused : ∀ {b b' : Buffer} {bs more : Bytes} {e : DecodeError}, b.Holds bs →
    b'.Holds (bs ++ more) → r.run b = .refused e → r.run b' = .refused e
  /-- Bytes that are too few are so without the last of them. -/
  short : ∀ {b b' : Buffer} {bs front : Bytes}, b.Holds bs → b'.Holds front → front <+: bs →
    r.run b = .short → r.run b' = .short
  /-- A reader that succeeds has read the bytes before its final position, and has left the others
  and all else as it was. -/
  consumes : ∀ {b : Buffer} {bs : Bytes} {a : α} {rest : Buffer}, b.Holds bs →
    r.run b = .complete a rest → rest = { b with offset := rest.offset } ∧
      rest.offset ≤ bs.length ∧ rest.readBytes = bs.take rest.offset ∧
      rest.unread = bs.drop rest.offset
  /-- The bytes before the final position are all that matters. -/
  depends : ∀ {b b' : Buffer} {bs bs' : Bytes} {a : α} {rest : Buffer}, b.Holds bs →
    b'.Holds bs' → r.run b = .complete a rest → bs'.take rest.offset = bs.take rest.offset →
    r.run b' = .complete a { b' with offset := rest.offset }
  /-- With fewer bytes than those, the reader comes to a stop. -/
  least : ∀ {b b' : Buffer} {bs front : Bytes} {a : α} {rest : Buffer}, b.Holds bs →
    b'.Holds front → r.run b = .complete a rest → front <+: bs → front.length < rest.offset →
    r.run b' = .short

/-- A reader has nothing but the blocks that it has asked for, so it is stable. -/
theorem stable (r : Reader α) : r.Stable where
  complete hb hb' h := by
    obtain ⟨w, hw, haccepts, rfl⟩ := (run_eq_complete_iff hb).1 h
    exact (run_eq_complete_iff hb').2 ⟨w, hw.trans (List.prefix_append _ _), haccepts, rfl⟩
  refused hb hb' h := by
    rw [run_eq_refused_iff hb] at h
    exact (run_eq_refused_iff hb').2 (parse_append_of_refused h _)
  short hb hb' hfront h := by
    rw [run_eq_short_iff hb] at h
    obtain ⟨more, rfl⟩ := hfront
    exact (run_eq_short_iff hb').2 (parse_short_of_append h)
  consumes {b bs a rest} hb h := by
    have hvalid := (run_keeps hb.valid h).1
    obtain ⟨w, hw, -, rfl⟩ := (run_eq_complete_iff hb).1 h
    have hsplit := Buffer.slice_length_eq hvalid
    have hread := Buffer.length_slice { b with offset := w.length } 0 w.length
    obtain rfl : bs = _ := hb.bytes_eq.symm.trans hsplit
    exact ⟨rfl, hw.length_le, (List.take_left' hread).symm, (List.drop_left' hread).symm⟩
  depends hb hb' h hsame := by
    obtain ⟨w, hw, haccepts, rfl⟩ := (run_eq_complete_iff hb).1 h
    refine (run_eq_complete_iff hb').2 ⟨w, ?_, haccepts, rfl⟩
    rw [List.prefix_iff_eq_take.1 hw, ← hsame]
    exact List.take_prefix _ _
  least hb hb' h hfront hlt := by
    obtain ⟨w, hw, haccepts, rfl⟩ := (run_eq_complete_iff hb).1 h
    have hv := List.prefix_of_prefix_length_le hfront hw (Nat.le_of_lt hlt)
    exact (run_eq_short_iff hb').2 (parse_short_of_lt haccepts hv hlt)

end Reader

/-- Every header and every entry of both formats is read in a stable way: inputs, outputs, fees,
signatures and attestations, counts, the length of arbitrary data, and the flag of a foundation
address. A chunk for which there is room puts more bytes behind those that a buffer holds. -/
theorem readers_stable (i : UInt16) (k : UInt64) :
    (∀ s : V1.Section, (Layout.header i s).Stable ∧ (Layout.entry i s k).Stable) ∧
    (∀ s : V2.Section, (Layout.header i s).Stable ∧ (Layout.entry i s k).Stable) ∧
    ∀ (b : Buffer) (bs more : Bytes), b.Holds bs → (bs ++ more).length ≤ 510 →
      ∃ b', b.push more = .ok b' ∧ b'.Holds (bs ++ more) :=
  ⟨fun _ => ⟨Reader.stable _, Reader.stable _⟩, fun _ => ⟨Reader.stable _, Reader.stable _⟩,
    fun _ _ _ hb hroom => Buffer.exists_push_holds hb hroom⟩

/-- A fee of which the last byte comes later, and other bytes with it. -/
theorem stable_fee_in_two_chunks :
    ∃ b b' : Buffer, Buffer.empty.push [2, 0, 0, 0, 0, 0, 0, 0, 1] = .ok b ∧
      b.push [0, 7, 7] = .ok b' ∧ (Layout.entry 0 V2.Section.minerFee 0).run b = .short ∧
      (Layout.entry 0 V2.Section.minerFee 0).run b' =
        .complete ⟨[], .all, some ⟨.minerFee, "256", none⟩⟩ { b' with offset := 10 } := by
  obtain ⟨-, hstable, hpush⟩ := readers_stable 0 0
  have hempty : Buffer.empty.Holds [] := ⟨Buffer.valid_empty, rfl⟩
  obtain ⟨b, hb, hholds⟩ := hpush _ _ [2, 0, 0, 0, 0, 0, 0, 0, 1] hempty (by decide)
  obtain ⟨b', hb', hmore⟩ := hpush _ _ [0, 7, 7] hholds (by decide)
  -- a buffer with the ten bytes of the fee and no others
  obtain ⟨b₁, -, hfee⟩ := hpush _ _ [0] hholds (by decide)
  have hcomplete : (Layout.entry 0 V2.Section.minerFee 0).run b₁ =
      .complete ⟨[], .all, some ⟨.minerFee, "256", none⟩⟩ { b₁ with offset := 10 } :=
    (Reader.run_eq_complete_iff hfee).2 ⟨_, List.prefix_refl _, by rfl, rfl⟩
  have hbehind : b'.Holds ([2, 0, 0, 0, 0, 0, 0, 0, 1, 0] ++ [7, 7]) := hmore
  exact ⟨b, b', hb, hb', (Reader.run_eq_short_iff hholds).2 (by rfl),
    (hstable .minerFee).2.complete hfee hbehind hcomplete⟩

end Countersign
