import Countersign.Proofs.Finality
import Countersign.Proofs.Numbering
import Countersign.Txn.Checked

/-!
# What a machine could stumble over

A decoder keeps its sizes in order (`Decoder.Sound`): the offset is within the bytes that are held,
these are within the store, no more entries have been read than there are, and where there can be no
entries there are none. A step keeps this because a reader goes no further than the bytes that are
held, because an entry is taken only where one is left, and because a header that is followed by no
entries has a count of zero (`sound_step`).

So the decoder on a machine does what the decoder does, first in each of its operations (`take_eq`,
`discard_eq`, `advance_eq`), then in a step and a request (`step_eq`, `next_eq`), and at last in all
that can be done to it (`observe_eq`). No number gets out of range and no byte is taken from where
there is none, whatever counts and lengths the bytes give.
-/

namespace Countersign

/-! ## Places without entries -/

/-- The place is ahead of the first section, or its section is not supported. -/
def V1.Section.isBare : V1.Section → Bool
  | .start => true
  | s => s.isUnsupported

/-- The place is ahead of the first section, or its section is not supported, or it has only a
length or a flag that must be zero. -/
def V2.Section.isBare : V2.Section → Bool
  | .start | .arbitraryData | .foundationAddress => true
  | s => s.isUnsupported

theorem Layout.yields_emptyCount_zero : Layout.emptyCount.Yields (·.count = 0) := by
  refine Reader.yields_bind fun n => ?_
  split
  · rfl
  · trivial

theorem V2.yields_foundationFlag_zero : V2.foundationFlag.Yields (·.count = 0) := by
  refine Reader.yields_bind fun flag => ?_
  split
  · rfl
  · trivial

instance : Layout.Bare V1.Section where
  isBare := V1.Section.isBare
  count_header {i s t b rest h} hnext hbare hrun := by
    cases s <;> cases hnext <;> cases hbare
    all_goals exact Reader.yields_of_run Layout.yields_emptyCount_zero hrun
  entry_eq {i s k} hbare := by
    cases s <;> cases hbare <;> rfl

instance : Layout.Bare V2.Section where
  isBare := V2.Section.isBare
  count_header {i s t b rest h} hnext hbare hrun := by
    cases s <;> cases hnext <;> cases hbare
    case attestations => exact Reader.yields_of_run Layout.yields_emptyCount_zero hrun
    case arbitraryData => exact Reader.yields_of_run V2.yields_foundationFlag_zero hrun
    all_goals exact Reader.yields_of_run Layout.yields_emptyCount_zero hrun
  entry_eq {i s k} hbare := by
    cases s <;> cases hbare <;> rfl

/-! ## Sizes -/

namespace Decoder

variable {S : Type} [Layout S] [Layout.Bare S] {d d' : Decoder S}

/-- The sizes are in order. -/
structure Sound (d : Decoder S) : Prop where
  offset_le : d.buffer.offset ≤ d.buffer.length
  length_le : d.buffer.length ≤ 510
  index_le : d.index ≤ d.count
  bare : Layout.Bare.isBare d.place = true → d.count = 0

theorem Sound.valid (h : d.Sound) : d.buffer.Valid := ⟨h.offset_le, h.length_le⟩

theorem sound_new (sigIndex : UInt16) (change : Option Address) :
    (new sigIndex change : Decoder S).Sound :=
  ⟨Nat.le_refl 0, Nat.zero_le 510, UInt64.le_refl 0, fun _ => rfl⟩

/-- Another buffer that is in order does no harm. -/
theorem Sound.setBuffer (h : d.Sound) {b : Buffer} (hb : b.Valid) :
    ({ d with buffer := b } : Decoder S).Sound :=
  ⟨hb.offset_le, hb.length_le, h.index_le, h.bare⟩

/-- Where entries are left, the number of the next one is no more than there are. -/
theorem Sound.index_lt (h : d.Sound) (hindex : d.index ≠ d.count) :
    d.index.toNat < d.count.toNat := by
  have hle := UInt64.le_iff_toNat_le.1 h.index_le
  have hne : d.index.toNat ≠ d.count.toNat := fun heq => hindex (UInt64.toNat.inj heq)
  omega

/-- Where entries are left, there can be some. -/
theorem Sound.not_bare (h : d.Sound) (hindex : d.index ≠ d.count) :
    Layout.Bare.isBare d.place = false := by
  rcases hbare : Layout.Bare.isBare d.place with _ | _
  · rfl
  · have hlt := h.index_lt hindex
    rw [h.bare hbare] at hlt
    exact absurd hlt (Nat.not_lt_zero _)

/-- The decoder that a step leaves has its sizes in order. -/
def Step.IsSound : Step S → Prop
  | .hidden d | .shows _ d | .ends _ d => d.Sound
  | .waits | .fails _ => True

theorem sound_enter {s : S} {h : Header} {rest : Buffer} (hrest : rest.Valid)
    (hbare : Layout.Bare.isBare s = true → h.count = 0) : (d.enter s h rest).IsSound := by
  have hvalid := Buffer.valid_discard hrest
  unfold enter
  split
  · trivial
  · exact ⟨hvalid.offset_le, hvalid.length_le, UInt64.zero_le, hbare⟩

theorem sound_complete (hd : d.Sound) (hindex : d.index ≠ d.count) {entry : Entry} {rest : Buffer}
    (hrest : rest.Valid) : (d.complete entry rest).IsSound := by
  have hvalid := Buffer.valid_discard hrest
  have hlt := hd.index_lt hindex
  have hnext : d.index + 1 ≤ d.count := by
    have hcount := d.count.toNat_lt
    rw [UInt64.le_iff_toNat_le, UInt64.toNat_add, UInt64.toNat_one]
    omega
  unfold complete
  split
  · trivial
  · dsimp only
    split
    · exact ⟨hvalid.offset_le, hvalid.length_le, hnext, hd.bare⟩
    · split
      · exact ⟨hvalid.offset_le, hvalid.length_le, hnext, hd.bare⟩
      · exact ⟨hvalid.offset_le, hvalid.length_le, hnext, hd.bare⟩

theorem sound_step (hd : d.Sound) : d.step.IsSound := by
  unfold step
  split
  · split
    · split
      · trivial
      · exact ⟨hd.offset_le, hd.length_le, hd.index_le, hd.bare⟩
    · next s hnext =>
      split
      · next hrun =>
        exact sound_enter (Reader.run_keeps hd.valid hrun).1 fun hbare =>
          Layout.Bare.count_header hnext hbare hrun
      · trivial
      · trivial
  · next hindex =>
    split
    · next hrun => exact sound_complete hd hindex (Reader.run_keeps hd.valid hrun).1
    · trivial
    · trivial

theorem sound_next (hd : d.Sound) : d.next.2.Sound := by
  have hstep := sound_step hd
  fun_induction next d with
  | case1 => exact hd
  | case2 => exact hd
  | case3 d _ d' heq ih =>
    rw [heq] at hstep
    exact ih hstep (sound_step hstep)
  | case4 d _ e d' heq =>
    rw [heq] at hstep
    exact hstep
  | case5 d _ hash d' heq =>
    rw [heq] at hstep
    exact ⟨hstep.offset_le, hstep.length_le, hstep.index_le, hstep.bare⟩
  | case6 d _ _ d' _ =>
    exact ⟨Nat.zero_le _, hd.length_le, hd.index_le, hd.bare⟩
  | case7 d _ _ d' _ => exact hd.setBuffer (Buffer.valid_rewind hd.valid)
  | case8 d _ e _ => exact ⟨hd.offset_le, hd.length_le, hd.index_le, hd.bare⟩

theorem sound_push (hd : d.Sound) {chunk : Bytes} (h : d.push chunk = .ok d') : d'.Sound := by
  unfold push at h
  split at h
  · cases h
  · cases h
  · rcases hbuffer : d.buffer.push chunk with e | b
    · rw [hbuffer] at h
      cases h
    · rw [hbuffer] at h
      cases h
      exact hd.setBuffer (Buffer.valid_push hbuffer)

theorem sound_call (hd : d.Sound) (c : Call) : (d.call c).2.Sound := by
  cases c with
  | push chunk =>
    rw [call]
    rcases hpush : d.push chunk with e | d'
    · exact hd
    · exact sound_push hd hpush
  | next => exact sound_next hd

end Decoder

/-! ## Nothing out of range -/

namespace Checked

section buffers

variable {size : Nat} {b : Buffer}

theorem word_eq {n : Nat} (h : n < size) : word size n = some n := if_pos h

theorem add_eq {m n : Nat} (h : m + n < size) : add size m n = some (m + n) := word_eq h

theorem sub_eq {m n : Nat} (h : n ≤ m) : sub m n = some (m - n) := if_pos h

theorem slice_eq {i n : Nat} (h : i + n ≤ 510) :
    slice b i n = some ⟨b.slice i n, b.length_slice i n⟩ :=
  if_pos h

theorem write_eq {store : Vector UInt8 510} {i : Nat} {bs : Bytes} (h : i + bs.length ≤ 510) :
    write store i bs = some (Buffer.overwrite store i bs) :=
  if_pos h

/-- A chunk of which the length can be added to that of the buffer is pushed as it should be. -/
theorem pushBuffer_eq {chunk : Bytes} (h : b.length + chunk.length < size) :
    pushBuffer size b chunk = some (b.push chunk) := by
  rw [pushBuffer, add_eq h, Buffer.push]
  by_cases hroom : b.length + chunk.length > Buffer.capacity
  · simp only [Option.bind_eq_bind, Option.bind_some, if_pos hroom]
  · have hwrite : write b.store b.length chunk = _ := write_eq (Nat.not_lt.1 hroom)
    simp only [Option.bind_eq_bind, Option.bind_some, if_neg hroom, hwrite]

/-- No read goes further than the bytes that are held. -/
theorem take_eq (hsize : 510 < size) (hb : b.Valid) (n : Nat) :
    take size b n = some (b.take n) := by
  have hoffset := hb.offset_le
  have hlength := hb.length_le
  rw [take, sub_eq hoffset, Buffer.take]
  by_cases hunread : b.unreadLength < n
  · have hunread' : b.length - b.offset < n := hunread
    simp only [Option.bind_eq_bind, Option.bind_some, if_pos hunread, if_pos hunread']
  · have hunread' : ¬ b.length - b.offset < n := hunread
    have hword : word size n = some n := word_eq (by omega)
    have hslice : slice b b.offset n = _ := slice_eq (by omega)
    have hadd : add size b.offset n = _ := add_eq (by omega)
    simp only [Option.bind_eq_bind, Option.bind_some, if_neg hunread, if_neg hunread', hword,
      hslice, hadd]

theorem discard_eq (hb : b.Valid) : discard b = some b.discard := by
  have hoffset := hb.offset_le
  have hlength := hb.length_le
  have hslice : slice b b.offset (b.length - b.offset) = _ := slice_eq (by omega)
  have hwrite : write b.store 0 (b.slice b.offset (b.length - b.offset)) = _ :=
    write_eq (by rw [Buffer.length_slice]; omega)
  rw [discard, sub_eq hoffset]
  simp only [Option.bind_eq_bind, Option.bind_some, hslice, hwrite]
  rfl

/-- A reader comes to what it should, and leaves the offset within the bytes that are held. -/
theorem run_eq {α : Type} (hsize : 510 < size) (r : Reader α) (hb : b.Valid) :
    ∃ offset, offset ≤ b.length ∧ run size r b = some (r.run b, { b with offset }) := by
  induction r generalizing b with
  | done a => exact ⟨b.offset, hb.offset_le, rfl⟩
  | refuse e => exact ⟨b.offset, hb.offset_le, rfl⟩
  | take n next ih =>
    rw [run, take_eq hsize hb, Reader.run]
    rcases htake : b.take n with _ | ⟨x, rest⟩
    · exact ⟨b.offset, hb.offset_le, rfl⟩
    · obtain ⟨offset, hle, hrun⟩ := ih x (Buffer.valid_take hb htake)
      -- the read before has moved the offset and nothing else
      obtain ⟨-, -, rfl⟩ := Buffer.eq_of_take htake
      exact ⟨offset, hle, hrun⟩

/-- The covered part of an element is within the element. -/
theorem record_eq (t : Transcript) (element : Bytes) (cover : Coverage) :
    record t element cover = some (t.record element cover) := by
  rcases cover with _ | n | _
  · rfl
  · rw [record, front, if_pos (Nat.min_le_right _ _), ← List.take_eq_take_min]
    rfl
  · rfl

theorem advance_eq (hb : b.Valid) (t : Transcript) (cover : Coverage) :
    advance t cover b = some ((t.record b.readBytes cover).map (·, b.discard)) := by
  have hoffset := hb.offset_le
  have hlength := hb.length_le
  have hslice : slice b 0 b.offset = some ⟨b.readBytes, b.length_slice 0 b.offset⟩ :=
    slice_eq (by omega)
  rw [advance, hslice]
  simp only [Option.bind_eq_bind, Option.bind_some, record_eq]
  rcases t.record b.readBytes cover with e | t'
  · rfl
  · rw [discard_eq hb]
    rfl

end buffers

variable {S : Type} [Layout S] [Layout.Bare S] {size : Nat} {d m : Decoder S}

omit [Layout S] [Layout.Bare S] in
theorem enter_eq {rest : Buffer} (hrest : rest.Valid) (s : S) (h : Header) :
    enter d s h rest = some (d.enter s h rest) := by
  rw [enter, advance_eq hrest, Decoder.enter]
  rcases d.transcript.record rest.readBytes h.cover with e | t <;> rfl

/-- An entry can be counted where one is left. -/
theorem complete_eq (hd : d.Sound) (hindex : d.index ≠ d.count) {rest : Buffer}
    (hrest : rest.Valid) (entry : Entry) :
    complete d entry rest = some (d.complete entry rest) := by
  have hsucc : succ d.index = some (d.index + 1) := by
    have hlt := hd.index_lt hindex
    have hcount := d.count.toNat_lt
    exact if_pos (Nat.lt_of_le_of_lt hlt hcount)
  rw [complete, Decoder.complete]
  rcases d.transcript.write entry.lead with e | t
  · rfl
  · simp only [advance_eq hrest, Option.bind_eq_bind, Option.bind_some, Except.bind]
    rcases t.record rest.readBytes entry.cover with e | t'
    · rfl
    · simp only [Except.map, hsucc, Option.bind_some]
      rcases entry.payment with _ | payment
      · rfl
      · dsimp only
        split <;> rfl

/-- A step does what it should, and never reads an entry where there can be none. -/
theorem step_eq (hsize : 510 < size) (hd : d.Sound) :
    ∃ offset, offset ≤ d.buffer.length ∧
      step size d = some (d.step, { d.buffer with offset }) := by
  rw [step, Decoder.step]
  by_cases hindex : d.index = d.count
  · rw [if_pos hindex, if_pos hindex]
    rcases Layout.next? d.place with _ | s
    · refine ⟨d.buffer.offset, hd.offset_le, ?_⟩
      rcases d.transcript.close with e | ⟨hash, transcript⟩ <;> rfl
    · obtain ⟨offset, hle, hrun⟩ := run_eq hsize (Layout.header d.sigIndex s) hd.valid
      refine ⟨offset, hle, ?_⟩
      dsimp only
      rw [hrun]
      rcases hread : (Layout.header d.sigIndex s).run d.buffer with ⟨h, rest⟩ | _ | e
      · simp only [Option.bind_eq_bind, Option.bind_some,
          enter_eq (Reader.run_keeps hd.valid hread).1, Option.map_some]
      · rfl
      · rfl
  · obtain ⟨offset, hle, hrun⟩ :=
      run_eq hsize (Layout.entry d.sigIndex d.place d.index) hd.valid
    refine ⟨offset, hle, ?_⟩
    rw [if_neg hindex, if_neg hindex, hd.not_bare hindex, if_neg Bool.false_ne_true, hrun]
    rcases hread : (Layout.entry d.sigIndex d.place d.index).run d.buffer with ⟨entry, rest⟩ | _ | e
    · simp only [Option.bind_eq_bind, Option.bind_some,
        complete_eq hd hindex (Reader.run_keeps hd.valid hread).1, Option.map_some]
    · rfl
    · rfl

/-! ## Requests, chunks and calls -/

/-- The decoder on a machine is the decoder, but for the offset once decoding has ended. -/
def Mirrors (m d : Decoder S) : Prop :=
  ∃ offset, offset ≤ d.buffer.length ∧ m = { d with buffer := { d.buffer with offset } } ∧
    (d.outcome = none → m = d)

theorem Mirrors.refl (hd : d.Sound) : Mirrors d d :=
  ⟨d.buffer.offset, hd.offset_le, rfl, fun _ => rfl⟩

omit [Layout S] [Layout.Bare S] in
/-- Once decoding has ended, the offset may be anywhere. -/
theorem Mirrors.ended {offset : Nat} (hle : offset ≤ d.buffer.length)
    {r : Except DecodeError Digest} (h : d.outcome = some r) :
    Mirrors { d with buffer := { d.buffer with offset } } d := by
  refine ⟨offset, hle, rfl, fun hnone => ?_⟩
  rw [h] at hnone
  cases hnone

/-- The sizes of a decoder on a machine are in order. -/
theorem Mirrors.sound (h : Mirrors m d) (hd : d.Sound) : m.Sound := by
  obtain ⟨offset, hle, rfl, -⟩ := h
  exact hd.setBuffer ⟨hle, hd.length_le⟩

/-- While decoding goes on, a request takes a step. -/
theorem next_of_step (houtcome : d.outcome = none) {s : Decoder.Step S} {left : Buffer} :
    step size d = some (s, left) → next size d = match s with
      | .hidden d' => if d'.measure < d.measure then next size d' else none
      | .shows e d' => some (.ok (.element e), d')
      | .ends hash d' => some (.ok (.finished hash), { d' with outcome := some (.ok hash) })
      | .waits =>
        if left.rewind.isFull then
          some (Decoder.fail { d with buffer := left.rewind } .bufferExhausted)
        else some (.ok .needsMore, { d with buffer := left.rewind })
      | .fails e => some (Decoder.fail { d with buffer := left } e) := by
  intro hstep
  rw [next]
  split
  · next hended =>
    rw [houtcome] at hended
    cases hended
  · next hended =>
    rw [houtcome] at hended
    cases hended
  · rw [hstep]
    cases s <;> rfl

/-- A request finds what it should, and comes to an end. -/
theorem next_eq (hsize : 510 < size) (hd : d.Sound) :
    ∃ m, next size d = some (d.next.1, m) ∧ Mirrors m d.next.2 := by
  have hsound := Decoder.sound_step hd
  obtain ⟨offset, hle, hstep⟩ := step_eq hsize hd
  fun_induction Decoder.next d generalizing offset with
  | case1 d e houtcome => exact ⟨d, by rw [next, houtcome], .refl hd⟩
  | case2 d hash houtcome => exact ⟨d, by rw [next, houtcome], .refl hd⟩
  | case3 d houtcome d' heq ih =>
    rw [heq] at hsound hstep
    obtain ⟨offset', hle', hstep'⟩ := step_eq hsize hsound
    obtain ⟨m, hnext, hm⟩ := ih hsound (Decoder.sound_step hsound) offset' hle' hstep'
    have hless : d'.measure < d.measure := Decoder.measure_step (by rw [heq]; rfl)
    exact ⟨m, ((next_of_step houtcome hstep).trans (if_pos hless)).trans hnext, hm⟩
  | case4 d houtcome e d' heq =>
    rw [heq] at hsound hstep
    exact ⟨d', next_of_step houtcome hstep, .refl hsound⟩
  | case5 d houtcome hash d' heq =>
    rw [heq] at hsound hstep
    exact ⟨_, next_of_step houtcome hstep, .ended hsound.offset_le rfl⟩
  | case6 d houtcome heq d' hfull =>
    rw [heq] at hstep
    exact ⟨_, (next_of_step houtcome hstep).trans (if_pos hfull), .ended (Nat.zero_le _) rfl⟩
  | case7 d houtcome heq d' hroom =>
    rw [heq] at hstep
    exact ⟨_, (next_of_step houtcome hstep).trans (if_neg hroom), 0, Nat.zero_le _, rfl,
      fun _ => rfl⟩
  | case8 d houtcome e heq =>
    rw [heq] at hstep
    -- the offset stays where the reader has left it
    exact ⟨_, next_of_step houtcome hstep, .ended hle rfl⟩

omit [Layout S] [Layout.Bare S] in
/-- A chunk of which the length can be added to that of the buffer is taken or refused as it should
be. -/
theorem push_eq {chunk : Bytes} (h : d.buffer.length + chunk.length < size) :
    push size d chunk = some (d.push chunk) := by
  rw [push, Decoder.push, pushBuffer_eq h]
  rcases d.outcome with _ | e | hash <;> rfl

/-- At the end nothing is done any more. -/
theorem call_atEnd {r : Except DecodeError Digest} (h : m.outcome = some r) (c : Call) :
    call size m c = some (c.sightAtEnd r, m) := by
  cases c with
  | push chunk =>
    rw [call, push, h]
    rcases r with e | hash <;> rfl
  | next =>
    rw [call, next, h]
    rcases r with e | hash <;> rfl

/-- A call is answered as it should be, if its chunk is not longer than strings can be. -/
theorem call_eq (hsize : 65536 ≤ size) (hd : d.Sound) (hm : Mirrors m d) {c : Call}
    (hc : 2 * c.length < size) :
    ∃ m', call size m c = some ((d.call c).1, m') ∧ Mirrors m' (d.call c).2 := by
  rcases houtcome : d.outcome with _ | r
  · obtain ⟨-, -, -, hsame⟩ := hm
    obtain rfl := hsame houtcome
    cases c with
    | push chunk =>
      have hfits : m.buffer.length + chunk.length < size := by
        have hlength := hd.length_le
        have hchunk : 2 * chunk.length < size := hc
        omega
      rw [call, push_eq hfits, Decoder.call]
      rcases hpush : m.push chunk with e | d'
      · exact ⟨m, rfl, .refl hd⟩
      · exact ⟨d', rfl, .refl (Decoder.sound_push hd hpush)⟩
    | next =>
      have hbuffer : 510 < size := by omega
      obtain ⟨m', hnext, hm'⟩ := next_eq hbuffer hd
      refine ⟨m', ?_, hm'⟩
      rw [call, hnext]
      rfl
  · have hended : m.outcome = some r := by
      obtain ⟨offset, -, rfl, -⟩ := hm
      exact houtcome
    rw [Decoder.call_atEnd houtcome]
    exact ⟨m, call_atEnd hended c, hm⟩

/-- Every sequence of calls is answered as it should be, and the sizes stay in order. -/
theorem observe_eq (hsize : 65536 ≤ size) (hd : d.Sound) (hm : Mirrors m d) {cs : List Call}
    (hcs : ∀ c ∈ cs, 2 * c.length < size) :
    ∃ m', observe size m cs = some ((d.observe cs).1, m') ∧ Mirrors m' (d.observe cs).2 ∧
      (d.observe cs).2.Sound := by
  induction cs generalizing d m with
  | nil => exact ⟨m, rfl, hm, hd⟩
  | cons c cs ih =>
    obtain ⟨hc, hcs⟩ := List.forall_mem_cons.1 hcs
    obtain ⟨m₁, hcall, hm₁⟩ := call_eq hsize hd hm hc
    obtain ⟨m₂, hobserve, hm₂, hsound⟩ := ih (Decoder.sound_call hd c) hm₁ hcs
    refine ⟨m₂, ?_, hm₂, hsound⟩
    rw [observe, hcall]
    simp only [Option.bind_eq_bind, Option.bind_some, hobserve]
    rfl

/-- On a machine the calls are answered as they should be, without a number or a byte out of range
on the way, and without a look at entries where there can be none. After them the sizes are in
order, and the decoder is as it should be, but for the offset once decoding has ended. -/
def Runs (size : Nat) (d : Decoder S) (cs : List Call) : Prop :=
  ∃ m, observe size d cs = some ((d.observe cs).1, m) ∧ m.Sound ∧
    available m = some (d.observe cs).2.available ∧
    (m.outcome = none → m = (d.observe cs).2)

theorem runs_new (hsize : 65536 ≤ size) (sigIndex : UInt16) (change : Option Address)
    {cs : List Call} (hcs : ∀ c ∈ cs, 2 * c.length < size) :
    Runs size (Decoder.new sigIndex change : Decoder S) cs := by
  have hnew : (Decoder.new sigIndex change : Decoder S).Sound := Decoder.sound_new sigIndex change
  obtain ⟨m, hobserve, hm, hsound⟩ := observe_eq hsize hnew (.refl hnew) hcs
  refine ⟨m, hobserve, hm.sound hsound, ?_, ?_⟩
  · obtain ⟨offset, -, rfl, -⟩ := hm
    exact sub_eq hsound.length_le
  · obtain ⟨offset, -, rfl, hsame⟩ := hm
    exact hsame

end Checked

/-- On every machine with words of 16 bits or more both decoders answer all calls, whatever the
bytes say. No string of bytes is as long as half of the numbers that fit a word. -/
theorem runs_on_every_machine (size : Nat) (hsize : 65536 ≤ size) (sigIndex : UInt16)
    (change : Option Address) (cs : List Call) (hcs : ∀ c ∈ cs, 2 * c.length < size) :
    Checked.Runs size (Decoder.new sigIndex change : Decoder V1.Section) cs ∧
      Checked.Runs size (Decoder.new sigIndex change : Decoder V2.Section) cs :=
  ⟨Checked.runs_new hsize sigIndex change hcs, Checked.runs_new hsize sigIndex change hcs⟩

/-- As many inputs as can be counted, of which the first has as many keys. -/
def V1.countlessInputs : List Call :=
  [.push (List.replicate 8 255), .next, .push (List.replicate 255 255), .next]

theorem runs_countlessInputs :
    (∀ c ∈ V1.countlessInputs, 2 * c.length < 65536) ∧
      Checked.Runs 65536 (Decoder.new 0 none : Decoder V1.Section) V1.countlessInputs := by
  have hcs : ∀ c ∈ V1.countlessInputs, 2 * c.length < 65536 := by
    decide +kernel
  exact ⟨hcs, (runs_on_every_machine 65536 (by decide) 0 none V1.countlessInputs hcs).1⟩

end Countersign
