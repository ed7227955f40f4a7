import Countersign.Proofs.Survey
import Countersign.Txn.Schedule

/-!
# The delivery of a transaction

However the bytes of a transaction are cut into chunks, and however often the decoder is asked in
between, it finds what the survey of the bytes says. The argument has three steps, each for bytes
`more` that are still to come:

* a decoder that is not at its end is `Live`: it holds the bytes of an unfinished piece from their
  start, and a step reads the next piece from them (`matches_step`);
* an answer of the decoder is the beginning of the survey, and what the decoder is left with is the
  rest of it (`answers_next`);
* a schedule is a sequence of such answers (`survey_of_isSchedule`).

So two schedules over the same bytes end alike.
-/

namespace Countersign

/-! ## Runs of readers -/

namespace Buffer

/-- A buffer at its start has all its bytes unread. -/
theorem unread_of_start {b : Buffer} (h : b.offset = 0) : b.unread = b.queue.bytes := by
  rw [unread, unreadLength, h, Nat.sub_zero]
  rfl

/-- The bytes of a buffer are those that have been read and those that have not. -/
theorem slice_length_eq {b : Buffer} (hb : b.Valid) :
    b.slice 0 b.length = b.readBytes ++ b.unread := by
  have hlength : b.length = b.offset + b.unreadLength := by
    have hoffset := hb.offset_le
    unfold unreadLength
    omega
  conv => lhs; rw [hlength, slice_add, Nat.zero_add]
  rfl

/-- Dropping what has been read leaves what has not. -/
theorem bytes_discard {b : Buffer} (hb : b.Valid) : b.discard.queue.bytes = b.unread := by
  rw [queue_discard hb]
  show (b.slice 0 b.length).drop b.offset = b.unread
  rw [slice_length_eq hb]
  exact List.drop_left' (length_slice b 0 b.offset)

end Buffer

namespace Reader

variable {α : Type}

/-- A run moves the offset and nothing else. -/
theorem run_keeps {r : Reader α} {b rest : Buffer} {a : α} (hb : b.Valid)
    (h : r.run b = .complete a rest) :
    rest.Valid ∧ rest.store = b.store ∧ rest.length = b.length := by
  induction r generalizing b with
  | done a' =>
    cases h
    exact ⟨hb, rfl, rfl⟩
  | refuse e => cases h
  | take n next ih =>
    unfold run at h
    split at h
    · cases h
    · next x b' hx =>
      -- one read moves the offset, and the other reads are the induction hypothesis
      have hkept := ih x (Buffer.valid_take hb hx) h
      obtain ⟨-, -, rfl⟩ := Buffer.eq_of_take hx
      exact hkept

/-- A run from the start of a buffer reads its bytes. -/
theorem map_unread_run_of_start (r : Reader α) {b : Buffer} (h : b.offset = 0) :
    (r.run b).map Buffer.unread = r.parse b.queue.bytes := by
  rw [map_unread_run, Buffer.unread_of_start h]

/-- A run from the start of a buffer finds a value at the front of its bytes; what has been read is
the value, and what is left after dropping it is behind it. -/
theorem accepts_of_run {r : Reader α} {b rest : Buffer} {a : α} (hb : b.Valid)
    (hstart : b.offset = 0) (h : r.run b = .complete a rest) :
    r.Accepts rest.readBytes a ∧
      b.queue.bytes = rest.readBytes ++ rest.discard.queue.bytes := by
  obtain ⟨hvalid, hstore, hlength⟩ := run_keeps hb h
  have hbytes : b.queue.bytes = rest.readBytes ++ rest.unread := by
    rw [← Buffer.slice_length_eq hvalid, hlength]
    show b.slice 0 b.length = rest.slice 0 b.length
    rw [Buffer.slice, Buffer.slice, hstore]
  have hparse : r.parse b.queue.bytes = .complete a rest.unread := by
    rw [← map_unread_run_of_start r hstart, h]
    rfl
  obtain ⟨w, hw, haccepts⟩ := parse_eq_complete_iff.1 hparse
  -- both splits of the bytes leave the same rest, so the value is what has been read
  have hread : w = rest.readBytes := List.append_cancel_right (hw.symm.trans hbytes)
  rw [hread] at haccepts
  rw [Buffer.bytes_discard hvalid]
  exact ⟨haccepts, hbytes⟩

theorem parse_of_run_short {r : Reader α} {b : Buffer} (hstart : b.offset = 0)
    (h : r.run b = .short) : r.parse b.queue.bytes = .short := by
  rw [← map_unread_run_of_start r hstart, h]
  rfl

theorem parse_of_run_refused {r : Reader α} {b : Buffer} {e : DecodeError}
    (hstart : b.offset = 0) (h : r.run b = .refused e) : r.parse b.queue.bytes = .refused e := by
  rw [← map_unread_run_of_start r hstart, h]
  rfl

end Reader

namespace Decoder

variable {S : Type} [Layout S]

/-! ## Decoders and positions -/

/-- The position of a decoder. -/
def position (d : Decoder S) : Position S :=
  ⟨d.sigIndex, d.change, d.transcript.bytes, d.place, d.count, d.index, d.shown⟩

/-- The bytes that a decoder holds. -/
def held (d : Decoder S) : Bytes := d.buffer.queue.bytes

/-- Decoding goes on: the buffer is at the start of a piece, and the transcript is open. -/
structure Live (d : Decoder S) : Prop where
  valid : d.buffer.Valid
  atStart : d.buffer.offset = 0
  isOpen : d.transcript.isSealed = false
  outcome : d.outcome = none

theorem live_new (sigIndex : UInt16) (change : Option Address) :
    (new sigIndex change : Decoder S).Live :=
  ⟨Buffer.valid_empty, rfl, Layout.isSealed_opening, rfl⟩

omit [Layout S] in
theorem length_held (d : Decoder S) : d.held.length = d.buffer.length := Buffer.length_slice _ _ _

omit [Layout S] in
theorem Live.length_le {d : Decoder S} (hd : d.Live) : d.held.length ≤ 510 :=
  d.length_held ▸ hd.valid.length_le

/-! ## Steps -/

/-- What a step says about the bytes that a decoder holds, with `more` behind them. -/
def Step.Matches (d : Decoder S) (more : Bytes) : Step S → Prop
  | .hidden d' =>
    d'.Live ∧ d.position.read (d.held ++ more) = .moves d'.position none (d'.held ++ more)
  | .shows e d' =>
    d'.Live ∧ d.position.read (d.held ++ more) = .moves d'.position (some e) (d'.held ++ more)
  | .ends hash d' =>
    d'.position = d.position ∧ hash = Blake2b.digest d.position.covered ∧
      d.position.read (d.held ++ more) = .ends
  | .waits =>
    (d.held.length = 510 → d.position.read (d.held ++ more) = .fails .bufferExhausted) ∧
      (d.held.length < 510 → d.position.read d.held = .waits)
  | .fails e => d.position.read (d.held ++ more) = .fails e

omit [Layout S] in
theorem take_held_append (d : Decoder S) (hd : d.Live) (more : Bytes) :
    (d.held ++ more).take Buffer.capacity = d.held ++ more.take (510 - d.held.length) := by
  rw [Buffer.capacity, List.take_append, List.take_of_length_le hd.length_le]

section pieces

variable {α : Type} {piece : α → Piece S} {r : Reader α} {d : Decoder S}

/-- A run that is short waits for more bytes, unless the buffer is full. -/
theorem matches_waits (hd : d.Live) (more : Bytes)
    (hr : d.position.reader? = some (piece <$> r)) (hrun : r.run d.buffer = .short) :
    Step.Matches d more .waits := by
  have hparse : (piece <$> r).parse d.held = .short := by
    rw [Reader.parse_map, held, Reader.parse_of_run_short hd.atStart hrun]
  apply And.intro
  · intro hfull
    -- the window is all that the decoder holds, and nothing behind it is seen
    have hwindow : (d.held ++ more).take Buffer.capacity = d.held := by
      rw [take_held_append d hd, hfull, Nat.sub_self, List.take_zero, List.append_nil]
    have hlong : ¬ (d.held ++ more).length < Buffer.capacity := by
      rw [List.length_append, Buffer.capacity]
      omega
    simp only [Position.read, hr, hwindow, hparse, if_neg hlong]
  · intro hroom
    have hwindow : d.held.take Buffer.capacity = d.held :=
      List.take_of_length_le hd.length_le
    have hshort : d.held.length < Buffer.capacity := hroom
    simp only [Position.read, hr, hwindow, hparse, if_pos hshort]

/-- A run that is refused is refused whatever follows. -/
theorem matches_fails (hd : d.Live) {e : DecodeError} (more : Bytes)
    (hr : d.position.reader? = some (piece <$> r)) (hrun : r.run d.buffer = .refused e) :
    Step.Matches d more (.fails e) := by
  have hparse : (piece <$> r).parse d.held = .refused e := by
    rw [Reader.parse_map, held, Reader.parse_of_run_refused hd.atStart hrun]
  have hwindow : (piece <$> r).parse ((d.held ++ more).take Buffer.capacity) = .refused e := by
    rw [take_held_append d hd]
    exact Reader.parse_append_of_refused hparse _
  show d.position.read (d.held ++ more) = .fails e
  simp only [Position.read, hr, hwindow]

/-- A run that is complete reads a piece, and what is left in the buffer is behind it. -/
theorem read_of_run (hd : d.Live) {a : α} {rest : Buffer} (more : Bytes)
    (hr : d.position.reader? = some (piece <$> r)) (hrun : r.run d.buffer = .complete a rest) :
    d.position.read (d.held ++ more) = .moves (d.position.after rest.readBytes (piece a))
      (d.position.shows (piece a)) (rest.discard.queue.bytes ++ more) := by
  obtain ⟨haccepts, hheld⟩ := Reader.accepts_of_run hd.valid hd.atStart hrun
  have hlen : rest.readBytes.length ≤ 510 := by
    have hle := hd.length_le
    rw [held, hheld, List.length_append] at hle
    omega
  rw [held, hheld, List.append_assoc]
  exact Position.read_append hr (Reader.accepts_map.2 ⟨a, haccepts, rfl⟩) hlen _

end pieces

/-- An open transcript takes the covered part of a piece. -/
theorem record_isOpen {t : Transcript} (ht : t.isSealed = false) (w : Bytes) (c : Coverage) :
    ∃ t', t.record w c = .ok t' ∧ t'.isSealed = false ∧ t'.bytes = t.bytes ++ c.part w := by
  have hwrite : ∀ bs, t.write bs = .ok { t with written := bs :: t.written } := by
    intro bs
    rw [Transcript.write, ht]
    rfl
  rcases c with _ | n | _
  · have h : t.record w .all = _ := hwrite w
    exact ⟨_, h, ht, Transcript.bytes_record h⟩
  · have h : t.record w (.front n) = _ := hwrite (w.take n)
    exact ⟨_, h, ht, Transcript.bytes_record h⟩
  · exact ⟨t, rfl, ht, Transcript.bytes_record rfl⟩

/-- Entering a section is reading its header. -/
theorem matches_enter {d : Decoder S} (hd : d.Live) {s : S} {h : Header} {rest : Buffer}
    (more : Bytes) (hr : d.position.reader? = some (Piece.header s <$> Layout.header d.sigIndex s))
    (hrun : (Layout.header d.sigIndex s).run d.buffer = .complete h rest) :
    (d.enter s h rest).Matches d more := by
  obtain ⟨hvalid, -, -⟩ := Reader.run_keeps hd.valid hrun
  obtain ⟨t, ht, hopen, hbytes⟩ := record_isOpen hd.isOpen rest.readBytes h.cover
  rw [enter, ht]
  refine ⟨⟨Buffer.valid_discard hvalid, rfl, hopen, hd.outcome⟩, ?_⟩
  rw [read_of_run hd more hr hrun]
  simp only [Position.after, Position.shows, position, hbytes, held]

/-- The change address is the only one that is not shown. -/
theorem isShown_iff {payment : Payment} {change : Option Address} :
    payment.IsShown change ↔ ¬ (payment.address.isSome ∧ payment.address = change) := by
  unfold Payment.IsShown
  rcases payment.address with _ | a
  · simp
  · simp

/-- Completing an entry is reading it. -/
theorem matches_complete {d : Decoder S} (hd : d.Live) {entry : Entry} {rest : Buffer}
    (more : Bytes)
    (hr : d.position.reader? = some (Piece.entry <$> Layout.entry d.sigIndex d.place d.index))
    (hrun : (Layout.entry d.sigIndex d.place d.index).run d.buffer = .complete entry rest) :
    (d.complete entry rest).Matches d more := by
  obtain ⟨hvalid, -, -⟩ := Reader.run_keeps hd.valid hrun
  -- the lead is written, and then the covered part of the entry
  obtain ⟨t₁, ht₁, hopen₁, hbytes₁⟩ := record_isOpen hd.isOpen entry.lead .all
  obtain ⟨t₂, ht₂, hopen₂, hbytes₂⟩ := record_isOpen hopen₁ rest.readBytes entry.cover
  have hwritten : (d.transcript.write entry.lead).bind (·.record rest.readBytes entry.cover) =
      .ok t₂ := by
    rw [show d.transcript.write entry.lead = .ok t₁ from ht₁]
    exact ht₂
  have hcovered : t₂.bytes =
      d.transcript.bytes ++ entry.lead ++ entry.cover.part rest.readBytes := by
    rw [hbytes₂, hbytes₁]
    rfl
  have hlive : ∀ index shown,
      Live { d with buffer := rest.discard, transcript := t₂, index, shown } := by
    intro index shown
    exact ⟨Buffer.valid_discard hvalid, rfl, hopen₂, hd.outcome⟩
  have hread := read_of_run hd more hr hrun
  rw [complete, hwritten]
  dsimp only
  -- the counter moves only with an element that is shown
  rcases hpayment : entry.payment with _ | payment
  · refine ⟨hlive _ _, hread.trans ?_⟩
    simp [Position.after, Position.shows, position, hcovered, held, hpayment]
  · by_cases hchange : payment.address.isSome ∧ payment.address = d.change
    · have hhidden : ¬ payment.IsShown d.change := by
        rw [isShown_iff]
        exact fun hshown => hshown hchange
      dsimp only
      rw [if_pos hchange]
      refine ⟨hlive _ _, hread.trans ?_⟩
      simp [Position.after, Position.shows, position, hcovered, held, hpayment, hhidden]
    · have hshown : payment.IsShown d.change := isShown_iff.2 hchange
      dsimp only
      rw [if_neg hchange]
      refine ⟨hlive _ _, hread.trans ?_⟩
      simp [Position.after, Position.shows, position, hcovered, held, hpayment, hshown,
        Payment.numbered]

/-- A step of a decoder reads the next piece from the bytes that it holds, whatever follows. -/
theorem matches_step {d : Decoder S} (hd : d.Live) (more : Bytes) : d.step.Matches d more := by
  unfold step
  split
  · next hcount =>
    split
    · next hlast =>
      have hends : d.position.reader? = none :=
        (Position.reader?_header hcount).trans (Option.map_eq_none_iff.2 hlast)
      have hclose : d.transcript.close =
          .ok (Blake2b.digest d.transcript.bytes, { d.transcript with isSealed := true }) := by
        rw [Transcript.close, hd.isOpen]
        rfl
      rw [hclose]
      refine ⟨rfl, rfl, ?_⟩
      simp only [Position.read, hends]
    · next s hnext =>
      have hr : d.position.reader? = some (Piece.header s <$> Layout.header d.sigIndex s) := by
        refine (Position.reader?_header hcount).trans ?_
        show (Layout.next? d.place).map _ = _
        rw [hnext]
        rfl
      split
      · next h rest hrun => exact matches_enter hd more hr hrun
      · next hrun => exact matches_waits hd more hr hrun
      · next e hrun => exact matches_fails hd more hr hrun
  · next hcount =>
    have hr : d.position.reader? =
        some (Piece.entry <$> Layout.entry d.sigIndex d.place d.index) :=
      Position.reader?_entry hcount
    split
    · next entry rest hrun => exact matches_complete hd more hr hrun
    · next hrun => exact matches_waits hd more hr hrun
    · next e hrun => exact matches_fails hd more hr hrun

/-! ## Answers -/

/-- What an answer says about the bytes that a decoder holds, with `more` behind them. -/
def Answers (d : Decoder S) (more : Bytes) : Except DecodeError Finding × Decoder S → Prop
  | (.ok (.element e), d') =>
    d'.Live ∧
      d.position.survey (d.held ++ more) = (d'.position.survey (d'.held ++ more)).prepend [e]
  | (.ok .needsMore, d') =>
    d'.Live ∧ d'.held.length < 510 ∧
      d.position.survey (d.held ++ more) = d'.position.survey (d'.held ++ more) ∧
      d'.position.survey d'.held = ⟨[], .ok .needsMore, d'.position⟩
  | (.ok (.finished hash), d') =>
    d'.outcome.isSome ∧
      d.position.survey (d.held ++ more) = ⟨[], .ok (.finished hash), d'.position⟩
  | (.error e, d') =>
    d'.outcome.isSome ∧ d.position.survey (d.held ++ more) = ⟨[], .error e, d'.position⟩

/-- A step that shows nothing leaves the answer to the decoder after it. -/
theorem answers_of_hidden {d d' : Decoder S} {more : Bytes}
    {answer : Except DecodeError Finding × Decoder S}
    (hread : d.position.read (d.held ++ more) = .moves d'.position none (d'.held ++ more))
    (h : d'.Answers more answer) : d.Answers more answer := by
  have hsurvey : d.position.survey (d.held ++ more) = d'.position.survey (d'.held ++ more) :=
    Position.survey_moves hread
  rcases answer with ⟨_ | (_ | e | hash), d''⟩
  · exact ⟨h.1, hsurvey.trans h.2⟩
  · exact ⟨h.1, h.2.1, hsurvey.trans h.2.2.1, h.2.2.2⟩
  · exact ⟨h.1, hsurvey.trans h.2⟩
  · exact ⟨h.1, hsurvey.trans h.2⟩

/-- An answer of a decoder is the beginning of the survey of its bytes, whatever follows them. -/
theorem answers_next {d : Decoder S} (hd : d.Live) (more : Bytes) : d.Answers more d.next := by
  -- the steps are those that `next` takes; only the last of them is seen
  fun_induction next d with
  | case1 d e houtcome => rw [hd.outcome] at houtcome; cases houtcome
  | case2 d hash houtcome => rw [hd.outcome] at houtcome; cases houtcome
  | case3 d _ d' hstep ih =>
    have hmatch := matches_step hd more
    rw [hstep] at hmatch
    exact answers_of_hidden hmatch.2 (ih hmatch.1)
  | case4 d _ e d' hstep =>
    have hmatch := matches_step hd more
    rw [hstep] at hmatch
    exact ⟨hmatch.1, Position.survey_moves hmatch.2⟩
  | case5 d _ hash d' hstep =>
    obtain ⟨hposition, rfl, hread⟩ : Step.Matches d more (.ends hash d') :=
      hstep ▸ matches_step hd more
    exact ⟨rfl, (Position.survey_ends hread).trans (by rw [← hposition]; rfl)⟩
  | case6 d _ hstep d' hfull =>
    have hmatch := matches_step hd more
    rw [hstep] at hmatch
    have hlen : d.held.length = 510 := by
      rw [length_held]
      exact beq_iff_eq.1 hfull
    exact ⟨rfl, Position.survey_fails (hmatch.1 hlen)⟩
  | case7 d _ hstep d' hroom =>
    have hmatch := matches_step hd more
    rw [hstep] at hmatch
    have hle := hd.length_le
    have hlen : d.held.length < 510 := by
      have hne : d.held.length ≠ 510 := by
        rw [length_held]
        exact fun heq => hroom (beq_iff_eq.2 heq)
      omega
    -- the unread bytes stay, and the next answer starts over from the piece
    exact ⟨⟨Buffer.valid_rewind hd.valid, rfl, hd.isOpen, hd.outcome⟩, hlen, rfl,
      Position.survey_waits (hmatch.2 hlen)⟩
  | case8 d _ e hstep =>
    have hmatch := matches_step hd more
    rw [hstep] at hmatch
    exact ⟨rfl, Position.survey_fails hmatch⟩

/-! ## Schedules -/

omit [Layout S] in
/-- A chunk that is taken is added to what a decoder holds. -/
theorem live_of_push {d d' : Decoder S} (hd : d.Live) {chunk : Bytes}
    (h : d.push chunk = .ok d') :
    d'.Live ∧ d'.position = d.position ∧ d'.held = d.held ++ chunk := by
  rw [push, hd.outcome] at h
  rcases hbuffer : d.buffer.push chunk with e | b
  · rw [hbuffer] at h
    cases h
  · rw [hbuffer] at h
    obtain rfl := Except.ok.inj h
    have hqueue := Buffer.queue_push d.buffer chunk
    rw [hbuffer, Queue.push] at hqueue
    split at hqueue
    · cases hqueue
    · have hbytes : b.queue = ⟨d.buffer.queue.bytes ++ chunk, 0⟩ := Except.ok.inj hqueue
      exact ⟨⟨Buffer.valid_push hbuffer, congrArg Queue.offset hbytes, hd.isOpen, rfl⟩,
        rfl, congrArg Queue.bytes hbytes⟩

omit [Layout S] in
/-- A chunk for which there is room is taken. -/
theorem exists_push {d : Decoder S} (hd : d.Live) {chunk : Bytes}
    (hroom : chunk.length ≤ d.available) : ∃ d', d.push chunk = .ok d' := by
  have hle := hd.valid.length_le
  have hfits : ¬ d.buffer.length + chunk.length > Buffer.capacity := by
    rw [available, Buffer.available] at hroom
    simp only [Buffer.capacity] at hroom ⊢
    omega
  rw [push, hd.outcome, Buffer.push, if_neg hfits]
  exact ⟨_, rfl⟩

omit [Layout S] in
theorem lastFinding_cons {sight : Sight} {sights : List Sight}
    {r : Except DecodeError Finding} (h : lastFinding sights = some r) :
    lastFinding (sight :: sights) = some r := by
  rw [lastFinding] at h ⊢
  rw [List.filterMap_cons]
  rcases sight.finding? with _ | r'
  · exact h
  · dsimp only
    rw [List.getLast?_cons, h]
    rfl

omit [Layout S] in
theorem pushed_cons {sight : Sight} {sights : List Sight}
    (hsight : ∀ r, sight = .pushed r → r = .ok ())
    (h : ∀ r, Sight.pushed r ∈ sights → r = .ok ()) :
    ∀ r, Sight.pushed r ∈ sight :: sights → r = .ok () := by
  intro r hr
  rcases List.mem_cons.1 hr with heq | hr
  · exact hsight r heq.symm
  · exact h r hr

/-- A schedule sees the survey of the bytes that a decoder holds and of those handed over. -/
theorem survey_of_isSchedule {d : Decoder S} (hd : d.Live) {bs : Bytes} {cs : List Call}
    (h : d.IsSchedule bs cs) :
    (∀ r, Sight.pushed r ∈ (d.observe cs).1 → r = .ok ()) ∧
      elementsSeen (d.observe cs).1 = (d.position.survey (d.held ++ bs)).elements ∧
      lastFinding (d.observe cs).1 = some (d.position.survey (d.held ++ bs)).result ∧
      (d.observe cs).2.position = (d.position.survey (d.held ++ bs)).last := by
  -- one call at a time; the bytes move from those that follow to those that are held
  induction cs generalizing d bs with
  | nil => exact h.elim
  | cons c cs ih =>
    rcases c with chunk | _
    · obtain ⟨⟨rest, rfl⟩, hroom, hrest⟩ := h
      rw [List.drop_left] at hrest
      obtain ⟨d', hpush⟩ := exists_push hd hroom
      obtain ⟨hlive, hposition, hheld⟩ := live_of_push hd hpush
      have hcall : d.call (.push chunk) = (.pushed (.ok ()), d') := by
        rw [call, hpush]
      rw [hcall] at hrest
      obtain ⟨hpushed, helements, hlast, hend⟩ := ih hlive hrest
      rw [hposition, hheld, List.append_assoc] at helements hlast hend
      rw [observe, hcall]
      refine ⟨pushed_cons (fun r heq => ?_) hpushed, helements, lastFinding_cons hlast, hend⟩
      cases heq
      rfl
    · have hanswer := answers_next hd bs
      have hfound : ∀ r, Sight.found d.next.1 = .pushed r → r = .ok () := by
        intro r heq
        cases heq
      have hcall : d.call .next = (.found d.next.1, d.next.2) := rfl
      rw [observe, hcall]
      unfold IsSchedule at h
      rcases hnext : d.next with ⟨_ | (_ | e | hash), d'⟩
      all_goals rw [hnext] at h hanswer hfound
      · -- decoding has failed, and nothing follows
        subst h
        rw [hanswer.2]
        exact ⟨by simp [observe], rfl, rfl, rfl⟩
      · obtain ⟨hlive, -, hsame, hwaits⟩ := hanswer
        rcases h with ⟨rfl, rfl⟩ | h
        · -- all bytes are there, and the piece is not complete
          rw [hsame, List.append_nil, hwaits]
          exact ⟨by simp [observe], rfl, rfl, rfl⟩
        · obtain ⟨hpushed, helements, hlast, hend⟩ := ih hlive h
          rw [hsame]
          exact ⟨pushed_cons hfound hpushed, helements, lastFinding_cons hlast, hend⟩
      · obtain ⟨hlive, hsurvey⟩ := hanswer
        obtain ⟨hpushed, helements, hlast, hend⟩ := ih hlive h
        have hall : e :: elementsSeen (d'.observe cs).1 =
            e :: (d'.position.survey (d'.held ++ bs)).elements := congrArg (e :: ·) helements
        rw [hsurvey]
        exact ⟨pushed_cons hfound hpushed, hall, lastFinding_cons hlast, hend⟩
      · -- the hash is known, and nothing follows
        subst h
        rw [hanswer.2]
        exact ⟨by simp [observe], rfl, rfl, rfl⟩

/-- Every byte string can be handed over. -/
theorem exists_isSchedule {d : Decoder S} (hd : d.Live) (bs : Bytes) :
    ∃ cs, d.IsSchedule bs cs := by
  have hanswer := answers_next hd []
  rcases hnext : d.next with ⟨_ | (_ | e | hash), d'⟩
  all_goals rw [hnext] at hanswer
  · exact ⟨[.next], by rw [IsSchedule, hnext]⟩
  · obtain ⟨hlive, hroom, -, -⟩ := hanswer
    rcases bs with _ | ⟨b, bs⟩
    · refine ⟨[.next], ?_⟩
      rw [IsSchedule, hnext]
      exact Or.inl ⟨rfl, rfl⟩
    · -- there is room for at least one more byte
      have hbyte : [b].length ≤ d'.available := by
        rw [length_held] at hroom
        rw [available, Buffer.available, Buffer.capacity, List.length_singleton]
        omega
      obtain ⟨d'', hpush⟩ := exists_push hlive hbyte
      obtain ⟨cs, hcs⟩ := exists_isSchedule (live_of_push hlive hpush).1 bs
      refine ⟨.next :: .push [b] :: cs, ?_⟩
      rw [IsSchedule, hnext]
      refine Or.inr ⟨⟨bs, rfl⟩, hbyte, ?_⟩
      rw [call, hpush]
      exact hcs
  · obtain ⟨cs, hcs⟩ := exists_isSchedule hanswer.1 bs
    refine ⟨.next :: cs, ?_⟩
    rw [IsSchedule, hnext]
    exact hcs
  · exact ⟨[.next], by rw [IsSchedule, hnext]⟩
termination_by (bs.length, d.measure)
decreasing_by
  · exact Prod.Lex.left _ _ (by simp)
  · exact Prod.Lex.right _ (measure_next hnext)

/-! ## States that a decoder can come to -/

theorem next_of_outcome {d : Decoder S} {r : Except DecodeError Digest} (h : d.outcome = some r) :
    d.next = (r.map Finding.finished, d) := by
  rw [next]
  split
  · next heq =>
    rw [h] at heq
    rw [Option.some.inj heq]
    rfl
  · next heq =>
    rw [h] at heq
    rw [Option.some.inj heq]
    rfl
  · next heq =>
    rw [h] at heq
    cases heq

/-- A decoder is live until it has an outcome, and keeps the outcome. -/
theorem live_or_ended_call {d : Decoder S} (h : d.Live ∨ d.outcome.isSome) (c : Call) :
    (d.call c).2.Live ∨ (d.call c).2.outcome.isSome := by
  rcases c with chunk | _
  · rw [call]
    rcases hpush : d.push chunk with e | d'
    · exact h
    · rcases h with hd | hended
      · exact Or.inl (live_of_push hd hpush).1
      · obtain ⟨r, hr⟩ := Option.isSome_iff_exists.1 hended
        rw [push, hr] at hpush
        rcases r with e | hash <;> cases hpush
  · show d.next.2.Live ∨ d.next.2.outcome.isSome
    rcases h with hd | hended
    · have hanswer := answers_next hd []
      rcases hnext : d.next with ⟨_ | (_ | e | hash), d'⟩
      all_goals rw [hnext] at hanswer
      · exact Or.inr hanswer.1
      · exact Or.inl hanswer.1
      · exact Or.inl hanswer.1
      · exact Or.inr hanswer.1
    · obtain ⟨r, hr⟩ := Option.isSome_iff_exists.1 hended
      rw [next_of_outcome hr]
      exact Or.inr hended

theorem live_or_ended_observe {d : Decoder S} (h : d.Live ∨ d.outcome.isSome) (cs : List Call) :
    (d.observe cs).2.Live ∨ (d.observe cs).2.outcome.isSome := by
  induction cs generalizing d with
  | nil => exact h
  | cons c cs ih => exact ih (live_or_ended_call h c)

/-- A decoder that asks for more has room for it. -/
theorem available_of_needsMore {d d' : Decoder S} (h : d.Live ∨ d.outcome.isSome)
    (hnext : d.next = (.ok .needsMore, d')) : 1 ≤ d'.available := by
  rcases h with hd | hended
  · have hanswer := answers_next hd []
    rw [hnext] at hanswer
    have hroom := hanswer.2.1
    rw [length_held] at hroom
    rw [available, Buffer.available, Buffer.capacity]
    omega
  · obtain ⟨r, hr⟩ := Option.isSome_iff_exists.1 hended
    rw [next_of_outcome hr] at hnext
    rcases r with e | hash <;> cases hnext

/-! ## Independence of the schedule -/

/-- Two schedules over the same bytes see the same elements, come to the same last finding in the
same section, and have no chunk refused; and a decoder that asks for more, at any time, has room
for it. -/
theorem schedule_independent (sigIndex : UInt16) (change : Option Address) (bs : Bytes)
    (cs cs' : List Call) (h : (new sigIndex change : Decoder S).IsSchedule bs cs)
    (h' : (new sigIndex change : Decoder S).IsSchedule bs cs') :
    (∀ r, Sight.pushed r ∈ ((new sigIndex change : Decoder S).observe cs).1 → r = .ok ()) ∧
    elementsSeen ((new sigIndex change : Decoder S).observe cs).1 =
      elementsSeen ((new sigIndex change : Decoder S).observe cs').1 ∧
    (∃ r, lastFinding ((new sigIndex change : Decoder S).observe cs).1 = some r ∧
      lastFinding ((new sigIndex change : Decoder S).observe cs').1 = some r) ∧
    ((new sigIndex change : Decoder S).observe cs).2.place =
      ((new sigIndex change : Decoder S).observe cs').2.place ∧
    ∀ (before : List Call) (d' : Decoder S),
      ((new sigIndex change : Decoder S).observe before).2.next = (.ok .needsMore, d') →
        1 ≤ d'.available := by
  have hlive : (new sigIndex change : Decoder S).Live := live_new sigIndex change
  obtain ⟨hpushed, helements, hlast, hend⟩ := survey_of_isSchedule hlive h
  obtain ⟨-, helements', hlast', hend'⟩ := survey_of_isSchedule hlive h'
  refine ⟨hpushed, helements.trans helements'.symm, ⟨_, hlast, hlast'⟩,
    congrArg Position.place (hend.trans hend'.symm), ?_⟩
  intro before d' hnext
  exact available_of_needsMore (live_or_ended_observe (Or.inl hlive) before) hnext

/-- An output and then a file contract, which is not supported. -/
def outputThenContract : Bytes :=
  bytesOfWord 0 ++ bytesOfWord 1 ++ (bytesOfWord 1 ++ [5] ++ List.replicate 32 7) ++ bytesOfWord 1

/-- The bytes in one chunk. -/
def atOnce : List Call := [.push outputThenContract, .next, .next]

/-- The bytes in three chunks, of which one is empty. -/
def inPieces : List Call :=
  [.next, .push (outputThenContract.take 5), .next, .push [], .next,
   .push (outputThenContract.drop 5), .next, .next]

theorem atOnce_eq_inPieces :
    elementsSeen ((new 0 none : Decoder V1.Section).observe atOnce).1 =
        elementsSeen ((new 0 none : Decoder V1.Section).observe inPieces).1 ∧
      ∃ r, lastFinding ((new 0 none : Decoder V1.Section).observe atOnce).1 = some r ∧
        lastFinding ((new 0 none : Decoder V1.Section).observe inPieces).1 = some r := by
  obtain ⟨-, helements, hlast, -⟩ := schedule_independent (S := V1.Section) 0 none
    outputThenContract atOnce inPieces (by decide +kernel) (by decide +kernel)
  exact ⟨helements, hlast⟩

end Decoder

end Countersign
