import Countersign.Proofs.Coherence
import Countersign.Proofs.Pieces

/-!
# The passage of a transaction

A transaction whose entries have 256 bytes at most, and of which there are no more elements than can
be reviewed, is signed however it is cut into chunks: no event is refused up to the last byte, and
then its hash waits for the user (`passes_of_split`).

A review that awaits the rest of a transaction (`Review.Awaits`) has room for the next chunk and for
all elements that are still to come. A chunk leaves it awaiting what is behind the chunk, or, when
that is nothing, with its hash (`Review.expected_push`). The rest is by induction on the chunks
(`passes_pieces`).
-/

namespace Countersign

/-! ## Reviews -/

namespace Review

/-- The review expects the bytes `more`: its decoder does, and no element will be too many. -/
structure Expects (r : Review) (more : Bytes) : Prop where
  decoder : r.decoder.Expects more
  few : (r.outlook more).1.length ≤ maxElements

/-- The review of a transaction of this purpose expects the bytes `more`, and has room for any
chunk. -/
structure Awaits (r : Review) (flags : Flags) (more : Bytes) : Prop extends r.Expects more where
  flags_eq : r.flags = flags
  room : maxChunk ≤ r.decoder.available

/-- What becomes of a review that expects the bytes `more`. -/
def Expected (more : Bytes) : Except Refusal Bool × Review → Prop
  | (.ok true, r') => more = [] ∧ r'.elements.length ≤ maxElements
  | (.ok false, r') => r'.Expects more ∧ more ≠ [] ∧ maxChunk ≤ r'.decoder.available
  | (.error _, _) => False

variable {r r' : Review} {flags : Flags} {chunk more : Bytes}

theorem Expects.length_le (hr : r.Expects more) : r.elements.length ≤ maxElements := by
  have hfew := hr.few
  rw [outlook, List.length_append] at hfew
  omega

/-- A review that expects the rest of a transaction takes all elements that are complete. -/
theorem expected_drain (hr : r.Expects more) : Expected more r.drain := by
  have hanswer := AnyDecoder.expected_next hr.decoder
  have hforetells := AnyDecoder.foretells_next hr.decoder.live
  have hfew := hr.few
  rw [outlook] at hfew
  fun_induction drain r with
  | case1 r e decoder hnext =>
    rw [hnext] at hanswer
    exact hanswer
  | case2 r decoder hnext =>
    rw [hnext] at hanswer hforetells
    obtain ⟨hexpects, hmore, hroom⟩ := hanswer
    rw [hforetells.2] at hfew
    exact ⟨⟨hexpects, hfew⟩, hmore, hroom⟩
  | case3 r hash decoder hnext =>
    rw [hnext] at hanswer hforetells
    rw [hforetells, List.append_nil] at hfew
    exact ⟨hanswer, hfew⟩
  | case4 r e decoder hnext hroom ih =>
    rw [hnext] at hanswer hforetells
    -- the element goes from the outlook of the decoder to the elements of the review
    rw [hforetells.2, List.append_cons] at hfew
    exact ih ⟨hanswer, hfew⟩ (AnyDecoder.expected_next hanswer)
      (AnyDecoder.foretells_next hforetells.1) hfew
  | case5 r e decoder hnext hfull =>
    rw [hnext] at hforetells
    rw [hforetells.2, List.length_append, List.length_cons] at hfew
    omega

/-- A chunk leaves a review that awaits it with what is behind it. -/
theorem expected_push (hr : r.Awaits flags (chunk ++ more)) (hlen : chunk.length ≤ maxChunk) :
    Expected more (r.push chunk) := by
  obtain ⟨decoder, hpush, hexpects⟩ :=
    AnyDecoder.expects_push hr.decoder (Nat.le_trans hlen hr.room)
  have houtlook := (AnyDecoder.outlook_push hr.decoder.live hpush).2 more
  have hfew := hr.few
  rw [outlook, houtlook] at hfew
  rw [push, hpush]
  exact expected_drain ⟨hexpects, hfew⟩

/-- A review that goes on awaits what is behind the chunk, and there is something. -/
theorem awaits_push (hr : r.Awaits flags (chunk ++ more)) (hlen : chunk.length ≤ maxChunk)
    (h : r.push chunk = (.ok false, r')) : r'.Awaits flags more ∧ more ≠ [] := by
  have hexpected := expected_push hr hlen
  have htakes := takes_push hr.decoder.live chunk
  rw [h] at hexpected htakes
  obtain ⟨hexpects, hmore, hroom⟩ := hexpected
  exact ⟨⟨hexpects, htakes.2.1.trans hr.flags_eq, hroom⟩, hmore⟩

end Review

/-- A transaction has some bytes. -/
theorem AnyTransaction.encode_ne_nil (t : AnyTransaction) : t.encode ≠ [] := by
  intro hnil
  have hlength := congrArg List.length hnil
  rcases t with t | t
  · simp [encode, V1.Transaction.encode, V1.Transaction.body, V1.Transaction.emptySection]
      at hlength
  · simp [encode, V2.Transaction.encode, V2.Transaction.emptySection] at hlength

/-- A new decoder has room for as much as a buffer can hold. -/
theorem AnyDecoder.available_new (format : Format) (sigIndex : UInt16) (change : Option Address) :
    (new format sigIndex change).available = Buffer.capacity := by
  rcases format with _ | _ <;> rfl

/-- The review of a new transaction awaits all of it. -/
theorem Review.awaits_new {t : AnyTransaction} {flags : Flags} {sigIndex : UInt16}
    {change : Option Address} (keyIndex : UInt32) (hformat : flags.format = t.format) (ht : t.Fits)
    (hindex : t.HasSignature sigIndex.toNat) (hentries : ∀ w ∈ t.entries, w.length ≤ 256)
    (hfew : (t.elements change).length ≤ maxElements) :
    (new keyIndex sigIndex change flags).Awaits flags t.encode := by
  have hdecoder : (AnyDecoder.new flags.format sigIndex change).Expects t.encode := by
    rw [hformat]
    exact AnyDecoder.expects_new change ht hindex hentries
  have houtlook : (AnyDecoder.new flags.format sigIndex change).outlook t.encode =
      (t.elements change, .ok (.finished (Blake2b.digest (t.covered sigIndex.toNat)))) :=
    AnyDecoder.outlook_new_iff.2
      ⟨t, [], hformat.symm, ht, hindex, (List.append_nil _).symm, rfl, rfl⟩
  have helements : ((new keyIndex sigIndex change flags).outlook t.encode).1 =
      t.elements change := by
    show [] ++ ((AnyDecoder.new flags.format sigIndex change).outlook t.encode).1 = _
    rw [houtlook]
    rfl
  refine ⟨⟨hdecoder, ?_⟩, rfl, ?_⟩
  · rw [helements]
    exact hfew
  · show maxChunk ≤ (AnyDecoder.new flags.format sigIndex change).available
    rw [AnyDecoder.available_new]
    decide

/-! ## Sessions -/

/-- The events that hand in a transaction in pieces. -/
def Event.submit (keyIndex : UInt32) (sigIndex : UInt16) (changeIndex : UInt32) (flags : Flags) :
    List Bytes → List Event
  | [] => []
  | first :: others =>
    .start keyIndex sigIndex changeIndex flags first :: others.map (.more flags)

namespace Session

variable {s : Session}

/-- No event is refused: a transaction is coming in after each of them but the last, and a hash
waits for the user after the last one. The number of elements begins with `m` and never goes
down. -/
inductive Passes : UInt16 → Session → List Event → Prop where
  | last {m n : UInt16} {s : Session} {e : Event} (h : (s.handle e).1 = .ok (.state .pending n))
      (hstate : (s.handle e).2.state = .pending) (hle : m ≤ n) : Passes m s [e]
  | earlier {m n : UInt16} {s : Session} {e : Event} {es : List Event}
      (h : (s.handle e).1 = .ok (.state .decoding n))
      (hstate : (s.handle e).2.state = .decoding) (hle : m ≤ n)
      (hrest : Passes n (s.handle e).2 es) : Passes m s (e :: es)

/-- Elements that are added do not make the number of elements go down. -/
theorem ofNat_length_le {es es' : List Element} (h : es <+: es') (hle : es'.length ≤ maxElements) :
    UInt16.ofNat es.length ≤ UInt16.ofNat es'.length := by
  have hlength := h.length_le
  rw [maxElements] at hle
  rw [UInt16.le_iff_toNat_le, UInt16.toNat_ofNat_of_lt' (by rw [UInt16.size]; omega),
    UInt16.toNat_ofNat_of_lt' (by rw [UInt16.size]; omega)]
  exact hlength

/-- The piece with the last byte of a transaction passes, and any other piece leaves a review that
awaits what is behind it. -/
theorem passes_or_awaits {u : Session} {r : Review} {flags : Flags} {piece more : Bytes} {e : Event}
    (hdelivers : u.Delivers r flags piece (s.handle e).1 (s.handle e).2)
    (hstate : u.state = .decoding) (hr : r.Awaits flags (piece ++ more))
    (hlen : piece.length ≤ maxChunk) :
    (more = [] ∧ Passes (UInt16.ofNat r.elements.length) s [e]) ∨
      ∃ r', r'.Awaits flags more ∧ more ≠ [] ∧
        (s.handle e).1 = .ok (.state .decoding (UInt16.ofNat r'.elements.length)) ∧
        (s.handle e).2.state = .decoding ∧ (s.handle e).2.operation = .review r' ∧
        UInt16.ofNat r.elements.length ≤ UInt16.ofNat r'.elements.length := by
  have hexpected := Review.expected_push hr hlen
  have hadvances := r.advances_push piece
  rcases hhandle : s.handle e with ⟨answer, s'⟩
  rw [hhandle] at hdelivers
  cases hdelivers with
  | otherFlags hflags => exact absurd hr.flags_eq hflags
  | tooLong hlong => exact absurd hlen (Nat.not_le_of_lt hlong)
  | completes hpush =>
    rw [hpush] at hexpected hadvances
    obtain ⟨hnil, hle⟩ := hexpected
    refine Or.inl ⟨hnil, .last ?_ ?_ (ofNat_length_le hadvances.1 hle)⟩
    · rw [hhandle]
    · rw [hhandle]
  | continues hpush =>
    obtain ⟨hawaits, hmore⟩ := Review.awaits_push hr hlen hpush
    rw [hpush] at hadvances
    have hle := ofNat_length_le hadvances.1 hawaits.length_le
    rw [hstate]
    exact Or.inr ⟨_, hawaits, hmore, rfl, rfl, rfl, hle⟩
  | fails hpush =>
    rw [hpush] at hexpected
    exact hexpected.elim

/-- The pieces of what is left of a transaction pass, up to the one with the last byte. -/
theorem passes_pieces {flags : Flags} (pieces : List Bytes) {u : Session} {r : Review}
    {piece : Bytes} {e : Event}
    (hdelivers : u.Delivers r flags piece (s.handle e).1 (s.handle e).2)
    (hstate : u.state = .decoding) (hr : r.Awaits flags (piece ++ pieces.flatten))
    (hlen : ∀ w ∈ piece :: pieces, w.length ≤ maxChunk) (hleft : piece ++ pieces.flatten ≠ []) :
    ∃ k last, (piece :: pieces)[k]? = some last ∧ last ≠ [] ∧ (pieces.drop k).flatten = [] ∧
      Passes (UInt16.ofNat r.elements.length) s (e :: (pieces.take k).map (.more flags)) := by
  -- each piece but the last one leaves a review that awaits the pieces behind it
  induction pieces generalizing s u r piece e with
  | nil =>
    have hpiece := hlen piece List.mem_cons_self
    rcases passes_or_awaits hdelivers hstate hr hpiece with ⟨-, hpasses⟩ | ⟨_, _, hmore, -⟩
    · rw [List.flatten_nil, List.append_nil] at hleft
      exact ⟨0, piece, rfl, hleft, rfl, hpasses⟩
    · exact absurd rfl hmore
  | cons next pieces ih =>
    obtain ⟨hpiece, hpieces⟩ := List.forall_mem_cons.1 hlen
    rcases passes_or_awaits hdelivers hstate hr hpiece with
      ⟨hnil, hpasses⟩ | ⟨r', hawaits, hmore, hanswer, hdecoding, hreview, hle⟩
    · rw [hnil, List.append_nil] at hleft
      exact ⟨0, piece, rfl, hleft, hnil, hpasses⟩
    · have hnext : (s.handle e).2.Delivers r' flags next
          ((s.handle e).2.handle (.more flags next)).1
          ((s.handle e).2.handle (.more flags next)).2 := by
        rw [handle, if_pos hdecoding]
        exact delivers_receive hreview flags next
      obtain ⟨k, last, hlast, hbyte, hrest, hpasses⟩ := ih hnext hdecoding hawaits hpieces hmore
      exact ⟨k + 1, last, hlast, hbyte, hrest, .earlier hanswer hdecoding hle hpasses⟩

/-- A transaction whose entries have 256 bytes at most, and of which at most 64 elements are shown,
passes however it is cut into pieces of at most 255 bytes, up to the piece with its last byte. -/
theorem passes_of_split (s : Session) (t : AnyTransaction) (keyIndex : UInt32) (sigIndex : UInt16)
    (changeIndex : UInt32) (flags : Flags) (pieces : List Bytes) (hidle : s.state.IsIdle)
    (hformat : flags.format = t.format) (ht : t.Fits) (hindex : t.HasSignature sigIndex.toNat)
    (hentries : ∀ w ∈ t.entries, w.length ≤ 256)
    (hfew : (t.elements (s.changeAddress changeIndex)).length ≤ 64)
    (hpieces : pieces.flatten = t.encode) (hlen : ∀ w ∈ pieces, w.length ≤ 255) :
    ∃ k last, pieces[k]? = some last ∧ last ≠ [] ∧ (pieces.drop (k + 1)).flatten = [] ∧
      s.Passes 0 (Event.submit keyIndex sigIndex changeIndex flags (pieces.take (k + 1))) := by
  have hnonempty := t.encode_ne_nil
  rw [← hpieces] at hnonempty
  rcases pieces with _ | ⟨first, others⟩
  · exact absurd rfl hnonempty
  · have hawaits := Review.awaits_new keyIndex hformat ht hindex hentries hfew
    rw [← hpieces] at hawaits
    have hdelivers : (s.started keyIndex sigIndex changeIndex flags).Delivers
        (Review.new keyIndex sigIndex (s.changeAddress changeIndex) flags) flags first
        (s.handle (.start keyIndex sigIndex changeIndex flags first)).1
        (s.handle (.start keyIndex sigIndex changeIndex flags first)).2 := by
      rw [handle_start (isReviewing_of_isIdle hidle)]
      exact delivers_receive rfl flags first
    exact passes_pieces others hdelivers rfl hawaits hlen hnonempty

/-- A transaction in three pieces, of which the last one is empty. -/
def onePaidPieces : List Bytes := [V2.onePaid.encode.take 57, V2.onePaid.encode.drop 57, []]

theorem passes_onePaidPieces :
    ∃ k last, onePaidPieces[k]? = some last ∧ last ≠ [] ∧
      (onePaidPieces.drop (k + 1)).flatten = [] ∧
      (new oneKey).Passes 0 (Event.submit 7 0 noChange ⟨true, true⟩ (onePaidPieces.take (k + 1))) :=
  passes_of_split (new oneKey) (.v2 V2.onePaid) 7 0 noChange ⟨true, true⟩ onePaidPieces trivial rfl
    ⟨by decide, by decide +kernel, by decide, by decide, by decide⟩ trivial (by decide +kernel)
    (by decide +kernel) (by decide +kernel) (by decide +kernel)

end Session

end Countersign
