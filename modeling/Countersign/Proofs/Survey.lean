import Countersign.Proofs.Reading
import Countersign.Txn.Decoder
import Countersign.Txn.Output

/-!
# What a byte string says

A decoder sees a transaction in chunks; this is what it makes of a byte string as a whole. A
`Position` is a decoder without its buffer, `Position.read` reads one header or entry off the front
of a byte string, and `Position.survey` does so until it cannot go on:

  `survey p (w ++ rest) = elements of w, then survey p' rest`.

A buffer holds 510 bytes, so a header or an entry is looked for in the first 510 bytes and nowhere
else.

The survey is what a decoder finds: each step of a decoder is a reading of the bytes that it holds
followed by any bytes that are still to come (`matches_step`), and each of its answers is what the
survey of these bytes begins with (`answers_next`).
-/

namespace Countersign

/-- A header or an entry: what is read in one go. -/
inductive Piece (S : Type) where
  | header (s : S) (h : Header)
  | entry (e : Entry)

/-- A decoder apart from the bytes that it holds. -/
structure Position (S : Type) where
  sigIndex : UInt16
  change : Option Address
  /-- The covered bytes so far. -/
  covered : Bytes
  place : S
  count : UInt64
  index : UInt64
  shown : UInt16

/-- What comes of a byte string from some position on. -/
structure Survey (S : Type) where
  elements : List Element
  result : Except DecodeError Finding
  /-- The position at which it ends. -/
  last : Position S

/-- The survey with some elements ahead of it. -/
def Survey.prepend {S : Type} (es : List Element) (s : Survey S) : Survey S :=
  { s with elements := es ++ s.elements }

namespace Position

variable {S : Type} [Layout S]

/-! ## Reading a byte string -/

/-- The position ahead of the first byte. -/
def start (sigIndex : UInt16) (change : Option Address) : Position S :=
  ⟨sigIndex, change, (Layout.opening S).bytes, Layout.start, 0, 0, 0⟩

/-- How the next piece is read; nothing is read after the last entry of the last section. -/
def reader? (p : Position S) : Option (Reader (Piece S)) :=
  if p.index = p.count then
    (Layout.next? p.place).map fun s => Piece.header s <$> Layout.header p.sigIndex s
  else some (Piece.entry <$> Layout.entry p.sigIndex p.place p.index)

theorem reader?_header {p : Position S} (h : p.index = p.count) :
    p.reader? = (Layout.next? p.place).map fun s => Piece.header s <$> Layout.header p.sigIndex s :=
  if_pos h

theorem reader?_entry {p : Position S} (h : p.index ≠ p.count) :
    p.reader? = some (Piece.entry <$> Layout.entry p.sigIndex p.place p.index) :=
  if_neg h

/-- The element that a piece shows. -/
def shows (p : Position S) : Piece S → Option Element
  | .header _ _ => none
  | .entry e => e.payment.bind fun payment =>
    if payment.IsShown p.change then some (payment.numbered (Decoder.number p.shown)) else none

/-- The position after a piece with the bytes `w`. -/
def after (p : Position S) (w : Bytes) : Piece S → Position S
  | .header s h =>
    { p with covered := p.covered ++ h.cover.part w, place := s, count := h.count, index := 0,
             shown := 0 }
  | .entry e =>
    { p with covered := p.covered ++ e.lead ++ e.cover.part w, index := p.index + 1,
             shown := ((p.shows (.entry e)).map Element.index).getD p.shown }

/-- What comes of reading the next piece. -/
inductive Reading (S : Type) where
  /-- The position after the piece, what the piece shows, and the bytes behind it. -/
  | moves (p : Position S) (shown : Option Element) (rest : Bytes)
  /-- There is no next piece. -/
  | ends
  /-- The piece is not complete. -/
  | waits
  /-- The piece is refused. -/
  | fails (e : DecodeError)

/-- Reads the next piece off the front of a byte string, of which it sees as much as a buffer can
hold. -/
def read (p : Position S) (bs : Bytes) : Reading S :=
  match p.reader? with
  | none => .ends
  | some r =>
    match r.parse (bs.take Buffer.capacity) with
    | .complete piece rest =>
      let n := (bs.take Buffer.capacity).length - rest.length
      .moves (p.after (bs.take n) piece) (p.shows piece) (bs.drop n)
    | .short => if bs.length < Buffer.capacity then .waits else .fails .bufferExhausted
    | .refused e => .fails e

/-- A piece at the front is read, and the rest is behind it. -/
theorem read_append {p : Position S} {r : Reader (Piece S)} {w : Bytes} {piece : Piece S}
    (hr : p.reader? = some r) (hw : r.Accepts w piece) (hlen : w.length ≤ 510) (rest : Bytes) :
    p.read (w ++ rest) = .moves (p.after w piece) (p.shows piece) rest := by
  have hwindow : (w ++ rest).take Buffer.capacity = w ++ rest.take (510 - w.length) := by
    rw [Buffer.capacity, List.take_append, List.take_of_length_le hlen]
  have hparse : r.parse ((w ++ rest).take Buffer.capacity) =
      .complete piece (rest.take (510 - w.length)) := by
    rw [hwindow]
    exact Reader.parse_append_of_complete hw _
  have hcount : ((w ++ rest).take Buffer.capacity).length - (rest.take (510 - w.length)).length =
      w.length := by
    rw [hwindow, List.length_append]
    omega
  simp only [read, hr, hparse, hcount, List.take_left, List.drop_left]

/-- A reading that moves on has found a piece at the front. -/
theorem exists_of_read {p q : Position S} {bs rest : Bytes} {shown : Option Element}
    (h : p.read bs = .moves q shown rest) :
    ∃ r w piece, p.reader? = some r ∧ r.Accepts w piece ∧ w.length ≤ 510 ∧ bs = w ++ rest ∧
      q = p.after w piece ∧ shown = p.shows piece := by
  unfold read at h
  split at h
  · cases h
  · next r hr =>
    split at h
    · next piece tail hparse =>
      obtain ⟨w, hw, haccepts⟩ := Reader.parse_eq_complete_iff.1 hparse
      have hlen : w.length ≤ 510 := by
        have hlength := congrArg List.length hw
        rw [List.length_append, List.length_take, Buffer.capacity] at hlength
        omega
      have hcount : (bs.take Buffer.capacity).length - tail.length = w.length := by
        rw [hw, List.length_append]
        omega
      -- the window is longer than the piece, so the piece is at the front of all bytes
      have htake : bs.take w.length = w := by
        have hfront := congrArg (List.take w.length) hw
        rw [List.take_take, Nat.min_eq_left (by rw [Buffer.capacity]; exact hlen),
          List.take_left] at hfront
        exact hfront
      simp only [hcount, htake, Reading.moves.injEq] at h
      obtain ⟨rfl, rfl, rfl⟩ := h
      refine ⟨r, w, piece, hr, haccepts, hlen, ?_, rfl, rfl⟩
      conv => lhs; rw [← List.take_append_drop w.length bs, htake]
    · split at h <;> cases h
    · cases h

/-- A bound on the pieces that a byte string may hold from a position on. -/
def measure (p : Position S) (bs : Bytes) : Nat := bs.length + Layout.depth p.place

theorem measure_read {p q : Position S} {bs rest : Bytes} {shown : Option Element}
    (h : p.read bs = .moves q shown rest) : q.measure rest < p.measure bs := by
  obtain ⟨r, w, piece, hr, hw, -, rfl, rfl, -⟩ := exists_of_read h
  simp only [measure, List.length_append]
  unfold reader? at hr
  split at hr
  · -- a header may be empty, but it comes with a later section
    obtain ⟨s, hs, rfl⟩ := Option.map_eq_some_iff.1 hr
    obtain ⟨h, -, rfl⟩ := Reader.accepts_map.1 hw
    have hdepth := Layout.depth_next hs
    simp only [after]
    omega
  · -- an entry has at least one byte
    cases hr
    obtain ⟨e, he, rfl⟩ := Reader.accepts_map.1 hw
    have hpos := Reader.length_pos_of_accepts (Layout.reads_entry _ _ _) he
    simp only [after]
    omega

/-- Reads pieces off a byte string for as long as there are any. -/
def survey (p : Position S) (bs : Bytes) : Survey S :=
  match _h : p.read bs with
  | .moves q shown rest => (q.survey rest).prepend shown.toList
  | .ends => ⟨[], .ok (.finished (Blake2b.digest p.covered)), p⟩
  | .waits => ⟨[], .ok .needsMore, p⟩
  | .fails e => ⟨[], .error e, p⟩
termination_by p.measure bs
decreasing_by exact measure_read _h

theorem survey_moves {p q : Position S} {bs rest : Bytes} {shown : Option Element}
    (h : p.read bs = .moves q shown rest) :
    p.survey bs = (q.survey rest).prepend shown.toList := by
  conv => lhs; rw [survey]
  split
  · next heq =>
    rw [h] at heq
    cases heq
    rfl
  all_goals next heq => rw [h] at heq; cases heq

theorem survey_ends {p : Position S} {bs : Bytes} (h : p.read bs = .ends) :
    p.survey bs = ⟨[], .ok (.finished (Blake2b.digest p.covered)), p⟩ := by
  rw [survey]
  split
  case h_2 => rfl
  all_goals next heq => rw [h] at heq; cases heq

theorem survey_waits {p : Position S} {bs : Bytes} (h : p.read bs = .waits) :
    p.survey bs = ⟨[], .ok .needsMore, p⟩ := by
  rw [survey]
  split
  case h_3 => rfl
  all_goals next heq => rw [h] at heq; cases heq

theorem survey_fails {p : Position S} {bs : Bytes} {e : DecodeError} (h : p.read bs = .fails e) :
    p.survey bs = ⟨[], .error e, p⟩ := by
  rw [survey]
  split
  case h_4 =>
    next heq =>
    rw [h] at heq
    cases heq
    rfl
  all_goals next heq => rw [h] at heq; cases heq

end Position

end Countersign
