import Countersign.Proofs.Accounting
import Countersign.Proofs.Reasons

/-!
# When the buffer is exhausted

A header or an entry is read from the bytes that have been handed over since its start, and no more
than 510 of them fit the buffer. Some bytes at their front, no more than 510, may be all of it
(`Reader.Completes`), or be refused (`Reader.Violates`); otherwise it is `Reader.Undecided`.

Asking a decoder for all that it can find decides everything that can be decided (`Settles`): what
is complete is decoded, what is refused is refused for its own reason, and the decoder comes to a
stop at the first header or entry that is undecided (`stops_drain`). There it waits if it has fewer
than 510 bytes of it, and gives up with an exhausted buffer if it has 510, and for no other reason.
-/

namespace Countersign

/-! ## What some bytes decide -/

namespace Reader

variable {α : Type} {r : Reader α} {u w : Bytes} {a : α} {e : DecodeError}

/-- The bytes `w` at the front, no more than a buffer can hold, are all of a value. -/
def Completes (r : Reader α) (u w : Bytes) (a : α) : Prop :=
  w <+: u ∧ w.length ≤ 510 ∧ r.Accepts w a

/-- Some bytes at the front, no more than a buffer can hold, are refused. -/
def Violates (r : Reader α) (u : Bytes) (e : DecodeError) : Prop :=
  ∃ w, w <+: u ∧ w.length ≤ 510 ∧ r.parse w = .refused e

/-- No bytes at the front, of those that a buffer can hold, are a value or are refused. -/
def Undecided (r : Reader α) (u : Bytes) : Prop :=
  (∀ w a, ¬ r.Completes u w a) ∧ ∀ e, ¬ r.Violates u e

/-- Some bytes at the front, no more than a buffer can hold, are at the front of those that it can
hold. -/
theorem exists_take_eq (hfront : w <+: u) (hlen : w.length ≤ 510) :
    ∃ v, u.take Buffer.capacity = w ++ v := by
  obtain ⟨v, rfl⟩ := hfront
  rw [Buffer.capacity, List.take_append, List.take_of_length_le hlen]
  exact ⟨_, rfl⟩

theorem parse_of_completes (h : r.Completes u w a) :
    ∃ rest, r.parse (u.take Buffer.capacity) = .complete a rest := by
  obtain ⟨v, hv⟩ := exists_take_eq h.1 h.2.1
  rw [hv]
  exact ⟨_, parse_append_of_complete h.2.2 v⟩

theorem parse_of_violates (h : r.Violates u e) :
    r.parse (u.take Buffer.capacity) = .refused e := by
  obtain ⟨w, hfront, hlen, hw⟩ := h
  obtain ⟨v, hv⟩ := exists_take_eq hfront hlen
  rw [hv]
  exact parse_append_of_refused hw v

theorem violates_of_parse (h : r.parse (u.take Buffer.capacity) = .refused e) : r.Violates u e :=
  ⟨_, List.take_prefix _ u, List.length_take_le _ u, h⟩

theorem exists_completes_of_parse {rest : Bytes}
    (h : r.parse (u.take Buffer.capacity) = .complete a rest) : ∃ w, r.Completes u w a := by
  obtain ⟨w, hw, haccepts⟩ := parse_eq_complete_iff.1 h
  have hfront : w <+: u.take Buffer.capacity := ⟨rest, hw.symm⟩
  exact ⟨w, hfront.trans (List.take_prefix _ u),
    Nat.le_trans hfront.length_le (List.length_take_le _ u), haccepts⟩

/-- What is undecided is what a reading of the bytes that a buffer can hold finds too short. -/
theorem undecided_iff : r.Undecided u ↔ r.parse (u.take Buffer.capacity) = .short := by
  constructor
  · intro h
    rcases hparse : r.parse (u.take Buffer.capacity) with ⟨a, rest⟩ | _ | e
    · obtain ⟨w, hw⟩ := exists_completes_of_parse hparse
      exact absurd hw (h.1 w a)
    · rfl
    · exact absurd (violates_of_parse hparse) (h.2 e)
  · intro h
    refine ⟨fun w a hw => ?_, fun e he => ?_⟩
    · obtain ⟨rest, hparse⟩ := parse_of_completes hw
      rw [h] at hparse
      cases hparse
    · have hparse := parse_of_violates he
      rw [h] at hparse
      cases hparse

/-- Some bytes are complete, or refused, or neither. -/
theorem completes_or_violates (r : Reader α) (u : Bytes) :
    (∃ w a, r.Completes u w a) ∨ (∃ e, r.Violates u e) ∨ r.Undecided u := by
  by_cases hw : ∃ w a, r.Completes u w a
  · exact Or.inl hw
  · by_cases he : ∃ e, r.Violates u e
    · exact Or.inr (Or.inl he)
    · exact Or.inr (Or.inr ⟨fun w a h => hw ⟨w, a, h⟩, fun e h => he ⟨e, h⟩⟩)

instance (o : Outcome Bytes α) : Decidable (o = .short) :=
  match o with
  | .complete _ _ => .isFalse nofun
  | .short => .isTrue rfl
  | .refused _ => .isFalse nofun

instance : Decidable (r.Undecided u) := decidable_of_iff _ undecided_iff.symm

end Reader

/-! ## Positions -/

namespace Position

variable {S : Type} [Layout S] {p : Position S} {r : Reader (Piece S)} {u : Bytes}

/-- Where a piece stands that is read at this position. -/
def spot (p : Position S) : Piece S → Spot S
  | .header s _ => .header s
  | .entry _ => .entry p.place p.index

theorem read_of_completes (hr : p.reader? = some r) {w : Bytes} {piece : Piece S}
    (h : r.Completes u w piece) :
    ∃ rest, u = w ++ rest ∧ p.read u = .moves (p.after w piece) (p.shows piece) rest := by
  obtain ⟨⟨rest, rfl⟩, hlen, hw⟩ := h
  exact ⟨rest, rfl, read_append hr hw hlen rest⟩

theorem read_of_violates (hr : p.reader? = some r) {e : DecodeError} (h : r.Violates u e) :
    p.read u = .fails e := by
  have hparse := Reader.parse_of_violates h
  simp only [read, hr, hparse]

theorem waits_of_undecided (hr : p.reader? = some r) (h : r.Undecided u) (hlen : u.length < 510) :
    p.read u = .waits := by
  have hparse := Reader.undecided_iff.1 h
  simp only [read, hr, hparse]
  exact if_pos hlen

theorem fails_of_undecided (hr : p.reader? = some r) (h : r.Undecided u) (hlen : 510 ≤ u.length) :
    p.read u = .fails .bufferExhausted := by
  have hparse := Reader.undecided_iff.1 h
  simp only [read, hr, hparse]
  exact if_neg (Nat.not_lt.2 hlen)

/-- All that there is to find at the front of some bytes. -/
inductive Finds (p : Position S) (u : Bytes) : Reading S → Prop where
  | ends (hr : p.reader? = none) : Finds p u .ends
  | moves {r : Reader (Piece S)} {w : Bytes} {piece : Piece S} {rest : Bytes}
      (hr : p.reader? = some r) (h : r.Completes u w piece) :
      Finds p u (.moves (p.after w piece) (p.shows piece) rest)
  | refuses {r : Reader (Piece S)} {e : DecodeError} (hr : p.reader? = some r)
      (h : r.Violates u e) : Finds p u (.fails e)
  | waits {r : Reader (Piece S)} (hr : p.reader? = some r) (h : r.Undecided u)
      (hlen : u.length < 510) : Finds p u .waits
  | exhausts {r : Reader (Piece S)} (hr : p.reader? = some r) (h : r.Undecided u)
      (hlen : 510 ≤ u.length) : Finds p u (.fails .bufferExhausted)

theorem finds_read (p : Position S) (u : Bytes) : p.Finds u (p.read u) := by
  rcases hr : p.reader? with _ | r
  · have hends : p.read u = .ends := by simp only [read, hr]
    rw [hends]
    exact .ends hr
  · rcases r.completes_or_violates u with ⟨w, piece, h⟩ | ⟨e, h⟩ | h
    · obtain ⟨rest, -, hread⟩ := read_of_completes hr h
      rw [hread]
      exact .moves hr h
    · rw [read_of_violates hr h]
      exact .refuses hr h
    · rcases Nat.lt_or_ge u.length 510 with hlen | hlen
      · rw [waits_of_undecided hr h hlen]
        exact .waits hr h hlen
      · rw [fails_of_undecided hr h hlen]
        exact .exhausts hr h hlen

/-- What is read is refused for its own reason. -/
theorem ne_exhausted_of_violates [Layout.Structural S] (hr : p.reader? = some r) {e : DecodeError}
    (h : r.Violates u e) : e ≠ .bufferExhausted := by
  have hstructural : r.Structural := by
    unfold reader? at hr
    split at hr
    · obtain ⟨s, -, rfl⟩ := Option.map_eq_some_iff.1 hr
      exact Reader.structural_bind (Layout.Structural.structural_header _ _) fun _ => trivial
    · cases hr
      exact Reader.structural_bind (Layout.Structural.structural_entry _ _ _) fun _ => trivial
  obtain ⟨w, -, -, hw⟩ := h
  exact (Reader.structural_of_parse hstructural hw).2

end Position

namespace Decoder

variable {S : Type} [Layout S] {d d' : Decoder S} {r : Reader (Piece S)} {e : DecodeError}

/-- The bytes that have been taken since the start of the header or entry that is being decoded. -/
def begun (d : Decoder S) (cs : List Call) : Bytes :=
  (d.accepted cs).drop ((d.parts cs).flatMap Part.bytes).length

/-- The parts that are completed when findings are asked for until one is not an element. -/
def partsOfDrain (d : Decoder S) : List (Part S) :=
  match _h : d.next with
  | (.ok (.element _), d') => d.partsOfNext ++ d'.partsOfDrain
  | _ => d.partsOfNext
termination_by d.measure
decreasing_by exact measure_next _h

/-! ## Single steps -/

/-- What a step says about the reading of the bytes that a decoder holds. -/
def Step.Reads (d : Decoder S) : Step S → Prop
  | .hidden d' => d'.Live ∧ d.position.read d.held = .moves d'.position none d'.held
  | .shows e d' => d'.Live ∧ d.position.read d.held = .moves d'.position (some e) d'.held
  | .ends _ d' => d'.position = d.position ∧ d.position.read d.held = .ends
  | .waits => (d.buffer.isFull = true ∧ d.position.read d.held = .fails .bufferExhausted) ∨
      (d.buffer.isFull = false ∧ d.position.read d.held = .waits)
  | .fails e => d.position.read d.held = .fails e

theorem reads_step (hd : d.Live) : d.step.Reads d := by
  have hmatch := matches_step hd []
  rcases hstep : d.step with d' | ⟨e, d'⟩ | ⟨hash, d'⟩ | _ | e
  all_goals
    rw [hstep] at hmatch
    simp only [Step.Matches, List.append_nil] at hmatch
  · exact hmatch
  · exact hmatch
  · exact ⟨hmatch.1, hmatch.2.2⟩
  · rw [length_held] at hmatch
    have hle := hd.valid.length_le
    by_cases hfull : d.buffer.length = 510
    · exact Or.inl ⟨beq_iff_eq.2 hfull, hmatch.1 hfull⟩
    · exact Or.inr ⟨beq_eq_false_iff_ne.2 hfull, hmatch.2 (by omega)⟩
  · exact hmatch

/-- Where a piece is read, a step moves on behind it. -/
theorem exists_leaves_of_moves (hd : d.Live) {q : Position S} {shown : Option Element}
    {rest : Bytes} (h : d.position.read d.held = .moves q shown rest) :
    ∃ d', d.step.Leaves d' ∧ d'.position = q ∧ d'.held = rest := by
  have hreads := reads_step hd
  rcases hstep : d.step with d' | ⟨e, d'⟩ | ⟨hash, d'⟩ | _ | e
  all_goals
    rw [hstep] at hreads
    simp only [Step.Reads, h] at hreads
  · cases hreads.2
    exact ⟨d', rfl, rfl, rfl⟩
  · cases hreads.2
    exact ⟨d', rfl, rfl, rfl⟩
  · cases hreads.2
  · rcases hreads with hfull | hroom
    · cases hfull.2
    · cases hroom.2
  · cases hreads

theorem exists_partsOfNext_of_leaves (hd : d.outcome = none) (h : d.step.Leaves d') :
    ∃ ps, d.partsOfNext = d.partTo d' :: ps := by
  rw [partsOfNext_of_step hd]
  rcases hstep : d.step with d₁ | ⟨e, d₁⟩ | ⟨hash, d₁⟩ | _ | e
  all_goals rw [hstep] at h
  · cases h
    exact ⟨_, rfl⟩
  · cases h
    exact ⟨_, rfl⟩
  · exact h.elim
  · exact h.elim
  · exact h.elim

/-- The part that is completed by reading a piece. -/
theorem partTo_of_after {w : Bytes} {piece : Piece S} (hr : d.position.reader? = some r)
    (hw : r.Accepts w piece) (hheld : d.held = w ++ d'.held)
    (hafter : d'.position = d.position.after w piece) :
    d.partTo d' = ⟨d.position.spot piece, w⟩ := by
  have hbytes := bytes_partTo hheld
  by_cases hindex : d.index = d.count
  · rw [Position.reader?_header (p := d.position) hindex] at hr
    obtain ⟨s, -, rfl⟩ := Option.map_eq_some_iff.1 hr
    obtain ⟨header, -, rfl⟩ := Reader.accepts_map.1 hw
    have hplace : d'.place = s := congrArg Position.place hafter
    rw [← hbytes, partTo, if_pos hindex, hplace]
    rfl
  · rw [Position.reader?_entry (p := d.position) hindex] at hr
    obtain rfl := Option.some.inj hr
    obtain ⟨entry, -, rfl⟩ := Reader.accepts_map.1 hw
    rw [← hbytes, partTo, if_neg hindex]
    rfl

/-- A piece that is complete is the first part of the next request. -/
theorem partsOfNext_of_completes (hd : d.Live) (hr : d.position.reader? = some r) {w : Bytes}
    {piece : Piece S} (h : r.Completes d.held w piece) :
    ∃ ps, d.partsOfNext = ⟨d.position.spot piece, w⟩ :: ps := by
  obtain ⟨rest, hheld, hread⟩ := Position.read_of_completes hr h
  obtain ⟨d', hleaves, hafter, rfl⟩ := exists_leaves_of_moves hd hread
  rw [← partTo_of_after hr h.2.2 hheld hafter]
  exact exists_partsOfNext_of_leaves hd.outcome hleaves

/-- Where nothing can be read, for want of room or because it is refused, a request ends
decoding. -/
theorem next_of_fails (hd : d.Live) (h : d.position.read d.held = .fails e) :
    d.next.1 = .error e ∧ d.partsOfNext = [] := by
  have hreads := reads_step hd
  rw [next_of_step hd.outcome, partsOfNext_of_step hd.outcome]
  rcases hstep : d.step with d' | ⟨x, d'⟩ | ⟨hash, d'⟩ | _ | e'
  all_goals
    rw [hstep] at hreads
    simp only [Step.Reads, h] at hreads
  · cases hreads.2
  · cases hreads.2
  · cases hreads.2
  · rcases hreads with ⟨hfull, hread⟩ | hroom
    · cases hread
      have hfull : d.buffer.rewind.isFull = true := hfull
      dsimp only
      rw [if_pos hfull]
      exact ⟨rfl, rfl⟩
    · cases hroom.2
  · cases hreads
    exact ⟨rfl, rfl⟩

/-! ## Requests -/

/-- What a step that moves on drops from the bytes that are held is a part. -/
theorem held_of_moves {shown : Option Element}
    (h : d.position.read d.held = .moves d'.position shown d'.held) :
    d.held = (d.partTo d').bytes ++ d'.held := by
  obtain ⟨r, w, piece, -, -, -, hheld, -⟩ := Position.exists_of_read h
  rw [bytes_partTo hheld]
  exact hheld

/-- What an answer says about the decoder that it leaves. -/
def Stops (d : Decoder S) : Except DecodeError Finding → Prop
  | .ok (.element _) => d.Live
  | .ok .needsMore => d.position.read d.held = .waits
  | .ok (.finished _) => d.position.read d.held = .ends
  | .error e => d.position.read d.held = .fails e

/-- An answer says why no more is decoded, and what has been decoded is no longer held. -/
theorem stops_next (hd : d.Live) : d.next.2.Stops d.next.1 ∧
    d.held = d.partsOfNext.flatMap Part.bytes ++ d.next.2.held := by
  have hreads := reads_step hd
  have hparts := partsOfNext_of_step hd.outcome
  fun_induction next d with
  | case1 d e houtcome => rw [hd.outcome] at houtcome; cases houtcome
  | case2 d hash houtcome => rw [hd.outcome] at houtcome; cases houtcome
  | case3 d _ d' hstep ih =>
    rw [hstep] at hreads hparts
    obtain ⟨hlive, hread⟩ := hreads
    obtain ⟨hstops, hheld⟩ := ih hlive (reads_step hlive) (partsOfNext_of_step hlive.outcome)
    rw [hparts, List.flatMap_cons, List.append_assoc, ← hheld]
    exact ⟨hstops, held_of_moves hread⟩
  | case4 d _ e d' hstep =>
    rw [hstep] at hreads hparts
    rw [hparts, List.flatMap_singleton]
    exact ⟨hreads.1, held_of_moves hreads.2⟩
  | case5 d _ hash d' hstep =>
    have hheld := held_of_ends hstep
    rw [hstep] at hreads hparts
    rw [hparts]
    refine ⟨?_, hheld.symm⟩
    show d'.position.read d'.held = .ends
    rw [hheld, hreads.1, hreads.2]
  | case6 d _ hstep d' hfull =>
    rw [hstep] at hreads hparts
    rw [hparts]
    refine ⟨(hreads.resolve_right fun hroom => ?_).2, rfl⟩
    have hfull : d.buffer.isFull = true := hfull
    rw [hroom.1] at hfull
    cases hfull
  | case7 d _ hstep d' hroom =>
    rw [hstep] at hreads hparts
    rw [hparts]
    refine ⟨(hreads.resolve_left fun hfull => hroom hfull.1).2, rfl⟩
  | case8 d _ e hstep =>
    rw [hstep] at hreads hparts
    rw [hparts]
    exact ⟨hreads, rfl⟩

/-! ## Drains -/

theorem partsOfDrain_of_element {x : Element} (h : d.next = (.ok (.element x), d')) :
    d.partsOfDrain = d.partsOfNext ++ d'.partsOfDrain := by
  rw [partsOfDrain]
  split
  · next heq =>
    rw [h] at heq
    cases heq
    rfl
  · next hother => exact (hother _ _ h).elim

theorem partsOfDrain_of_last {answer : Except DecodeError Finding} (h : d.next = (answer, d'))
    (hlast : ∀ x, answer ≠ .ok (.element x)) : d.partsOfDrain = d.partsOfNext := by
  rw [partsOfDrain]
  split
  · next heq =>
    rw [h] at heq
    cases heq
    exact (hlast _ rfl).elim
  · rfl

/-- The parts of a drain are those of the first request, and those of the others. -/
theorem exists_partsOfDrain_eq (d : Decoder S) : ∃ ps, d.partsOfDrain = d.partsOfNext ++ ps := by
  rw [partsOfDrain]
  split
  · exact ⟨_, rfl⟩
  · exact ⟨[], (List.append_nil _).symm⟩

/-- Where the first request fails, so does the drain. -/
theorem drain_of_fails (hd : d.Live) (h : d.position.read d.held = .fails e) :
    d.partsOfDrain = [] ∧ d.drain.1 = [] ∧ d.drain.2.1 = .error e := by
  obtain ⟨hanswer, hparts⟩ := next_of_fails hd h
  have hnext : d.next = (.error e, d.next.2) := by rw [← hanswer]
  have hlast : ∀ x, Except.error e ≠ Except.ok (Finding.element x) := fun x => nofun
  rw [partsOfDrain_of_last hnext hlast, drain_of_last hnext hlast]
  exact ⟨hparts, rfl, rfl⟩

/-- A drain says why no more is decoded, and what has been decoded is no longer held. -/
theorem stops_drain (hd : d.Live) : d.drain.2.2.Stops d.drain.2.1 ∧
    (∀ x, d.drain.2.1 ≠ .ok (.element x)) ∧
    d.held = d.partsOfDrain.flatMap Part.bytes ++ d.drain.2.2.held := by
  fun_induction drain d with
  | case1 d x d' hnext es answer d'' hdrain ih =>
    obtain ⟨hstops, hheld⟩ := stops_next hd
    rw [hnext] at hstops hheld
    obtain ⟨hlast, hother, hrest⟩ := ih hstops
    rw [hdrain] at hlast hother hrest
    rw [partsOfDrain_of_element hnext, List.flatMap_append, List.append_assoc, ← hrest]
    exact ⟨hlast, hother, hheld⟩
  | case2 d answer d' hother hnext =>
    have hstops := stops_next hd
    rw [hnext] at hstops
    have hlast : ∀ x, answer ≠ .ok (.element x) := fun x hx => hother x hx
    rw [partsOfDrain_of_last hnext hlast]
    exact ⟨hstops.1, hlast, hstops.2⟩

/-- What a drain makes of the header or entry that the bytes `u` are at the front of: it is decoded
if it is complete, and refused for its own reason if it is refused; if it is undecided after 510
bytes, the buffer is exhausted. Behind all that is decoded there are some bytes `v` of the header or
entry at which the drain stops, and whether it is undecided, and how long it is, says whether the
drain ends with an exhausted buffer, or waits for more. -/
structure Settles (d : Decoder S) (u : Bytes) : Prop where
  complete : ∀ r w piece, d.position.reader? = some r → r.Completes u w piece →
    ∃ ps, d.partsOfDrain = ⟨d.position.spot piece, w⟩ :: ps
  refused : ∀ r e, d.position.reader? = some r → r.Violates u e →
    e ≠ .bufferExhausted ∧ d.partsOfDrain = [] ∧ d.drain.1 = [] ∧ d.drain.2.1 = .error e
  exhausted : ∀ r, d.position.reader? = some r → r.Undecided u → 510 ≤ u.length →
    d.partsOfDrain = [] ∧ d.drain.1 = [] ∧ d.drain.2.1 = .error .bufferExhausted
  stops : ∃ v, u = d.partsOfDrain.flatMap Part.bytes ++ v ∧
    (d.drain.2.1 = .error .bufferExhausted ↔
      ∃ r, d.drain.2.2.position.reader? = some r ∧ r.Undecided v ∧ 510 ≤ v.length) ∧
    (d.drain.2.1 = .ok .needsMore ↔
      ∃ r, d.drain.2.2.position.reader? = some r ∧ r.Undecided v ∧ v.length < 510)

/-- Why a drain comes to a stop with an exhausted buffer. -/
theorem exhausted_iff [Layout.Structural S] {answer : Except DecodeError Finding}
    (h : d.Stops answer) (hlast : ∀ x, answer ≠ .ok (.element x)) :
    answer = .error .bufferExhausted ↔
      ∃ r, d.position.reader? = some r ∧ r.Undecided d.held ∧ 510 ≤ d.held.length := by
  constructor
  · rintro rfl
    have hfinds := d.position.finds_read d.held
    rw [h] at hfinds
    cases hfinds with
    | refuses hr hviolates => exact absurd rfl (Position.ne_exhausted_of_violates hr hviolates)
    | exhausts hr hundecided hlen => exact ⟨_, hr, hundecided, hlen⟩
  · rintro ⟨r, hr, hundecided, hlen⟩
    have hread := Position.fails_of_undecided hr hundecided hlen
    rcases answer with e | _ | x | hash
    · rw [Stops, hread] at h
      cases h
      rfl
    · rw [Stops, hread] at h
      cases h
    · exact absurd rfl (hlast x)
    · rw [Stops, hread] at h
      cases h

/-- Why a drain comes to a stop that asks for more. -/
theorem needsMore_iff {answer : Except DecodeError Finding} (h : d.Stops answer)
    (hlast : ∀ x, answer ≠ .ok (.element x)) :
    answer = .ok .needsMore ↔
      ∃ r, d.position.reader? = some r ∧ r.Undecided d.held ∧ d.held.length < 510 := by
  constructor
  · rintro rfl
    have hfinds := d.position.finds_read d.held
    rw [h] at hfinds
    cases hfinds with
    | waits hr hundecided hlen => exact ⟨_, hr, hundecided, hlen⟩
  · rintro ⟨r, hr, hundecided, hlen⟩
    have hread := Position.waits_of_undecided hr hundecided hlen
    rcases answer with e | _ | x | hash
    · rw [Stops, hread] at h
      cases h
    · rfl
    · exact absurd rfl (hlast x)
    · rw [Stops, hread] at h
      cases h

theorem settles_held [Layout.Structural S] (hd : d.Live) : d.Settles d.held := by
  obtain ⟨hstops, hlast, hheld⟩ := stops_drain hd
  refine ⟨fun r w piece hr hcomplete => ?_, fun r e hr hviolates => ?_,
    fun r hr hundecided hlen => ?_,
    ⟨_, hheld, exhausted_iff hstops hlast, needsMore_iff hstops hlast⟩⟩
  · obtain ⟨ps, hps⟩ := partsOfNext_of_completes hd hr hcomplete
    obtain ⟨rest, hrest⟩ := exists_partsOfDrain_eq d
    rw [hrest, hps]
    exact ⟨_, rfl⟩
  · exact ⟨Position.ne_exhausted_of_violates hr hviolates,
      drain_of_fails hd (Position.read_of_violates hr hviolates)⟩
  · exact drain_of_fails hd (Position.fails_of_undecided hr hundecided hlen)

/-- What a decoder holds are the bytes since the start of the header or entry. -/
theorem begun_eq_held {sigIndex : UInt16} {change : Option Address} {covered : Part S → Bytes}
    (hcovers : Layout.Covers sigIndex covered) (cs : List Call) :
    (new sigIndex change : Decoder S).begun cs =
      ((new sigIndex change : Decoder S).observe cs).2.held := by
  rw [begun, (accountsFor_new hcovers change cs).taken, List.drop_left]

theorem settles_observe [Layout.Structural S] {sigIndex : UInt16} {covered : Part S → Bytes}
    (hcovers : Layout.Covers sigIndex covered) (change : Option Address) (cs : List Call)
    (h : ((new sigIndex change : Decoder S).observe cs).2.outcome = none) :
    ((new sigIndex change : Decoder S).observe cs).2.Settles
      ((new sigIndex change : Decoder S).begun cs) := by
  rw [begun_eq_held hcovers]
  refine settles_held ((live_or_ended_observe (Or.inl (live_new _ _)) cs).resolve_right ?_)
  rw [h]
  exact nofun

end Decoder

/-- In both formats, after any calls that do not end decoding, the next drain settles the header or
entry that is being decoded by the bytes that were taken since its start. -/
theorem drain_settles (sigIndex : UInt16) (change : Option Address) (cs : List Call) :
    (((Decoder.new sigIndex change : Decoder V1.Section).observe cs).2.outcome = none →
      ((Decoder.new sigIndex change : Decoder V1.Section).observe cs).2.Settles
        ((Decoder.new sigIndex change : Decoder V1.Section).begun cs)) ∧
    (((Decoder.new sigIndex change : Decoder V2.Section).observe cs).2.outcome = none →
      ((Decoder.new sigIndex change : Decoder V2.Section).observe cs).2.Settles
        ((Decoder.new sigIndex change : Decoder V2.Section).begun cs)) :=
  ⟨Decoder.settles_observe (V1.covers sigIndex) change cs,
    Decoder.settles_observe (V2.covers sigIndex) change cs⟩

/-- An input that claims to have more keys than any transaction, up to the first 510 bytes of it. -/
def V1.endlessInput : List Call :=
  [.push (bytesOfWord 1), .next, .push (List.replicate 255 255), .push (List.replicate 255 255)]

theorem drain_settles_endlessInput :
    ((Decoder.new 0 none : Decoder V1.Section).observe V1.endlessInput).2.outcome = none ∧
      ((Decoder.new 0 none : Decoder V1.Section).observe V1.endlessInput).2.drain.2.1 =
        .error .bufferExhausted := by
  have houtcome :
      ((Decoder.new 0 none : Decoder V1.Section).observe V1.endlessInput).2.outcome = none := by
    decide +kernel
  refine ⟨houtcome, (((drain_settles 0 none V1.endlessInput).1 houtcome).exhausted _
    (Position.reader?_entry (by decide +kernel)) (by decide +kernel) (by decide +kernel)).2.2⟩

end Countersign
