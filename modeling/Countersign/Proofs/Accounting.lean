import Countersign.Proofs.Change
import Countersign.Proofs.Decodings
import Countersign.Proofs.V1Grammar
import Countersign.Txn.Part

/-!
# Where the bytes go

Whatever is done to a decoder, the bytes that it has taken are those of the parts it has completed,
in wire order, and then those that it still holds; and the bytes under the signature are the opening
of the format and then what is covered of each part. The invariant `Accounted` says so of a decoder
and of the parts and the bytes up to now. A step that moves on adds one part to it
(`accounted_moves`), a chunk that is taken adds bytes that are held (`accounted_of_held`), and
nothing else changes any of it; so it holds after every sequence of calls (`accounted_observe`).

What is covered of a part is not taken from the entry or the header that was read, but said for each
format by its place alone (`V1.coveredOf`, `V2.coveredOf`); `Layout.Covers` ties the two together,
and `every_byte_once` is the account for both formats.
-/

namespace Countersign

/-! ## Parts in wire order -/

namespace Layout

variable {S : Type} [Layout S]

/-- The parts are those of a transaction from its start up to the place where `k` of `count` entries
of section `s` have been read, each one read off its bytes. -/
inductive LeadsTo (sigIndex : UInt16) : List (Part S) → S → UInt64 → UInt64 → Prop where
  | start : LeadsTo sigIndex [] Layout.start 0 0
  | header {ps : List (Part S)} {s₀ s : S} {k : UInt64} {w : Bytes} {h : Header}
      (hps : LeadsTo sigIndex ps s₀ k k) (hnext : Layout.next? s₀ = some s)
      (hw : (Layout.header sigIndex s).Accepts w h) (hlen : w.length ≤ 510) :
      LeadsTo sigIndex (ps ++ [⟨.header s, w⟩]) s h.count 0
  | entry {ps : List (Part S)} {s : S} {count k : UInt64} {w : Bytes} {e : Entry}
      (hps : LeadsTo sigIndex ps s count k) (hk : k ≠ count)
      (hw : (Layout.entry sigIndex s k).Accepts w e) (hlen : w.length ≤ 510) :
      LeadsTo sigIndex (ps ++ [⟨.entry s k, w⟩]) s count (k + 1)

/-- An entry among the parts is one that its bytes are read as. -/
theorem LeadsTo.accepts_entry {sigIndex : UInt16} {ps : List (Part S)} {s : S}
    {count index : UInt64} (h : LeadsTo sigIndex ps s count index) {t : S} {k : UInt64} {w : Bytes}
    (hw : ⟨.entry t k, w⟩ ∈ ps) :
    ∃ e, (Layout.entry sigIndex t k).Accepts w e ∧ w.length ≤ 510 := by
  induction h with
  | start => cases hw
  | header _ _ _ _ ih =>
    rcases List.mem_append.1 hw with hw | hw
    · exact ih hw
    · cases List.mem_singleton.1 hw
  | entry _ _ hread hlen ih =>
    rcases List.mem_append.1 hw with hw | hw
    · exact ih hw
    · cases List.mem_singleton.1 hw
      exact ⟨_, hread, hlen⟩

/-- What is covered of a part is what its header or its entry says. -/
structure Covers (sigIndex : UInt16) (covered : Part S → Bytes) : Prop where
  header : ∀ {s : S} {w : Bytes} {h : Header}, (Layout.header sigIndex s).Accepts w h →
    h.cover.part w = covered ⟨.header s, w⟩
  entry : ∀ {s : S} {k : UInt64} {w : Bytes} {e : Entry}, (Layout.entry sigIndex s k).Accepts w e →
    e.lead ++ e.cover.part w = covered ⟨.entry s k, w⟩

end Layout

namespace Decoder

variable {S : Type} [Layout S]

/-! ## The parts of a single request -/

theorem partsOfNext_of_outcome {d : Decoder S} {r : Except DecodeError Digest}
    (h : d.outcome = some r) : d.partsOfNext = [] := by
  rw [partsOfNext, h]

theorem partsOfNext_of_step {d : Decoder S} (hd : d.outcome = none) :
    d.partsOfNext = match d.step with
      | .hidden d' => d.partTo d' :: d'.partsOfNext
      | .shows _ d' => [d.partTo d']
      | .ends _ _ | .waits | .fails _ => [] := by
  rw [partsOfNext]
  split
  · next hended =>
    rw [hd] at hended
    cases hended
  · split
    all_goals next hstep => rw [hstep]

/-! ## The invariant -/

section accounted

variable {sigIndex : UInt16} {covered : Part S → Bytes} {ps : List (Part S)} {taken : Bytes}
  {d d' : Decoder S}

/-- The parts that have been completed, the bytes that have been taken and the bytes under the
signature agree. -/
structure Accounted (sigIndex : UInt16) (covered : Part S → Bytes) (ps : List (Part S))
    (taken : Bytes) (d : Decoder S) : Prop where
  wanted : d.sigIndex = sigIndex
  inOrder : Layout.LeadsTo sigIndex ps d.place d.count d.index
  taken_eq : taken = ps.flatMap Part.bytes ++ d.held
  absorbed : d.transcript.bytes = (Layout.opening S).bytes ++ ps.flatMap covered

theorem accounted_new (change : Option Address) :
    Accounted sigIndex covered [] [] (new sigIndex change : Decoder S) :=
  ⟨rfl, .start, rfl, (List.append_nil _).symm⟩

omit [Layout S] in
/-- The bytes of the part that has been completed are at the front of those held before. -/
theorem bytes_partTo {w : Bytes} (h : d.held = w ++ d'.held) : (d.partTo d').bytes = w := by
  have hlen := congrArg List.length h
  rw [List.length_append, length_held, length_held] at hlen
  show d.held.take (d.buffer.length - d'.buffer.length) = w
  rw [h, show d.buffer.length - d'.buffer.length = w.length by omega, List.take_left]

/-- A part that has been completed joins those before it, if it leads on from them. -/
theorem accounted_concat (h : Accounted sigIndex covered ps taken d) {part : Part S}
    (hwanted : d'.sigIndex = d.sigIndex)
    (hinOrder : Layout.LeadsTo sigIndex (ps ++ [part]) d'.place d'.count d'.index)
    (hheld : d.held = part.bytes ++ d'.held)
    (habsorbed : d'.transcript.bytes = d.transcript.bytes ++ covered part) :
    Accounted sigIndex covered (ps ++ [part]) taken d' := by
  refine ⟨hwanted.trans h.wanted, hinOrder, ?_, ?_⟩
  · rw [h.taken_eq, hheld, List.flatMap_append, List.flatMap_singleton, List.append_assoc]
  · rw [habsorbed, h.absorbed, List.flatMap_append, List.flatMap_singleton, List.append_assoc]

/-- A step that moves on completes a part. -/
theorem accounted_moves (hcovers : Layout.Covers sigIndex covered)
    (h : Accounted sigIndex covered ps taken d) {shown : Option Element}
    (hread : d.position.read (d.held ++ []) = .moves d'.position shown (d'.held ++ [])) :
    Accounted sigIndex covered (ps ++ [d.partTo d']) taken d' := by
  obtain ⟨r, w, piece, hr, hw, hlen, hheld, hafter, -⟩ := Position.exists_of_read hread
  rw [List.append_nil, List.append_nil] at hheld
  have hbytes := bytes_partTo hheld
  have hinOrder := h.inOrder
  have hwanted : d'.sigIndex = d.sigIndex := by
    show d'.position.sigIndex = d.sigIndex
    rw [hafter]
    cases piece <;> rfl
  by_cases hindex : d.index = d.count
  · -- the header of the section that follows
    rw [Position.reader?_header (p := d.position) hindex] at hr
    obtain ⟨s, hnext, rfl⟩ := Option.map_eq_some_iff.1 hr
    obtain ⟨header, hheader, rfl⟩ := Reader.accepts_map.1 hw
    replace hheader : (Layout.header sigIndex s).Accepts w header := h.wanted ▸ hheader
    have hplace : d'.place = s := congrArg Position.place hafter
    have hcount : d'.count = header.count := congrArg Position.count hafter
    have hzero : d'.index = 0 := congrArg Position.index hafter
    have hpart : d.partTo d' = ⟨.header s, w⟩ := by
      rw [← hbytes, partTo, if_pos hindex, hplace]
    rw [hindex] at hinOrder
    rw [hpart]
    refine accounted_concat h hwanted ?_ hheld ?_
    · rw [hplace, hcount, hzero]
      exact .header hinOrder hnext hheader hlen
    · rw [← hcovers.header hheader]
      exact congrArg Position.covered hafter
  · -- the next entry of the section
    rw [Position.reader?_entry (p := d.position) hindex] at hr
    obtain rfl := Option.some.inj hr
    obtain ⟨entry, hentry, rfl⟩ := Reader.accepts_map.1 hw
    replace hentry : (Layout.entry sigIndex d.place d.index).Accepts w entry := h.wanted ▸ hentry
    have hplace : d'.place = d.place := congrArg Position.place hafter
    have hcount : d'.count = d.count := congrArg Position.count hafter
    have hnumber : d'.index = d.index + 1 := congrArg Position.index hafter
    have hpart : d.partTo d' = ⟨.entry d.place d.index, w⟩ := by
      rw [← hbytes, partTo, if_neg hindex]
    rw [hpart]
    refine accounted_concat h hwanted ?_ hheld ?_
    · rw [hplace, hcount, hnumber]
      exact .entry hinOrder hindex hentry hlen
    · rw [← hcovers.entry hentry, ← List.append_assoc]
      exact congrArg Position.covered hafter

/-- The invariant depends on nothing but the position and what is held, and bytes that are taken are
held behind those before. -/
theorem accounted_of_held (h : Accounted sigIndex covered ps taken d) {chunk : Bytes}
    (hposition : d'.position = d.position) (hheld : d'.held = d.held ++ chunk) :
    Accounted sigIndex covered ps (taken ++ chunk) d' := by
  have hplace : d'.place = d.place := congrArg Position.place hposition
  have hcount : d'.count = d.count := congrArg Position.count hposition
  have hindex : d'.index = d.index := congrArg Position.index hposition
  refine ⟨(congrArg Position.sigIndex hposition).trans h.wanted, ?_, ?_,
    (congrArg Position.covered hposition).trans h.absorbed⟩
  · rw [hplace, hcount, hindex]
    exact h.inOrder
  · rw [hheld, h.taken_eq, List.append_assoc]

theorem accounted_congr (h : Accounted sigIndex covered ps taken d)
    (hposition : d'.position = d.position) (hheld : d'.held = d.held) :
    Accounted sigIndex covered ps taken d' := by
  rw [← List.append_nil taken]
  exact accounted_of_held h hposition (by rw [hheld, List.append_nil])

/-- A step that ends decoding leaves the buffer as it is. -/
theorem held_of_ends {hash : Digest} (h : d.step = .ends hash d') : d'.held = d.held := by
  unfold step at h
  split at h
  · split at h
    · split at h
      · cases h
      · cases h
        rfl
    · split at h
      · unfold enter at h
        split at h <;> cases h
      · cases h
      · cases h
  · split at h
    · unfold complete at h
      split at h
      · cases h
      · dsimp only at h
        split at h
        · cases h
        · split at h <;> cases h
    · cases h
    · cases h

/-! ## Requests, chunks and calls -/

/-- A request adds the parts that it completes, and takes no bytes. -/
theorem accounted_next (hd : d.Live) (hcovers : Layout.Covers sigIndex covered)
    (h : Accounted sigIndex covered ps taken d) :
    Accounted sigIndex covered (ps ++ d.partsOfNext) taken d.next.2 := by
  have hparts := partsOfNext_of_step hd.outcome
  have hmatch := matches_step hd []
  fun_induction next d generalizing ps with
  | case1 d e houtcome => rw [hd.outcome] at houtcome; cases houtcome
  | case2 d hash houtcome => rw [hd.outcome] at houtcome; cases houtcome
  | case3 d _ d' hstep ih =>
    rw [hstep] at hmatch hparts
    have hmoved := ih hmatch.1 (accounted_moves hcovers h hmatch.2)
      (partsOfNext_of_step hmatch.1.outcome) (matches_step hmatch.1 [])
    rw [hparts]
    rwa [List.append_assoc] at hmoved
  | case4 d _ e d' hstep =>
    rw [hstep] at hmatch hparts
    rw [hparts]
    exact accounted_moves hcovers h hmatch.2
  | case5 d _ hash d' hstep =>
    have hheld := held_of_ends hstep
    rw [hstep] at hmatch hparts
    rw [hparts, List.append_nil]
    exact accounted_congr h hmatch.1 hheld
  | case6 d _ hstep _ =>
    rw [hstep] at hparts
    rw [hparts, List.append_nil]
    exact accounted_congr h rfl rfl
  | case7 d _ hstep _ =>
    rw [hstep] at hparts
    rw [hparts, List.append_nil]
    exact accounted_congr h rfl rfl
  | case8 d _ e hstep =>
    rw [hstep] at hparts
    rw [hparts, List.append_nil]
    exact accounted_congr h rfl rfl

/-- A call adds the parts that it completes and the chunk that it takes. -/
theorem accounted_call (hd : d.Live ∨ d.outcome.isSome) (hcovers : Layout.Covers sigIndex covered)
    (h : Accounted sigIndex covered ps taken d) (c : Call) :
    Accounted sigIndex covered (ps ++ d.partsOfCall c) (taken ++ d.accepted [c])
      (d.call c).2 := by
  rcases c with chunk | _
  · rw [partsOfCall, List.append_nil, call, accepted]
    rcases hpush : d.push chunk with e | d'
    · dsimp only
      rw [accepted, List.append_nil]
      exact h
    · rcases hd with hd | hended
      · obtain ⟨-, hposition, hheld⟩ := live_of_push hd hpush
        dsimp only
        rw [accepted, List.append_nil]
        exact accounted_of_held h hposition hheld
      · -- a decoder that is at its end takes no chunk
        obtain ⟨r, hr⟩ := Option.isSome_iff_exists.1 hended
        rw [push, hr] at hpush
        rcases r with e | hash <;> cases hpush
  · show Accounted sigIndex covered (ps ++ d.partsOfNext) (taken ++ []) d.next.2
    rw [List.append_nil]
    rcases hd with hd | hended
    · exact accounted_next hd hcovers h
    · obtain ⟨r, hr⟩ := Option.isSome_iff_exists.1 hended
      rw [partsOfNext_of_outcome hr, List.append_nil, next_of_outcome hr]
      exact h

end accounted

/-! ## Sequences of calls -/

section calls

variable (d : Decoder S)

theorem observe_append (cs cs' : List Call) :
    (d.observe (cs ++ cs')).2 = ((d.observe cs).2.observe cs').2 := by
  induction cs generalizing d with
  | nil => rfl
  | cons c cs ih => exact ih (d.call c).2

theorem accepted_cons (c : Call) (cs : List Call) :
    d.accepted (c :: cs) = d.accepted [c] ++ (d.call c).2.accepted cs := by
  rcases c with chunk | _
  · rw [accepted, accepted, call]
    rcases d.push chunk with e | d'
    · rfl
    · dsimp only
      rw [accepted, List.append_nil]
  · rfl

theorem accepted_append (cs cs' : List Call) :
    d.accepted (cs ++ cs') = d.accepted cs ++ (d.observe cs).2.accepted cs' := by
  induction cs generalizing d with
  | nil => rfl
  | cons c cs ih =>
    rw [List.cons_append, accepted_cons, ih, ← List.append_assoc, ← accepted_cons]
    rfl

theorem parts_append (cs cs' : List Call) :
    d.parts (cs ++ cs') = d.parts cs ++ (d.observe cs).2.parts cs' := by
  induction cs generalizing d with
  | nil => rfl
  | cons c cs ih =>
    rw [List.cons_append, parts, ih, ← List.append_assoc]
    rfl

end calls

/-- After any sequence of calls the parts, the bytes taken and the bytes under the signature
agree. -/
theorem accounted_observe {sigIndex : UInt16} {covered : Part S → Bytes} {ps : List (Part S)}
    {taken : Bytes} {d : Decoder S} (hd : d.Live ∨ d.outcome.isSome)
    (hcovers : Layout.Covers sigIndex covered) (h : Accounted sigIndex covered ps taken d)
    (cs : List Call) :
    Accounted sigIndex covered (ps ++ d.parts cs) (taken ++ d.accepted cs) (d.observe cs).2 := by
  induction cs generalizing d ps taken with
  | nil =>
    rw [parts, accepted, List.append_nil, List.append_nil]
    exact h
  | cons c cs ih =>
    have hrest := ih (live_or_ended_call hd c) (accounted_call hd hcovers h c)
    rw [List.append_assoc, List.append_assoc, ← accepted_cons] at hrest
    exact hrest

/-! ## Requests that add nothing -/

omit [Layout S] in
/-- A decoder that goes on is at the start of a part. -/
theorem rewind_of_live {d : Decoder S} (hd : d.Live) :
    { d with buffer := d.buffer.rewind } = d := by
  have hstart := hd.atStart
  rcases d with
    ⟨sigIndex, change, ⟨store, length, offset⟩, transcript, place, count, index, shown, _⟩
  obtain rfl : offset = 0 := hstart
  rfl

/-- A decoder that asks for more holds a part that is not complete, and asks for more again. -/
theorem waits_of_needsMore {d d' : Decoder S} (hd : d.Live) (h : d.next = (.ok .needsMore, d')) :
    d'.step = .waits ∧ d'.next = (.ok .needsMore, d') ∧ d'.partsOfNext = [] := by
  fun_induction next d with
  | case1 => cases h
  | case2 => cases h
  | case3 d _ d₁ hstep ih =>
    have hmatch := matches_step hd []
    rw [hstep] at hmatch
    exact ih hmatch.1 h
  | case4 => cases h
  | case5 => cases h
  | case6 => cases h
  | case7 d _ hstep d₁ hroom =>
    obtain rfl : d = d' := (rewind_of_live hd).symm.trans (congrArg Prod.snd h)
    have hnext := next_of_step hd.outcome
    have hparts := partsOfNext_of_step hd.outcome
    rw [hstep] at hnext hparts
    dsimp only at hnext
    rw [if_neg hroom, rewind_of_live hd] at hnext
    exact ⟨hstep, hnext, hparts⟩
  | case8 => cases h

/-! ## The account of a decoder -/

/-- What has become of all bytes after a sequence of calls: those that were taken are in the parts
that have been completed, or are still held; of each part what is covered is under the signature;
and neither a chunk that is refused nor asking for more than there is adds anything. -/
structure AccountsFor (opening : Bytes) (covered : Part S → Bytes) (d : Decoder S)
    (cs : List Call) : Prop where
  inOrder : Layout.LeadsTo d.sigIndex (d.parts cs) (d.observe cs).2.place (d.observe cs).2.count
    (d.observe cs).2.index
  taken : d.accepted cs = (d.parts cs).flatMap Part.bytes ++ (d.observe cs).2.held
  absorbed : (d.observe cs).2.transcript.bytes = opening ++ (d.parts cs).flatMap covered
  refused : ∀ chunk e, (d.observe cs).2.push chunk = .error e →
    (d.observe (cs ++ [.push chunk])).2 = (d.observe cs).2 ∧
      d.parts (cs ++ [.push chunk]) = d.parts cs ∧ d.accepted (cs ++ [.push chunk]) = d.accepted cs
  waiting : ∀ d', (d.observe cs).2.next = (.ok .needsMore, d') →
    d'.step = .waits ∧ d'.next = (.ok .needsMore, d') ∧
      d.parts (cs ++ [.next, .next]) = d.parts (cs ++ [.next])

theorem accountsFor_new {sigIndex : UInt16} {covered : Part S → Bytes}
    (hcovers : Layout.Covers sigIndex covered) (change : Option Address) (cs : List Call) :
    (new sigIndex change : Decoder S).AccountsFor (Layout.opening S).bytes covered cs := by
  have hlive : (new sigIndex change : Decoder S).Live := live_new sigIndex change
  have haccounted := accounted_observe (Or.inl hlive) hcovers (accounted_new change) cs
  have hstate := live_or_ended_observe (Or.inl hlive) cs
  refine ⟨haccounted.inOrder, haccounted.taken_eq, haccounted.absorbed, fun chunk e hpush => ?_,
    fun d' hnext => ?_⟩
  · rw [observe_append, parts_append, accepted_append]
    refine ⟨?_, List.append_nil _, ?_⟩
    · rw [observe, call, hpush]
      rfl
    · rw [accepted, hpush]
      exact List.append_nil _
  · have hwaits : d'.step = .waits ∧ d'.next = (.ok .needsMore, d') ∧ d'.partsOfNext = [] := by
      rcases hstate with hd | hended
      · exact waits_of_needsMore hd hnext
      · -- a decoder that is at its end asks for nothing
        obtain ⟨r, hr⟩ := Option.isSome_iff_exists.1 hended
        rw [next_of_outcome hr] at hnext
        rcases r with _ | _ <;> cases hnext
    refine ⟨hwaits.1, hwaits.2.1, ?_⟩
    rw [parts_append, parts_append, parts, parts, parts, partsOfCall, call, hnext]
    dsimp only
    rw [partsOfCall, hwaits.2.2]
    rfl

end Decoder

/-! ## The two formats -/

namespace Layout

theorem yields_counted : counted.Yields (·.cover = .all) := Reader.yields_bind fun _ => rfl

theorem yields_emptyCount : emptyCount.Yields (·.cover = .all) := by
  refine Reader.yields_bind fun n => ?_
  split
  · rfl
  · trivial

/-- An entry that is covered as a whole, with these bytes ahead of it. -/
def CoversAll (lead : Bytes) (r : Reader Entry) : Prop :=
  r.Yields fun e => e.lead = lead ∧ e.cover = .all

theorem coversAll_siacoinOutput : CoversAll [] siacoinOutput :=
  Reader.yields_bind fun _ => Reader.yields_bind fun _ => ⟨rfl, rfl⟩

theorem coversAll_siafundOutput : CoversAll [] siafundOutput :=
  Reader.yields_bind fun _ => Reader.yields_bind fun _ => Reader.yields_bind fun _ => ⟨rfl, rfl⟩

theorem coversAll_minerFee : CoversAll [] minerFee := Reader.yields_bind fun _ => ⟨rfl, rfl⟩

/-- A header that is covered as a whole is covered with all its bytes. -/
theorem part_of_yields {r : Reader Header} (hr : r.Yields (·.cover = .all)) {w : Bytes} {h : Header}
    (hw : r.Accepts w h) : h.cover.part w = w := by
  rw [Reader.yields_of_accepts hr hw]
  rfl

theorem part_of_coversAll {lead : Bytes} {r : Reader Entry} (hr : CoversAll lead r) {w : Bytes}
    {e : Entry} (hw : r.Accepts w e) : e.lead ++ e.cover.part w = lead ++ w := by
  obtain ⟨hlead, hcover⟩ := Reader.yields_of_accepts hr hw
  rw [hlead, hcover]
  rfl

end Layout

namespace V1

theorem yields_signatureCount (sigIndex : UInt16) :
    (signatureCount sigIndex).Yields (·.cover = .nothing) := by
  refine Reader.yields_bind fun n => ?_
  split
  · trivial
  · rfl

theorem coversAll_siacoinInput : Layout.CoversAll [Transcript.replayByteV1] siacoinInput :=
  Reader.yields_bind fun _ => Reader.yields_bind fun _ => ⟨rfl, rfl⟩

theorem coversAll_siafundInput : Layout.CoversAll [Transcript.replayByteV1] siafundInput :=
  Reader.yields_bind fun _ => Reader.yields_bind fun _ => Reader.yields_bind fun _ => ⟨rfl, rfl⟩

theorem yields_signature_covers (sigIndex : UInt16) (k : UInt64) :
    (signature sigIndex k).Yields fun e => e = signatureEntry sigIndex k :=
  Reader.yields_bind fun _ => Reader.yields_bind fun _ => Reader.yields_bind fun _ =>
    Reader.yields_bind fun _ => Reader.yields_bind fun _ => rfl

/-- The place of a part of the first format says what is covered of it. -/
theorem covers (sigIndex : UInt16) : Layout.Covers sigIndex (coveredOf sigIndex) where
  header {s w h} hw :=
    match s with
    | .signatures => by
      rw [Reader.yields_of_accepts (yields_signatureCount sigIndex) hw]
      rfl
    | .fileContracts | .fileContractRevisions | .storageProofs | .arbitraryData =>
      Layout.part_of_yields Layout.yields_emptyCount hw
    | .start | .siacoinInputs | .siacoinOutputs | .siafundInputs | .siafundOutputs | .minerFees =>
      Layout.part_of_yields Layout.yields_counted hw
  entry {s k w e} hw :=
    match s with
    | .siacoinInputs => Layout.part_of_coversAll coversAll_siacoinInput hw
    | .siacoinOutputs => Layout.part_of_coversAll Layout.coversAll_siacoinOutput hw
    | .siafundInputs => Layout.part_of_coversAll coversAll_siafundInput hw
    | .siafundOutputs => Layout.part_of_coversAll Layout.coversAll_siafundOutput hw
    | .minerFees => Layout.part_of_coversAll Layout.coversAll_minerFee hw
    | .signatures => by
      rw [Reader.yields_of_accepts (yields_signature_covers sigIndex k) hw]
      simp only [signatureEntry, coveredOf, List.nil_append, apply_ite (Coverage.part · w)]
      rfl
    | .start | .fileContracts | .fileContractRevisions | .storageProofs | .arbitraryData =>
      (Reader.not_accepts_refuse hw).elim

/-- The wanted signature has all the bytes that are covered of it. -/
theorem length_coveredOf {sigIndex : UInt16} {ps : List (Part Section)} {s : Section}
    {count index : UInt64} (h : Layout.LeadsTo sigIndex ps s count index) {p : Part Section}
    (hp : p ∈ ps) {k : UInt64} (hspot : p.spot = .entry .signatures k)
    (hk : k.toNat = sigIndex.toNat) : (coveredOf sigIndex p).length = coveredSignatureLength := by
  obtain ⟨spot, w⟩ := p
  obtain rfl : spot = .entry .signatures k := hspot
  obtain ⟨e, he, hlen⟩ := h.accepts_entry hp
  obtain ⟨entry, rfl, -⟩ := (accepts_signature (by omega)).1 he
  have hidentity := entry.identity.length_bytes
  show (if k.toNat = sigIndex.toNat then entry.encode.take 48 else []).length = 48
  rw [if_pos hk, List.length_take, SignatureEntry.encode, List.length_append]
  omega

end V1

namespace V2

theorem yields_foundationFlag : foundationFlag.Yields (·.cover = .all) := by
  refine Reader.yields_bind fun flag => ?_
  split
  · rfl
  · trivial

theorem coversAll_input : Layout.CoversAll [] input := Reader.yields_bind fun _ => ⟨rfl, rfl⟩

theorem coversAll_attestation : Layout.CoversAll [] attestation :=
  Reader.yields_bind fun _ => Reader.yields_bind fun _ => Reader.yields_bind fun _ =>
    Reader.yields_bind fun _ => ⟨rfl, rfl⟩

/-- Every part of the second format is covered as a whole. -/
theorem covers (sigIndex : UInt16) : Layout.Covers sigIndex coveredOf where
  header {s _ _} hw :=
    match s with
    | .foundationAddress => Layout.part_of_yields yields_foundationFlag hw
    | .minerFee => Layout.part_of_yields (r := .done ⟨1, .all⟩) rfl hw
    | .fileContracts | .fileContractRevisions | .fileContractResolutions | .arbitraryData =>
      Layout.part_of_yields Layout.yields_emptyCount hw
    | .start | .siacoinInputs | .siacoinOutputs | .siafundInputs | .siafundOutputs
    | .attestations => Layout.part_of_yields Layout.yields_counted hw
  entry {s _ _ _} hw :=
    match s with
    | .siacoinInputs | .siafundInputs => Layout.part_of_coversAll coversAll_input hw
    | .siacoinOutputs => Layout.part_of_coversAll Layout.coversAll_siacoinOutput hw
    | .siafundOutputs => Layout.part_of_coversAll Layout.coversAll_siafundOutput hw
    | .attestations => Layout.part_of_coversAll coversAll_attestation hw
    | .minerFee => Layout.part_of_coversAll Layout.coversAll_minerFee hw
    | .start | .fileContracts | .fileContractRevisions | .fileContractResolutions
    | .arbitraryData | .foundationAddress => (Reader.not_accepts_refuse hw).elim

end V2

/-! ## Every byte once -/

/-- In both formats every byte that was taken is in one part, or is still held, and the bytes under
the signature are the opening of the format and what is covered of each part in turn; of the wanted
signature these are its first 48 bytes, all of them there. -/
theorem every_byte_once (sigIndex : UInt16) (change : Option Address) (cs : List Call) :
    ((Decoder.new sigIndex change : Decoder V1.Section).AccountsFor [] (V1.coveredOf sigIndex) cs ∧
        ∀ p ∈ (Decoder.new sigIndex change : Decoder V1.Section).parts cs, ∀ k,
          p.spot = .entry .signatures k → k.toNat = sigIndex.toNat →
            (V1.coveredOf sigIndex p).length = 48) ∧
      (Decoder.new sigIndex change : Decoder V2.Section).AccountsFor
        (Transcript.distinguisher ++ [Transcript.replayByteV2]) V2.coveredOf cs := by
  have hfirst := Decoder.accountsFor_new (V1.covers sigIndex) change cs
  have hsecond := Decoder.accountsFor_new (V2.covers sigIndex) change cs
  exact ⟨⟨hfirst, fun _ hp _ => V1.length_coveredOf hfirst.inOrder hp⟩, hsecond⟩

/-- The one signature of a transaction that is delivered in three chunks. -/
theorem every_byte_once_onceSigned :
    ⟨.entry .signatures 0, V1.SignatureEntry.encode ⟨Block.zero 48, []⟩⟩ ∈
        (Decoder.new 0 none : Decoder V1.Section).parts V1.onceSignedCalls ∧
      (V1.coveredOf 0
        ⟨.entry .signatures 0, V1.SignatureEntry.encode ⟨Block.zero 48, []⟩⟩).length = 48 := by
  have hp : ⟨.entry .signatures 0, V1.SignatureEntry.encode ⟨Block.zero 48, []⟩⟩ ∈
      (Decoder.new 0 none : Decoder V1.Section).parts V1.onceSignedCalls := by
    decide +kernel
  exact ⟨hp, (every_byte_once 0 none V1.onceSignedCalls).1.2 _ hp 0 rfl rfl⟩

end Countersign
