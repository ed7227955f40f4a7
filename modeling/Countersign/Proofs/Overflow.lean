import Countersign.Proofs.Coherence
import Countersign.Proofs.Decodings

/-!
# Reviews that go on after a refusal

A session ends a review that refuses a chunk, but a review on its own can be given more
(`Review.pushes`). Not every refusal is the last one:

* a chunk for which there is no room is not taken, and the review is as it was;
* a transaction that is refused stays refused, since the decoder has come to its end;
* an element for which there is no room is lost, and the decoder goes on behind it.

The invariant `Review.Keeps` says which elements have been lost: with those of the review ahead of
them they are all that the decoder has shown. So a review that comes to a hash shows the elements
of its transaction up to the 64th, and it shows all of them exactly when none was refused for want
of room (`shows_all_iff`).
-/

namespace Countersign

namespace AnyDecoder

variable {d d' : AnyDecoder} {r : Except DecodeError Digest}

/-- An answer that ends decoding is the outcome from then on. -/
theorem outcome_of_next (h : d.next = (r.map Finding.finished, d')) : d'.outcome = some r := by
  rcases d with d | d
  all_goals
    obtain ⟨hanswer, rfl⟩ := Prod.mk.inj h
    exact Decoder.outcome_next hanswer

/-- A decoder that has come to its end takes no chunk. -/
theorem exists_push_eq_error (h : d.outcome = some r) (chunk : Bytes) :
    ∃ e, d.push chunk = .error e := by
  rcases d with d | d
  all_goals
    replace h : d.outcome = some r := h
    rw [push, Decoder.push, h]
    rcases r with e | hash
    · exact ⟨e, rfl⟩
    · exact ⟨.finalized, rfl⟩

end AnyDecoder

namespace Review

/-! ## Chunk after chunk -/

/-- The answers to some chunks, one after the other, and the review after them. A chunk that is
refused does not keep the next one from being handed over. -/
def pushes (r : Review) : List Bytes → List (Except Refusal Bool) × Review
  | [] => ([], r)
  | chunk :: chunks =>
    let (answer, r') := r.push chunk
    let (answers, r'') := r'.pushes chunks
    (answer :: answers, r'')

/-- The data that the decoder takes of some chunks, one after the other. -/
def taken (r : Review) : List Bytes → Bytes
  | [] => []
  | chunk :: chunks =>
    match r.decoder.push chunk with
    | .ok _ => chunk ++ (r.push chunk).2.taken chunks
    | .error _ => (r.push chunk).2.taken chunks

/-! ## The invariant -/

/-- What the decoder `d` comes to with the data and some more are the elements of the review, those
that are lost, and what the decoder of the review comes to with the rest. -/
def Continues (d : AnyDecoder) (data : Bytes) (lost : List Element) (r : Review) : Prop :=
  ∀ more, d.outlook (data ++ more) =
    (r.elements ++ lost ++ (r.decoder.outlook more).1, (r.decoder.outlook more).2)

/-- The elements `lost` were shown after those of the review, which is full if there are any, by a
decoder that was `d` before it took the data. It may have refused the data; otherwise a hash is
there once the decoder has come to its end. -/
structure Keeps (d : AnyDecoder) (data : Bytes) (lost : List Element) (r : Review) : Prop where
  length_le : r.elements.length ≤ maxElements
  full : lost ≠ [] → r.elements.length = maxElements
  hash_eq : match r.hash with
    | none => (r.decoder.Live ∧ r.Continues d data lost) ∨
        ∃ e, r.decoder.outcome = some (.error e)
    | some hash => r.decoder.outcome = some (.ok hash) ∧
        d.outlook data = (r.elements ++ lost, .ok (.finished hash))

variable {d : AnyDecoder} {data chunk : Bytes} {lost : List Element} {r : Review}

theorem keeps_new (keyIndex : UInt32) (sigIndex : UInt16) (change : Option Address)
    (flags : Flags) :
    (new keyIndex sigIndex change flags).Keeps (AnyDecoder.new flags.format sigIndex change)
      [] [] :=
  ⟨Nat.zero_le _, fun h => absurd rfl h, Or.inl ⟨AnyDecoder.live_new _ _ _, fun _ => rfl⟩⟩

/-- A review without a hash has a decoder that goes on, or that has refused the data. -/
theorem live_or_refused (h : r.Keeps d data lost) (hhash : r.hash = none) :
    (r.decoder.Live ∧ r.Continues d data lost) ∨ ∃ e, r.decoder.outcome = some (.error e) := by
  have hstate := h.hash_eq
  rw [hhash] at hstate
  exact hstate

/-- Taking the elements that are complete loses one if the answer says so, and no other. -/
theorem keeps_drain (h : r.Keeps d data lost) (hhash : r.hash = none) (hd : r.decoder.Live) :
    ∃ lost', r.drain.2.Keeps d data (lost ++ lost') ∧
      lost'.length = [r.drain.1].count (.error .tooManyElements) := by
  have hanswer := AnyDecoder.foretells_next hd
  have hlook : r.Continues d data lost := by
    refine ((live_or_refused h hhash).resolve_right ?_).2
    rintro ⟨e, he⟩
    rw [hd.outcome] at he
    cases he
  fun_induction drain r with
  | case1 r e decoder hnext =>
    have hended : decoder.outcome = some (.error e) := AnyDecoder.outcome_of_next hnext
    refine ⟨[], ?_, rfl⟩
    rw [List.append_nil]
    refine ⟨h.length_le, h.full, ?_⟩
    dsimp only
    rw [hhash]
    exact Or.inr ⟨e, hended⟩
  | case2 r decoder hnext =>
    rw [hnext] at hanswer
    refine ⟨[], ?_, rfl⟩
    rw [List.append_nil]
    refine ⟨h.length_le, h.full, ?_⟩
    dsimp only
    rw [hhash]
    refine Or.inl ⟨hanswer.1, fun more => ?_⟩
    rw [hlook, hanswer.2]
  | case3 r hash decoder hnext =>
    have hended : decoder.outcome = some (.ok hash) := AnyDecoder.outcome_of_next hnext
    rw [hnext] at hanswer
    refine ⟨[], ?_, rfl⟩
    rw [List.append_nil]
    refine ⟨h.length_le, h.full, hended, ?_⟩
    rw [← List.append_nil data, hlook, hanswer, List.append_nil]
  | case4 r e decoder hnext hroom ih =>
    rw [hnext] at hanswer
    -- there is room, so nothing has been lost before
    have hnone : lost = [] := by
      by_contra hlost
      have hfull := h.full hlost
      omega
    subst hnone
    have hmoved :
        Continues d data [] { r with decoder, elements := r.elements ++ [e] } := by
      intro more
      rw [hlook, hanswer.2]
      simp
    refine ih ⟨?_, fun hlost => absurd rfl hlost, ?_⟩ hhash hanswer.1
      (AnyDecoder.foretells_next hanswer.1) hmoved
    · show (r.elements ++ [e]).length ≤ maxElements
      rw [List.length_append]
      exact hroom
    · dsimp only
      rw [hhash]
      exact Or.inl ⟨hanswer.1, hmoved⟩
  | case5 r e decoder hnext hfull =>
    rw [hnext] at hanswer
    refine ⟨[e], ⟨h.length_le, fun _ => Nat.le_antisymm h.length_le (Nat.not_lt.1 hfull), ?_⟩, rfl⟩
    dsimp only
    rw [hhash]
    refine Or.inl ⟨hanswer.1, fun more => ?_⟩
    rw [hlook, hanswer.2]
    simp

/-- A chunk loses an element if the answer says so, and no other. -/
theorem keeps_push (h : r.Keeps d data lost) (chunk : Bytes) :
    ∃ lost', (r.push chunk).2.Keeps d (data ++ r.taken [chunk]) (lost ++ lost') ∧
      lost'.length = [(r.push chunk).1].count (.error .tooManyElements) := by
  rcases hpush : r.decoder.push chunk with e | decoder
  · -- the chunk is not taken, and the review stays as it is
    have hsame : r.push chunk = (.error (.decode e), r) := by rw [push, hpush]
    have htaken : r.taken [chunk] = [] := by rw [taken, hpush, taken]
    rw [hsame, htaken, List.append_nil]
    exact ⟨[], by rwa [List.append_nil], rfl⟩
  · have hopen : ∀ answer, r.decoder.outcome ≠ some answer := by
      intro answer hended
      obtain ⟨e, he⟩ := AnyDecoder.exists_push_eq_error hended chunk
      rw [hpush] at he
      cases he
    have hhash : r.hash = none := by
      have hstate := h.hash_eq
      rcases hsome : r.hash with _ | hash
      · rfl
      · rw [hsome] at hstate
        exact absurd hstate.1 (hopen _)
    obtain ⟨hlive, hlook⟩ :=
      (live_or_refused h hhash).resolve_right fun ⟨_, he⟩ => hopen _ he
    obtain ⟨hlive', hmoved⟩ := AnyDecoder.outlook_push hlive hpush
    have htaken : r.taken [chunk] = chunk := by rw [taken, hpush, taken, List.append_nil]
    have hdrain : r.push chunk = drain { r with decoder } := by rw [push, hpush]
    rw [hdrain, htaken]
    refine keeps_drain ⟨h.length_le, h.full, ?_⟩ hhash hlive'
    dsimp only
    rw [hhash]
    refine Or.inl ⟨hlive', fun more => ?_⟩
    rw [List.append_assoc, hlook, hmoved]

/-- Every chunk that the decoder takes counts, whatever came before it. -/
theorem taken_cons (r : Review) (chunk : Bytes) (chunks : List Bytes) :
    r.taken (chunk :: chunks) = r.taken [chunk] ++ (r.push chunk).2.taken chunks := by
  rw [taken, taken]
  rcases r.decoder.push chunk with e | decoder
  · rfl
  · dsimp only
    rw [taken, List.append_nil]

/-- Some chunks lose as many elements as there are answers that say so. -/
theorem keeps_pushes (h : r.Keeps d data lost) (chunks : List Bytes) :
    ∃ lost', (r.pushes chunks).2.Keeps d (data ++ r.taken chunks) (lost ++ lost') ∧
      lost'.length = (r.pushes chunks).1.count (.error .tooManyElements) := by
  induction chunks generalizing r data lost with
  | nil =>
    refine ⟨[], ?_, rfl⟩
    rw [taken, List.append_nil, List.append_nil]
    exact h
  | cons chunk chunks ih =>
    obtain ⟨first, hfirst, hcount⟩ := keeps_push h chunk
    obtain ⟨others, hothers, hrest⟩ := ih hfirst
    refine ⟨first ++ others, ?_, ?_⟩
    · rw [taken_cons, ← List.append_assoc, ← List.append_assoc]
      exact hothers
    · rw [List.length_append, hcount, hrest, ← List.count_append]
      rfl

/-! ## What a hash stands for -/

/-- The elements of the review are as many of all as there is room for. -/
theorem take_of_keeps (h : r.Keeps d data lost) :
    (r.elements ++ lost).take maxElements = r.elements := by
  by_cases hlost : lost = []
  · rw [hlost, List.append_nil, List.take_of_length_le h.length_le]
  · exact List.take_left' (h.full hlost)

/-- A review that has come to a hash, whatever it refused on the way, has been given a transaction
with this hash, and shows its elements up to the 64th. The others are those that it refused for
want of room; so it shows all exactly when it refused none. -/
theorem shows_all_iff (keyIndex : UInt32) (sigIndex : UInt16) (change : Option Address)
    (flags : Flags) (chunks : List Bytes) (hash : Digest)
    (h : ((new keyIndex sigIndex change flags).pushes chunks).2.hash = some hash) :
    ∃ (t : AnyTransaction) (rest : Bytes), t.format = flags.format ∧ t.Fits ∧
      t.HasSignature sigIndex.toNat ∧
      (new keyIndex sigIndex change flags).taken chunks = t.encode ++ rest ∧
      hash = Blake2b.digest (t.covered sigIndex.toNat) ∧
      ((new keyIndex sigIndex change flags).pushes chunks).2.elements =
        (t.elements change).take maxElements ∧
      (t.elements change).length =
        ((new keyIndex sigIndex change flags).pushes chunks).2.elements.length +
          ((new keyIndex sigIndex change flags).pushes chunks).1.count (.error .tooManyElements) ∧
      (((new keyIndex sigIndex change flags).pushes chunks).2.elements = t.elements change ↔
        .error .tooManyElements ∉ ((new keyIndex sigIndex change flags).pushes chunks).1) := by
  obtain ⟨lost, hkeeps, hcount⟩ := keeps_pushes (keeps_new keyIndex sigIndex change flags) chunks
  rw [List.nil_append, List.nil_append] at hkeeps
  generalize (new keyIndex sigIndex change flags).pushes chunks = last at h hkeeps hcount
  have hstate := hkeeps.hash_eq
  rw [h] at hstate
  obtain ⟨t, rest, hformat, hfits, hindex, hdata, helements, hhash⟩ :=
    AnyDecoder.outlook_new_iff.1 hstate.2
  have hlength : (t.elements change).length =
      last.2.elements.length + last.1.count (.error .tooManyElements) := by
    rw [← helements, List.length_append, hcount]
  refine ⟨t, rest, hformat, hfits, hindex, hdata, hhash, ?_, hlength, ?_⟩
  · rw [← helements]
    exact (take_of_keeps hkeeps).symm
  · rw [← helements, List.self_eq_append_right, ← List.length_eq_zero_iff, hcount,
      List.count_eq_zero]

/-- A delivery in which a chunk is refused for which there is no room. -/
def interruptedChunks : List Bytes :=
  [V2.onePaid.encode.take 57, List.replicate 511 0, V2.onePaid.encode.drop 57]

theorem shows_all_interrupted :
    ((new 7 3 none ⟨true, true⟩).pushes interruptedChunks).2.hash =
        some (Blake2b.digest V2.onePaid.covered) ∧
      ∃ t : AnyTransaction, Blake2b.digest V2.onePaid.covered = Blake2b.digest (t.covered 3) ∧
        ((new 7 3 none ⟨true, true⟩).pushes interruptedChunks).2.elements = t.elements none := by
  have hhash : ((new 7 3 none ⟨true, true⟩).pushes interruptedChunks).2.hash =
      some (Blake2b.digest V2.onePaid.covered) := by
    decide +kernel
  obtain ⟨t, -, -, -, -, -, hdigest, -, -, hall⟩ :=
    shows_all_iff 7 3 none ⟨true, true⟩ interruptedChunks _ hhash
  exact ⟨hhash, t, hdigest, hall.2 (by decide +kernel)⟩

/-- A transaction with one fee more than there is room for. -/
def crowded : V1.Transaction :=
  { V1.onceSigned with siacoinOutputs := [], minerFees := List.replicate 65 ⟨[], by decide⟩ }

/-- A delivery of it with every fee in a chunk of its own. -/
def crowdedChunks : List Bytes :=
  crowded.encode.take 64 ::
    (crowded.minerFees.map Amount.encode ++ [crowded.encode.drop 584])

/-- The last fee is lost, and then there is a hash all the same. -/
theorem shows_too_few_crowded :
    (new 0 0 none ⟨false, false⟩).taken crowdedChunks = crowded.encode ∧
      .error .tooManyElements ∈ ((new 0 0 none ⟨false, false⟩).pushes crowdedChunks).1 ∧
      ((new 0 0 none ⟨false, false⟩).pushes crowdedChunks).2.hash.isSome = true ∧
      ((new 0 0 none ⟨false, false⟩).pushes crowdedChunks).2.elements.length = 64 ∧
      (crowded.elements none).length = 65 := by
  decide +kernel

end Review

end Countersign
