import Countersign.Proofs.Decodings
import Countersign.Proofs.V1Grammar

/-!
# What is final

Decoding comes to an end once, with a hash or with an error, and then it is over: every request
finds the same again, every chunk is refused, and the decoder stays as it is (`observe_atEnd`). The
end can be seen: there is an outcome exactly when a hash or an error has been found
(`outcome_observe_iff`).

Until then a chunk is refused for its length alone, and a chunk that is refused might as well not
have been handed over (`observe_refused`). `final_or_going` says both of a decoder after any calls.
-/

namespace Countersign

/-- What is seen of a call once decoding has ended: the hash or the error again, and no chunk is
taken. -/
def Call.sightAtEnd (r : Except DecodeError Digest) : Call → Sight
  | .next => .found (r.map Finding.finished)
  | .push _ =>
    match r with
    | .error e => .pushed (.error e)
    | .ok _ => .pushed (.error .finalized)

theorem map_finished_inj {r r' : Except DecodeError Digest}
    (h : r.map Finding.finished = r'.map Finding.finished) : r = r' := by
  rcases r with _ | _ <;> rcases r' with _ | _ <;> cases h <;> rfl

/-- At the end nothing is found but the outcome. -/
theorem eq_of_found_atEnd {r r' : Except DecodeError Digest} {cs : List Call}
    (h : Sight.found (r.map Finding.finished) ∈ cs.map (Call.sightAtEnd r')) : r = r' := by
  obtain ⟨c, -, hc⟩ := List.mem_map.1 h
  cases c with
  | push chunk => rcases r' with _ | _ <;> cases hc
  | next => exact map_finished_inj (Sight.found.inj hc).symm

namespace Decoder

variable {S : Type} [Layout S] {d : Decoder S} {r : Except DecodeError Digest}

/-! ## At the end -/

theorem call_atEnd (h : d.outcome = some r) (c : Call) : d.call c = (c.sightAtEnd r, d) := by
  cases c with
  | push chunk =>
    rw [call, push, h]
    rcases r with _ | _ <;> rfl
  | next =>
    rw [call, next_of_outcome h]
    rfl

/-- A decoder that has come to its end stays as it is and says the same again and again. -/
theorem observe_atEnd (h : d.outcome = some r) (cs : List Call) :
    d.observe cs = (cs.map (Call.sightAtEnd r), d) := by
  induction cs with
  | nil => rfl
  | cons c cs ih =>
    rw [observe, call_atEnd h]
    dsimp only
    rw [ih, List.map_cons]

/-! ## The end is seen -/

/-- A hash or an error that is found is the outcome, and there is no other. -/
theorem outcome_next_iff (hd : d.Live) :
    d.next.2.outcome = some r ↔ d.next.1 = r.map Finding.finished := by
  refine ⟨fun h => ?_, outcome_next⟩
  -- the answer that comes with an outcome ends decoding, and so it is the outcome
  have hended : ∃ r', d.next.1 = Except.map Finding.finished r' := by
    have hanswer := answers_next hd []
    rcases hnext : d.next with ⟨e | _ | e | hash, d'⟩
    all_goals rw [hnext] at h hanswer
    · exact ⟨.error e, rfl⟩
    · rw [hanswer.1.outcome] at h
      cases h
    · rw [hanswer.1.outcome] at h
      cases h
    · exact ⟨.ok hash, rfl⟩
  obtain ⟨r', hr'⟩ := hended
  have hsame : r' = r := Option.some.inj ((outcome_next hr').symm.trans h)
  rw [hr', hsame]

/-- There is an outcome exactly when it has been found. -/
theorem outcome_observe_iff (hd : d.Live) (cs : List Call) :
    (d.observe cs).2.outcome = some r ↔
      Sight.found (r.map Finding.finished) ∈ (d.observe cs).1 := by
  -- one call at a time, up to the first one that ends decoding
  induction cs generalizing d with
  | nil =>
    rw [observe, hd.outcome]
    simp
  | cons c cs ih =>
    rw [observe]
    cases c with
    | push chunk =>
      rcases hpush : d.push chunk with e | d'
      · have hcall : d.call (.push chunk) = (.pushed (.error e), d) := by rw [call, hpush]
        rw [hcall, List.mem_cons, ← ih hd]
        simp
      · have hcall : d.call (.push chunk) = (.pushed (.ok ()), d') := by rw [call, hpush]
        rw [hcall, List.mem_cons, ← ih (live_of_push hd hpush).1]
        simp
    | next =>
      have hcall : d.call .next = (.found d.next.1, d.next.2) := rfl
      have hfirst : r.map Finding.finished = d.next.1 ↔ d.next.2.outcome = some r :=
        eq_comm.trans (outcome_next_iff hd).symm
      rw [hcall, List.mem_cons, Sight.found.injEq, hfirst]
      dsimp only
      rcases live_or_ended_call (Or.inl hd) .next with hlive | hended
      · have hlive : d.next.2.Live := hlive
        rw [hlive.outcome, ← ih hlive]
        simp
      · obtain ⟨r', hr'⟩ := Option.isSome_iff_exists.1 hended
        have hr' : d.next.2.outcome = some r' := hr'
        rw [observe_atEnd hr']
        dsimp only
        rw [iff_self_or]
        intro hfound
        rw [hr', eq_of_found_atEnd hfound]

/-! ## Chunks that are refused -/

omit [Layout S] in
/-- Before the end a chunk is taken exactly when there is room for it. -/
theorem exists_push_iff (hd : d.Live) (chunk : Bytes) :
    (∃ d', d.push chunk = .ok d') ↔ chunk.length ≤ d.available := by
  refine ⟨fun h => ?_, exists_push hd⟩
  obtain ⟨d', h⟩ := h
  have hvalid := (live_of_push hd h).1.valid.length_le
  have hheld := congrArg List.length (live_of_push hd h).2.2
  rw [List.length_append, length_held, length_held] at hheld
  rw [available, Buffer.available, Buffer.capacity]
  omega

omit [Layout S] in
/-- Before the end a chunk for which there is no room is refused for its length. -/
theorem push_of_long (hd : d.Live) {chunk : Bytes} (h : d.available < chunk.length) :
    d.push chunk = .error .capacity := by
  have hlong : d.buffer.length + chunk.length > Buffer.capacity := by
    rw [available, Buffer.available] at h
    omega
  rw [push, hd.outcome, Buffer.push, if_pos hlong]
  rfl

/-- A chunk that is refused leaves everything as it would be without it. -/
theorem observe_refused {chunk : Bytes} {e : DecodeError} (h : d.push chunk = .error e)
    (cs : List Call) :
    d.observe (.push chunk :: cs) =
      (.pushed (.error e) :: (d.observe cs).1, (d.observe cs).2) := by
  rw [observe, call, h]

/-! ## Both of a decoder after any calls -/

/-- As long as neither a hash nor an error has been found, a chunk is taken exactly when there is
room for it, and is refused for its length otherwise, and then all goes on as if it had not been
handed over. Once a hash has been found, or an error, every request finds it again, a chunk is
refused as one that comes too late, or for the error, and nothing about the decoder changes. -/
theorem final_or_going (sigIndex : UInt16) (change : Option Address) (cs : List Call)
    (seen : List Sight) (d : Decoder S)
    (h : (new sigIndex change : Decoder S).observe cs = (seen, d)) :
    ((∀ r : Except DecodeError Digest, Sight.found (r.map Finding.finished) ∉ seen) →
      ∀ chunk, ((∃ d', d.push chunk = .ok d') ↔ chunk.length ≤ d.available) ∧
        (d.available < chunk.length → d.push chunk = .error .capacity ∧
          ∀ cs', d.observe (.push chunk :: cs') =
            (.pushed (.error .capacity) :: (d.observe cs').1, (d.observe cs').2))) ∧
    ∀ r : Except DecodeError Digest, Sight.found (r.map Finding.finished) ∈ seen →
      ∀ cs', d.observe cs' = (cs'.map (Call.sightAtEnd r), d) := by
  have hlive : (new sigIndex change : Decoder S).Live := live_new sigIndex change
  have hstate := live_or_ended_observe (Or.inl hlive) cs
  have hseen := fun r => outcome_observe_iff (r := r) hlive cs
  rw [h] at hstate hseen
  refine ⟨fun hgoing chunk => ?_, fun r hfound => observe_atEnd ((hseen r).2 hfound)⟩
  have hd : d.Live := by
    refine hstate.resolve_right fun hended => ?_
    obtain ⟨r, hr⟩ := Option.isSome_iff_exists.1 hended
    exact hgoing r ((hseen r).1 hr)
  refine ⟨exists_push_iff hd chunk, fun hlong => ?_⟩
  have hpush := push_of_long hd hlong
  exact ⟨hpush, observe_refused hpush⟩

end Decoder

/-- What is done to a decoder when a transaction has been decoded: a byte too many, a chunk for
which there would be no room, and a further request. -/
def afterwards : List Call := [.push [8], .push (List.replicate 600 0), .next]

theorem final_onceSigned : ∃ hash,
    Sight.found (.ok (.finished hash)) ∈
        ((Decoder.new 0 none : Decoder V1.Section).observe V1.onceSignedCalls).1 ∧
      ((Decoder.new 0 none : Decoder V1.Section).observe V1.onceSignedCalls).2.observe afterwards =
        ([.pushed (.error .finalized), .pushed (.error .finalized), .found (.ok (.finished hash))],
          ((Decoder.new 0 none : Decoder V1.Section).observe V1.onceSignedCalls).2) := by
  have hended : ((Decoder.new 0 none : Decoder V1.Section).observe
      V1.onceSignedCalls).2.outcome.map Except.isOk = some true := by decide +kernel
  obtain ⟨r, hr, hok⟩ := Option.map_eq_some_iff.1 hended
  rcases r with e | hash
  · cases hok
  · have hfound := (Decoder.outcome_observe_iff (Decoder.live_new 0 none) V1.onceSignedCalls).1 hr
    exact ⟨hash, hfound, (Decoder.final_or_going 0 none V1.onceSignedCalls _ _ (Prod.eta _).symm).2
      (.ok hash) hfound afterwards⟩

end Countersign
