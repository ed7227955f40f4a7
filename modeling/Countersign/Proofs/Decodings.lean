import Countersign.Proofs.Sections
import Countersign.Txn.Decoding

/-!
# What a decoding has read

A decoding may hand over chunks that are refused and may go on asking when the hash is known, so its
calls need not be a schedule. It has read its stream all the same: the survey of the bytes that were
taken is what it saw (`survey_of_observe`), since a decoder that has come to its end takes nothing
and shows nothing (`observe_of_outcome`). So the stream completes with the bytes that were absorbed
(`completes`); and every byte string that comes to a hash is read by a decoding
(`exists_of_finishes`).
-/

namespace Countersign

namespace Decoder

variable {S : Type} [Layout S]

/-! ## Findings -/

omit [Layout S] in
theorem lastFinding_found (r : Except DecodeError Finding) (sights : List Sight) :
    lastFinding (.found r :: sights) = some ((lastFinding sights).getD r) := by
  show ((sights.filterMap Sight.finding?).cons r).getLast? = _
  rw [List.getLast?_cons]
  rfl

omit [Layout S] in
/-- Behind a finding that is not a hash, there is one that is if the last finding is a hash. -/
theorem lastFinding_of_cons {r : Except DecodeError Finding} {sights : List Sight} {hash : Digest}
    (hr : ∀ hash, r ≠ .ok (.finished hash))
    (h : lastFinding (.found r :: sights) = some (.ok (.finished hash))) :
    lastFinding sights = some (.ok (.finished hash)) := by
  rw [lastFinding_found] at h
  rcases hlast : lastFinding sights with _ | r'
  · rw [hlast] at h
    exact (hr hash (Option.some.inj h)).elim
  · rw [hlast] at h
    exact h

/-! ## At the end -/

/-- An answer that ends decoding is the outcome from then on. -/
theorem outcome_next {d : Decoder S} {r : Except DecodeError Digest}
    (h : d.next.1 = r.map Finding.finished) : d.next.2.outcome = some r := by
  fun_induction next d with
  | case1 d e houtcome =>
    rcases r with _ | _ <;> cases h
    exact houtcome
  | case2 d hash houtcome =>
    rcases r with _ | _ <;> cases h
    exact houtcome
  | case3 d _ d' _ ih => exact ih h
  | case4 d _ e d' _ => rcases r with _ | _ <;> cases h
  | case5 d _ hash d' _ =>
    rcases r with _ | _ <;> cases h
    rfl
  | case6 d _ _ d' _ =>
    rcases r with _ | _ <;> cases h
    rfl
  | case7 d _ _ d' _ => rcases r with _ | _ <;> cases h
  | case8 d _ e _ =>
    rcases r with _ | _ <;> cases h
    rfl

/-- A decoder that has an outcome takes nothing and shows nothing, and the outcome stays what it has
found last. -/
theorem observe_of_outcome {d : Decoder S} {r : Except DecodeError Digest}
    (h : d.outcome = some r) (cs : List Call) :
    (d.observe cs).2 = d ∧ d.accepted cs = [] ∧ elementsSeen (d.observe cs).1 = [] ∧
      lastFinding (.found (r.map Finding.finished) :: (d.observe cs).1) =
        some (r.map Finding.finished) := by
  induction cs with
  | nil => exact ⟨rfl, rfl, rfl, rfl⟩
  | cons c cs ih =>
    rcases c with chunk | _
    · obtain ⟨e, hpush⟩ : ∃ e, d.push chunk = .error e := by
        rw [push, h]
        rcases r with e | hash
        · exact ⟨e, rfl⟩
        · exact ⟨.finalized, rfl⟩
      have hcall : d.call (.push chunk) = (.pushed (.error e), d) := by rw [call, hpush]
      rw [observe, hcall, accepted, hpush]
      exact ih
    · have hcall : d.call .next = (.found (r.map Finding.finished), d) := by
        rw [call, next_of_outcome h]
      have haccepted : d.accepted (.next :: cs) = d.accepted cs := by
        rw [accepted, next_of_outcome h]
      obtain ⟨hsame, htaken, hshown, hlast⟩ := ih
      rw [observe, hcall, haccepted]
      refine ⟨hsame, htaken, ?_, ?_⟩
      · rcases r with e | hash
        · exact hshown
        · exact hshown
      · rw [lastFinding_found, hlast]
        rfl

/-! ## The stream of a decoding -/

/-- Calls that come to a hash see the survey of the bytes that were held and of those taken. -/
theorem survey_of_observe {d : Decoder S} (hd : d.Live) {cs : List Call} {hash : Digest}
    (h : lastFinding (d.observe cs).1 = some (.ok (.finished hash))) :
    d.position.survey (d.held ++ d.accepted cs) =
      ⟨elementsSeen (d.observe cs).1, .ok (.finished hash), (d.observe cs).2.position⟩ := by
  -- one call at a time; a chunk that is refused leaves the decoder as it is
  induction cs generalizing d with
  | nil => cases h
  | cons c cs ih =>
    rcases c with chunk | _
    · rcases hpush : d.push chunk with e | d'
      · have hcall : d.call (.push chunk) = (.pushed (.error e), d) := by rw [call, hpush]
        rw [observe, hcall] at h ⊢
        rw [accepted, hpush]
        exact ih hd h
      · obtain ⟨hlive, hposition, hheld⟩ := live_of_push hd hpush
        have hcall : d.call (.push chunk) = (.pushed (.ok ()), d') := by rw [call, hpush]
        rw [observe, hcall] at h ⊢
        have hrest := ih hlive h
        rw [hposition, hheld, List.append_assoc] at hrest
        rw [accepted, hpush]
        exact hrest
    · have hanswer := answers_next hd (d.next.2.accepted cs)
      have hended := fun r => outcome_next (d := d) (r := r)
      have hcall : d.call .next = (.found d.next.1, d.next.2) := rfl
      rw [observe, hcall] at h ⊢
      rw [accepted]
      rcases hnext : d.next with ⟨_ | (_ | e | hash'), d'⟩
      all_goals rw [hnext] at h hanswer hended
      · next e =>
        -- an error stays the last finding
        have hlast := (observe_of_outcome (hended (.error e) rfl) cs).2.2.2
        cases hlast.symm.trans h
      · have hrest := lastFinding_of_cons (fun _ heq => by cases heq) h
        exact hanswer.2.2.1.trans (ih hanswer.1 hrest)
      · have hrest := lastFinding_of_cons (fun _ heq => by cases heq) h
        rw [hanswer.2, ih hanswer.1 hrest]
        rfl
      · -- the hash stays the last finding
        obtain ⟨hsame, htaken, hshown, hlast⟩ := observe_of_outcome (hended (.ok hash') rfl) cs
        cases hlast.symm.trans h
        dsimp only at hanswer ⊢
        rw [htaken] at hanswer ⊢
        rw [hanswer.2, hsame]
        exact congrArg (Survey.mk · _ _) hshown.symm

/-! ## Streams of schedules -/

/-- A schedule takes the front of the bytes, as far as the decoder goes. -/
theorem accepted_prefix {d : Decoder S} (hd : d.Live) {bs : Bytes} {cs : List Call}
    (h : d.IsSchedule bs cs) : d.accepted cs <+: bs := by
  induction cs generalizing d bs with
  | nil => exact h.elim
  | cons c cs ih =>
    rcases c with chunk | _
    · obtain ⟨⟨rest, rfl⟩, hroom, hrest⟩ := h
      obtain ⟨d', hpush⟩ := exists_push hd hroom
      rw [call, hpush, List.drop_left] at hrest
      rw [accepted, hpush]
      exact (List.prefix_append_right_inj chunk).2 (ih (live_of_push hd hpush).1 hrest)
    · have hanswer := answers_next hd bs
      rw [accepted]
      unfold IsSchedule at h
      rcases hnext : d.next with ⟨_ | (_ | e | hash), d'⟩
      all_goals rw [hnext] at h hanswer
      · rw [show cs = [] from h]
        exact List.nil_prefix
      · rcases h with ⟨rfl, rfl⟩ | h
        · exact List.nil_prefix
        · exact ih hanswer.1 h
      · exact ih hanswer.1 h
      · rw [show cs = [] from h]
        exact List.nil_prefix

end Decoder

namespace Decoding

variable {S : Type} [Layout S]

/-- The stream of a decoding completes with its elements and with the bytes that were absorbed, and
the hash is that of these bytes. -/
theorem completes (x : Decoding S) :
    (Position.start x.sigIndex x.change : Position S).Completes x.stream x.elements x.absorbed ∧
      x.hash = Blake2b.digest x.absorbed := by
  have hsurvey := Decoder.survey_of_observe (Decoder.live_new x.sigIndex x.change) x.finished
  have hposition : (Position.start x.sigIndex x.change : Position S).survey x.stream =
      ⟨x.elements, .ok (.finished x.hash), (x.decoder.observe x.calls).2.position⟩ := hsurvey
  have hhash := Position.hash_of_survey _ _ (congrArg Survey.result hposition)
  rw [hposition] at hhash
  refine ⟨?_, hhash⟩
  rw [Position.Completes, hposition]
  exact ⟨rfl, congrArg (fun hash => Except.ok (Finding.finished hash)) hhash, rfl⟩

/-- A byte string that comes to a hash is read by some decoding, as far as it goes. -/
theorem exists_of_finishes {sigIndex : UInt16} {change : Option Address} {bs : Bytes}
    {es : List Element} {hash : Digest}
    (h : (Position.start sigIndex change : Position S).Finishes bs es hash) :
    ∃ x : Decoding S, x.sigIndex = sigIndex ∧ x.change = change ∧ x.hash = hash ∧
      x.stream <+: bs := by
  have hlive : (Decoder.new sigIndex change : Decoder S).Live := Decoder.live_new sigIndex change
  obtain ⟨cs, hcs⟩ := Decoder.exists_isSchedule hlive bs
  have hseen := (Decoder.sees_iff_finishes hcs es hash).2 h
  exact ⟨⟨sigIndex, change, cs, hash, hseen.2⟩, rfl, rfl, rfl, Decoder.accepted_prefix hlive hcs⟩

end Decoding

end Countersign
