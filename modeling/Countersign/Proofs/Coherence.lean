import Countersign.Proofs.Moves
import Countersign.Proofs.Reasons

/-!
# The state and the operation

A session keeps its state and its operation side by side, and a review keeps its hash beside its
decoder. They say the same (`State.Agrees`):

* in a state in which nothing goes on there is no operation;
* while a transaction comes in, its review has no hash, and its decoder has not come to an end;
* a hash that waits for the user was given by the host, or it is that of a review.

No review holds more elements than the user can look at. All this is kept by each of the moves of
a session (`agrees_moves`), so it holds in every session that a run comes to (`agrees_run`). Then
some reasons for refusing an event are never given: they are those of a session whose state and
operation disagree (`not_isInternal_of_moves`).
-/

namespace Countersign

/-! ## What agrees -/

/-- The state is one in which nothing goes on. -/
def State.IsIdle : State → Prop
  | .decoding => False
  | .pending => False
  | _ => True

instance : DecidablePred State.IsIdle
  | .decoding | .pending => .isFalse id
  | .init | .complete | .deny | .error => .isTrue trivial

namespace AnyDecoder

/-- The outcome, once there is one. -/
def outcome : AnyDecoder → Option (Except DecodeError Digest)
  | v1 d => d.outcome
  | v2 d => d.outcome

theorem Live.outcome {d : AnyDecoder} (hd : d.Live) : d.outcome = none := by
  rcases d with d | d
  · exact Decoder.Live.outcome hd
  · exact Decoder.Live.outcome hd

end AnyDecoder

namespace Review

/-- The transaction of the review is not complete. -/
structure Underway (r : Review) : Prop where
  hash : r.hash = none
  live : r.decoder.Live
  length_le : r.elements.length ≤ maxElements

/-- The hash of the transaction is known. -/
structure Completed (r : Review) : Prop where
  hash : r.hash.isSome = true
  length_le : r.elements.length ≤ maxElements

variable {r r' : Review} {chunk : Bytes}

theorem underway_new (keyIndex : UInt32) (sigIndex : UInt16) (change : Option Address)
    (flags : Flags) : (new keyIndex sigIndex change flags).Underway :=
  ⟨rfl, AnyDecoder.live_new _ _ _, Nat.zero_le _⟩

/-- A review that asks for more is still underway. -/
theorem underway_push (hr : r.Underway) (h : r.push chunk = (.ok false, r')) : r'.Underway := by
  have htakes := takes_push hr.live chunk
  have hadvances := r.advances_push chunk
  rw [h] at htakes hadvances
  obtain ⟨-, -, hhash, hlive, -⟩ := htakes
  exact ⟨hhash.trans hr.hash, hlive, hadvances.2.1 hr.length_le⟩

/-- A review that has come to its end has a hash. -/
theorem completed_push (hr : r.Underway) (h : r.push chunk = (.ok true, r')) : r'.Completed := by
  have hadvances := r.advances_push chunk
  rw [h] at hadvances
  exact ⟨hadvances.2.2, hadvances.2.1 hr.length_le⟩

end Review

/-- The state fits the operation. -/
inductive State.Agrees : State → Operation → Prop where
  | idle {state : State} (h : state.IsIdle) : Agrees state .none
  | decoding {r : Review} (h : r.Underway) : Agrees .decoding (.review r)
  | reviewed {r : Review} (h : r.Completed) : Agrees .pending (.review r)
  | asked (keyIndex : UInt32) (hash : Digest) : Agrees .pending (.signHash keyIndex hash)

/-- The reason is one of a signer that is not sound: what it keeps does not fit together, or it
cannot write its own answer. -/
def Refusal.IsInternal (r : Refusal) : Prop :=
  r = .invalidState ∨ r = .encodingFailed ∨ r = .decode .finalized ∨ r = .decode .format

instance (r : Refusal) : Decidable r.IsInternal := inferInstanceAs (Decidable (_ ∨ _ ∨ _ ∨ _))

/-- A review does not fail for such a reason. -/
theorem Refusal.not_isInternal_of_isOfReview {r : Refusal} (h : r.IsOfReview) :
    ¬ r.IsInternal := by
  rintro (rfl | rfl | rfl | rfl)
  · exact h
  · exact h
  · rcases h with hdata | hroom
    · cases hdata
    · cases hroom
  · rcases h with hdata | hroom
    · cases hdata
    · cases hroom

namespace Session

variable {s s' : Session} {r : Review} {flags : Flags} {chunk : Bytes} {event : Event}
  {answer : Except Refusal Reply}

/-- The state of the session fits its operation. -/
def Agrees (s : Session) : Prop := s.state.Agrees s.operation

/-- In a state in which nothing goes on no transaction is under review. -/
theorem isReviewing_of_isIdle (h : s.state.IsIdle) : s.isReviewing = false := by
  rw [isReviewing]
  rcases hstate : s.state with _ | _ | _ | _ | _ | _
  all_goals rw [hstate] at h
  · rfl
  · exact h.elim
  · exact h.elim
  · rfl
  · rfl
  · rfl

/-! ## Every move keeps it -/

theorem agrees_new (keys : KeySource) : (new keys).Agrees := .idle trivial

/-- A session without an operation, in a state in which nothing goes on. -/
theorem agrees_finish (s : Session) {state : State} (h : state.IsIdle) :
    (s.finish state).Agrees := .idle h

/-- A session in which the first data of a transaction are received. -/
theorem agrees_started (s : Session) (keyIndex : UInt32) (sigIndex : UInt16)
    (changeIndex : UInt32) (flags : Flags) :
    (s.started keyIndex sigIndex changeIndex flags).Agrees :=
  .decoding (Review.underway_new _ _ _ _)

/-- While a transaction comes in, it is under review. -/
theorem exists_underway (h : s.Agrees) (hstate : s.state = .decoding) :
    ∃ r, s.operation = .review r ∧ r.Underway := by
  rw [Agrees, hstate] at h
  generalize s.operation = operation at h
  cases h with
  | idle hidle => exact hidle.elim
  | decoding hr => exact ⟨_, rfl, hr⟩

/-- A review to which chunks are handed is underway. -/
theorem underway_of_decoding (h : s.Agrees) (hstate : s.state = .decoding)
    (hreview : s.operation = .review r) : r.Underway := by
  obtain ⟨r', hr', hunderway⟩ := exists_underway h hstate
  rw [hreview] at hr'
  cases hr'
  exact hunderway

theorem agrees_delivers (h : s.Agrees) (hstate : s.state = .decoding) (hr : r.Underway)
    (hdelivers : s.Delivers r flags chunk answer s') : s'.Agrees := by
  cases hdelivers with
  | otherFlags => exact h
  | tooLong => exact h
  | completes hpush => exact .reviewed (Review.completed_push hr hpush)
  | continues hpush =>
    show State.Agrees s.state _
    rw [hstate]
    exact .decoding (Review.underway_push hr hpush)
  | fails => exact agrees_finish s trivial

theorem agrees_moves (h : s.Agrees) (hmoves : s.Moves event answer s') : s'.Agrees := by
  cases hmoves with
  | answered => exact h
  | locked => exact h
  | busy => exact h
  | unstarted => exact h
  | lost => exact h
  | asked => exact .asked _ _
  | restarted => exact agrees_finish s trivial
  | begun hidle hdelivers =>
    exact agrees_delivers (agrees_started s _ _ _ _) rfl (Review.underway_new _ _ _ _) hdelivers
  | continued hstate hreview hdelivers =>
    exact agrees_delivers h hstate (underway_of_decoding h hstate hreview) hdelivers

/-- Every action keeps the state with the operation. -/
theorem agrees_act (h : s.Agrees) (a : Action) : (s.act a).2.Agrees := by
  cases a with
  | event e => exact agrees_moves h (s.moves_handle e)
  | approve =>
    show s.approve.2.Agrees
    unfold approve
    split
    · exact h
    · exact agrees_finish s trivial
  | deny => exact agrees_finish s trivial
  | reset => exact agrees_finish s trivial
  | lock => exact h
  | unlock => exact h

/-- Every run keeps the state with the operation. -/
theorem agrees_run (h : s.Agrees) (actions : List Action) : (s.run actions).2.Agrees := by
  induction actions generalizing s with
  | nil => exact h
  | cons a actions ih => exact ih (agrees_act h a)

/-! ## What follows -/

/-- A hash waits for the user exactly when the state says so. -/
theorem isSome_pending_iff (h : s.Agrees) : s.pending.isSome = true ↔ s.state = .pending := by
  constructor
  · intro hsome
    obtain ⟨p, hp⟩ := Option.isSome_iff_exists.1 hsome
    exact state_of_pending hp
  · intro hstate
    rw [Agrees, hstate] at h
    rw [pending, hstate]
    generalize s.operation = operation at h
    cases h with
    | idle hidle => exact hidle.elim
    | reviewed hr =>
      show (Option.map _ _).isSome = true
      rw [Option.isSome_map]
      exact hr.hash
    | asked => rfl

/-- The user can consent exactly when something is pending. -/
theorem approves_iff (s : Session) :
    (∃ reply, s.approve.1 = .ok reply) ↔ s.pending.isSome = true := by
  unfold approve
  split
  · next hnone =>
    rw [hnone]
    simp
  · next p hsome =>
    rw [hsome]
    simp

/-- A chunk for a review that is underway is not refused for an internal reason. -/
theorem not_isInternal_of_delivers {reason : Refusal} (hr : r.Underway)
    (h : s.Delivers r flags chunk (.error reason) s') : ¬ reason.IsInternal := by
  cases h with
  | otherFlags => decide
  | tooLong => decide
  | fails hpush =>
    exact Refusal.not_isInternal_of_isOfReview
      (Review.reason_push hr.live (congrArg Prod.fst hpush))

/-- An event is not refused for an internal reason. -/
theorem not_isInternal_of_moves {reason : Refusal} (h : s.Agrees)
    (hmoves : s.Moves event (.error reason) s') : ¬ reason.IsInternal := by
  cases hmoves with
  | locked => decide
  | busy => decide
  | unstarted => decide
  | lost hstate hnone =>
    -- the state would not agree with the operation
    obtain ⟨r, hr, -⟩ := exists_underway h hstate
    exact absurd hr (hnone r)
  | restarted => decide
  | begun hidle hdelivers =>
    exact not_isInternal_of_delivers (Review.underway_new _ _ _ _) hdelivers
  | continued hstate hreview hdelivers =>
    exact not_isInternal_of_delivers (underway_of_decoding h hstate hreview) hdelivers

theorem operation_of_idle (h : s.Agrees) (hstate : s.state.IsIdle) : s.operation = .none := by
  rw [Agrees] at h
  generalize s.state = state at h hstate
  generalize s.operation = operation at h
  cases h with
  | idle => rfl
  | decoding => exact hstate.elim
  | reviewed => exact hstate.elim
  | asked => exact hstate.elim

/-- What is pending was given by the host, or is the hash of a review. -/
theorem operation_of_state_pending (h : s.Agrees) (hstate : s.state = .pending) :
    (∃ keyIndex hash, s.operation = .signHash keyIndex hash) ∨
      ∃ r, s.operation = .review r ∧ r.hash.isSome = true := by
  rw [Agrees, hstate] at h
  generalize s.operation = operation at h
  cases h with
  | idle hidle => exact hidle.elim
  | reviewed hr => exact Or.inr ⟨_, rfl, hr.hash⟩
  | asked keyIndex hash => exact Or.inl ⟨keyIndex, hash, rfl⟩

theorem length_elements_le (h : s.Agrees) (hreview : s.operation = .review r) :
    r.elements.length ≤ maxElements := by
  rw [Agrees, hreview] at h
  generalize s.state = state at h
  cases h with
  | decoding hr => exact hr.length_le
  | reviewed hr => exact hr.length_le

/-- After any run the state of the session says what its operation is, and no review holds more
elements than can be looked at. So the user can consent, and a hash is pending, exactly when the
state says so, and no event is refused for an internal reason. -/
theorem coherent_of_reachable (keys : KeySource) (s : Session) (h : Reachable keys s) :
    (s.state.IsIdle → s.operation = .none) ∧
    (s.state = .decoding →
      ∃ r, s.operation = .review r ∧ r.hash = none ∧ r.decoder.outcome = none) ∧
    (s.state = .pending →
      (∃ keyIndex hash, s.operation = .signHash keyIndex hash) ∨
        ∃ r, s.operation = .review r ∧ r.hash.isSome = true) ∧
    (∀ r, s.operation = .review r → r.elements.length ≤ maxElements) ∧
    ((∃ reply, s.approve.1 = .ok reply) ↔ s.state = .pending) ∧
    (s.pending.isSome = true ↔ s.state = .pending) ∧
    ∀ e reason, (s.handle e).1 = .error reason → ¬ reason.IsInternal := by
  obtain ⟨actions, rfl⟩ := h
  have hagrees := agrees_run (agrees_new keys) actions
  have hpending := isSome_pending_iff hagrees
  refine ⟨operation_of_idle hagrees, ?_, operation_of_state_pending hagrees,
    fun r => length_elements_le hagrees, (approves_iff _).trans hpending, hpending, ?_⟩
  · intro hstate
    obtain ⟨r, hr, hunderway⟩ := exists_underway hagrees hstate
    exact ⟨r, hr, hunderway.hash, hunderway.live.outcome⟩
  · intro e reason hrefused
    have hmoves := moves_handle ((new keys).run actions).2 e
    rw [hrefused] at hmoves
    exact not_isInternal_of_moves hagrees hmoves

/-- A transaction in two parts, with a part for another purpose in between. -/
def payOnce : List Action :=
  [.unlock, .event (.start 7 0 noChange ⟨true, true⟩ (V2.onePaid.encode.take 57)),
   .event (.more ⟨false, true⟩ [1]), .event (.more ⟨true, true⟩ (V2.onePaid.encode.drop 57))]

theorem coherent_payOnce :
    Reachable oneKey ((new oneKey).run payOnce).2 ∧
      ((new oneKey).run payOnce).2.state = .pending ∧
      ∃ reply, ((new oneKey).run payOnce).2.approve.1 = .ok reply := by
  have hreachable : Reachable oneKey ((new oneKey).run payOnce).2 := ⟨payOnce, rfl⟩
  have hstate : ((new oneKey).run payOnce).2.state = .pending := by decide +kernel
  obtain ⟨-, -, -, -, happroves, -⟩ := coherent_of_reachable oneKey _ hreachable
  exact ⟨hreachable, hstate, happroves.2 hstate⟩

end Session

end Countersign
