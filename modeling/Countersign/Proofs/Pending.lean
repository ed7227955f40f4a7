import Countersign.Proofs.Review

/-!
# What becomes of a pending hash

A hash that waits for the user can go only in ways that the host can see. An event keeps it with
its elements, or is refused and drops it, or is itself a request that takes its place:

* a hash that is to be signed replaces whatever is pending (`handle_signHash_of_pending`);
* the start of a transaction replaces a hash that the host gave, as if that had been denied first,
  but ends the review of a transaction with an error (`handle_start_of_pending`);
* all other events leave the session as it is (`handle_same`).

So what the user consents to is what was offered, unless a new request came in between
(`approve_after_events`). A hash can be replaced by the next one without any error
(`swapped_without_error`).
-/

namespace Countersign

/-- The event asks for a hash or a transaction to be looked at, and does not continue one. -/
def Event.IsRequest : Event → Prop
  | .signHash _ _ => True
  | .start _ _ _ _ _ => True
  | _ => False

namespace Session

variable {s : Session} {p : Offer}

/-- After the event the same hash is pending, with the same elements to review. -/
def Keeps (s : Session) (p : Offer) (e : Event) : Prop :=
  (s.handle e).2.pending = some p ∧ (s.handle e).2.elements = s.elements

/-- The event is refused, and nothing is pending after it. -/
def Drops (s : Session) (e : Event) : Prop :=
  (∃ r, (s.handle e).1 = .error r) ∧ (s.handle e).2.pending = none

/-! ## One event -/

theorem state_of_pending (h : s.pending = some p) : s.state = .pending := by
  unfold pending at h
  split at h
  · next hstate => exact hstate
  · cases h

theorem operation_of_pending (h : s.pending = some p) : s.operation.pending = some p := by
  rw [pending, state_of_pending h] at h
  exact h

/-- An event that is no request leaves a session in which a hash is pending as it is. -/
theorem handle_same (h : s.pending = some p) {e : Event} (he : ¬ e.IsRequest) :
    (s.handle e).2 = s := by
  have hstate : s.state ≠ .decoding := by
    rw [state_of_pending h]
    decide
  cases e with
  | none => rfl
  | getVersion =>
    rw [handle]
    split <;> rfl
  | getPublicKey keyIndex display =>
    rw [handle]
    split <;> rfl
  | signHash keyIndex hash => exact absurd trivial he
  | start keyIndex sigIndex changeIndex flags data => exact absurd trivial he
  | more flags data =>
    -- parts are taken only while a transaction is coming in
    rw [handle, if_neg hstate]

/-- A hash that is to be signed takes the place of what is pending. -/
theorem handle_signHash_of_pending (h : s.pending = some p) (keyIndex : UInt32) (hash : Digest) :
    s.handle (.signHash keyIndex hash) =
      (.ok (.state .pending 0),
        { s with state := .pending, operation := .signHash keyIndex hash }) := by
  have hstate : s.state ≠ .decoding := by
    rw [state_of_pending h]
    decide
  rw [handle, if_neg hstate]
  rfl

/-- The start of a transaction ends a review at hand, and finds a hash that the host gave as if it
had been denied. -/
theorem handle_start_of_pending (h : s.pending = some p) (keyIndex : UInt32) (sigIndex : UInt16)
    (changeIndex : UInt32) (flags : Flags) (data : Bytes) :
    s.Drops (.start keyIndex sigIndex changeIndex flags data) ∨
      (s.operation = .signHash p.keyIndex p.hash ∧
        s.handle (.start keyIndex sigIndex changeIndex flags data) =
          s.deny.handle (.start keyIndex sigIndex changeIndex flags data)) := by
  have hstate := state_of_pending h
  have hoperation := operation_of_pending h
  rcases hcases : s.operation with _ | r | ⟨k, hash⟩
  · rw [hcases] at hoperation
    cases hoperation
  · -- a transaction is under review
    have hbusy : s.isReviewing = true := by
      rw [isReviewing, hstate, hcases]
      rfl
    have hhandle : s.handle (.start keyIndex sigIndex changeIndex flags data) =
        (.error .improperInit, s.finish .error) := by
      rw [handle, if_pos hbusy]
    left
    rw [Drops, hhandle]
    exact ⟨⟨_, rfl⟩, rfl⟩
  · have hidle : ¬ s.isReviewing = true := by
      rw [isReviewing, hcases]
      simp [Operation.review?]
    have hdenied : ¬ s.deny.isReviewing = true := by
      simp [isReviewing, deny, finish]
    have hoffer : (⟨k, hash, true⟩ : Offer) = p := by
      rw [hcases] at hoperation
      exact Option.some.inj hoperation
    right
    constructor
    · rw [← hoffer]
    · rw [handle, if_neg hidle, handle, if_neg hdenied]
      rfl

/-- After any event the hash is pending as before, or the event was refused and nothing is pending,
or the event is a request that has taken the place of the hash: a hash to be signed, which is then
pending, or, where the host had given the hash itself, the start of a transaction, which is answered
as after a denial. -/
theorem kept_dropped_or_replaced (s : Session) (p : Offer) (e : Event) (h : s.pending = some p) :
    s.Keeps p e ∨ s.Drops e ∨
      (∃ keyIndex hash, e = .signHash keyIndex hash ∧
        (s.handle e).1 = .ok (.state .pending 0) ∧
        (s.handle e).2.pending = some ⟨keyIndex, hash, true⟩ ∧ (s.handle e).2.elements = []) ∨
      (s.operation = .signHash p.keyIndex p.hash ∧
        (∃ keyIndex sigIndex changeIndex flags data,
          e = .start keyIndex sigIndex changeIndex flags data) ∧
        s.handle e = s.deny.handle e) := by
  by_cases he : e.IsRequest
  · cases e with
    | none => cases he
    | getVersion => cases he
    | getPublicKey keyIndex display => cases he
    | more flags data => cases he
    | signHash keyIndex hash =>
      have hhandle := handle_signHash_of_pending h keyIndex hash
      right; right; left
      rw [hhandle]
      exact ⟨keyIndex, hash, rfl, rfl, rfl, rfl⟩
    | start keyIndex sigIndex changeIndex flags data =>
      right
      rcases handle_start_of_pending h keyIndex sigIndex changeIndex flags data with
        hdrops | ⟨hoperation, hdenied⟩
      · left
        exact hdrops
      · right; right
        exact ⟨hoperation, ⟨_, _, _, _, _, rfl⟩, hdenied⟩
  · have hsame := handle_same h he
    left
    rw [Keeps, hsame]
    exact ⟨h, rfl⟩

/-- A signer that the host has asked for a signature of a hash. -/
def hashAsked : Session := ((new oneKey).run [.event (.signHash 0 (Block.zero 32))]).2

theorem hashAsked_kept_by_more :
    hashAsked.pending = some ⟨0, Block.zero 32, true⟩ ∧
      (hashAsked.Keeps ⟨0, Block.zero 32, true⟩ (.more Flags.none [1]) ∨
        hashAsked.Drops (.more Flags.none [1])) := by
  have hpending : hashAsked.pending = some ⟨0, Block.zero 32, true⟩ := by decide
  refine ⟨hpending, ?_⟩
  rcases kept_dropped_or_replaced hashAsked _ (.more Flags.none [1]) hpending with
    hkeeps | hdrops | ⟨_, _, hsign, -⟩ | ⟨-, ⟨_, _, _, _, _, hstart⟩, -⟩
  · exact Or.inl hkeeps
  · exact Or.inr hdrops
  · cases hsign
  · cases hstart

/-- The start of a transaction of which nothing has come yet. -/
def emptyStart : Event := .start 7 0 noChange Flags.none []

/-- A second hash takes the place of the first one, and no event has been refused; the start of a
transaction takes it away, and is not refused either. -/
theorem swapped_without_error :
    Reachable oneKey hashAsked ∧ hashAsked.pending = some ⟨0, Block.zero 32, true⟩ ∧
      ¬ (hashAsked.Keeps ⟨0, Block.zero 32, true⟩ (.signHash 1 (Block.zero 32)) ∨
        hashAsked.Drops (.signHash 1 (Block.zero 32))) ∧
      ¬ (hashAsked.Keeps ⟨0, Block.zero 32, true⟩ emptyStart ∨ hashAsked.Drops emptyStart) := by
  refine ⟨⟨_, rfl⟩, by decide, ?_, ?_⟩
  · have hpending : (hashAsked.handle (.signHash 1 (Block.zero 32))).2.pending =
        some ⟨1, Block.zero 32, true⟩ := by decide
    rw [Keeps, Drops, hpending]
    simp
  · have hpending : (hashAsked.handle emptyStart).2.pending = none := by decide +kernel
    have hanswer : (hashAsked.handle emptyStart).1.isOk = true := by decide +kernel
    rw [Keeps, Drops, hpending]
    intro h
    rcases h with hkeeps | ⟨⟨r, hrefused⟩, -⟩
    · cases hkeeps.1
    · rw [hrefused] at hanswer
      cases hanswer

/-! ## Up to the user's decision -/

/-- Events that are no requests leave a session in which a hash is pending as it is. -/
theorem run_same (h : s.pending = some p) (es : List Event) (hes : ∀ e ∈ es, ¬ e.IsRequest) :
    (s.run (es.map .event)).2 = s := by
  induction es with
  | nil => rfl
  | cons e es ih =>
    have hhead : (s.handle e).2 = s := handle_same h (hes e List.mem_cons_self)
    have htail : (s.run (es.map .event)).2 = s :=
      ih fun e' he' => hes e' (List.mem_cons_of_mem e he')
    show ((s.handle e).2.run (es.map .event)).2 = s
    rw [hhead, htail]

/-- The user's consent releases what was offered, whatever other events have come in between. -/
theorem approve_after_events (h : s.pending = some p) (es : List Event)
    (hes : ∀ e ∈ es, ¬ e.IsRequest) :
    (s.run (es.map .event)).2.approve.1 =
      .ok (if p.sign then .signature (s.keys.sign p.keyIndex p.hash.bytes) else .hash p.hash) := by
  rw [run_same h es hes, approve, h]

end Session

end Countersign
