import Countersign.Proofs.Coherence

/-!
# Each release is asked for

A hash or a signature is given out for the user's consent only (`approve_of_isRelease`), and it is
the one that was pending (`released_by_approve`). The consent uses up what is pending, and so does
everything else that ends an operation (`pending_of_closes`). Only one kind of action makes
something pending when nothing is: an event that the signer answers with it (`enters_of_act`). So
when the user can consent again, such an event has come in between (`exists_enters`).
-/

namespace Countersign

namespace Session

variable {s s' : Session} {e : Event} {a : Action} {answer : Except Refusal Reply}

/-! ## What releases -/

theorem not_isRelease_of_delivers {reply : Reply} {r : Review} {flags : Flags} {data : Bytes}
    (h : s.Delivers r flags data (.ok reply) s') : ¬ reply.IsRelease := by
  cases h with
  | completes => exact id
  | continues => exact id

theorem not_isRelease_of_moves {reply : Reply} (h : s.Moves e (.ok reply) s') :
    ¬ reply.IsRelease := by
  cases h with
  | answered hreply => exact hreply
  | asked => exact id
  | begun _ hdelivers => exact not_isRelease_of_delivers hdelivers
  | continued _ _ hdelivers => exact not_isRelease_of_delivers hdelivers

/-- Only the user's consent releases a hash or a signature. -/
theorem approve_of_isRelease {reply : Reply} (h : (s.act a).1 = .ok (some reply))
    (hrelease : reply.IsRelease) : a = .approve := by
  cases a with
  | event e =>
    have hmoves := s.moves_handle e
    have hreply : (s.handle e).1.map some = .ok (some reply) := h
    rcases hanswer : (s.handle e).1 with reason | reply'
    · rw [hanswer] at hreply
      cases hreply
    · rw [hanswer] at hreply hmoves
      cases hreply
      exact absurd hrelease (not_isRelease_of_moves hmoves)
  | approve => rfl
  | deny => cases h
  | reset => cases h
  | lock => cases h
  | unlock => cases h

/-- The consent releases what is pending, and uses it up. -/
theorem released_by_approve {reply : Reply} (h : s.approve.1 = .ok reply) :
    s.approve.2 = s.finish .complete ∧ ∃ p, s.pending = some p ∧
      reply =
        if p.sign then .signature (s.keys.sign p.keyIndex p.hash.bytes) else .hash p.hash := by
  unfold approve at h ⊢
  split at h
  · cases h
  · next p hsome =>
    cases h
    exact ⟨rfl, p, hsome, rfl⟩

/-! ## What ends an operation -/

/-- The action ends the operation: the user consents or says no, the signer goes back to the
beginning, or an event is refused and no operation is left. -/
def Closes (s : Session) : Action → Prop
  | .approve => ∃ reply, s.approve.1 = .ok reply
  | .deny => True
  | .reset => True
  | .event e => (∃ reason, (s.handle e).1 = .error reason) ∧ (s.handle e).2.operation = .none
  | .lock => False
  | .unlock => False

theorem pending_of_operation (h : s.operation = .none) : s.pending = none := by
  unfold pending
  rw [h]
  split <;> rfl

/-- Nothing is pending after the end of an operation. -/
theorem pending_of_closes (h : s.Closes a) : (s.act a).2.pending = none := by
  cases a with
  | event e => exact pending_of_operation h.2
  | approve =>
    obtain ⟨reply, hreply⟩ := h
    show s.approve.2.pending = none
    rw [(released_by_approve hreply).1]
    rfl
  | deny => rfl
  | reset => rfl
  | lock => exact h.elim
  | unlock => exact h.elim

/-! ## What asks the user -/

/-- The data of the event complete the transaction that they belong to. -/
def CompletedBy (s : Session) : Event → Prop
  | .start keyIndex sigIndex changeIndex flags data =>
    ((Review.new keyIndex sigIndex (s.changeAddress changeIndex) flags).push data).1 = .ok true
  | .more _ data => s.state = .decoding ∧
      ∃ r, s.operation = .review r ∧ (r.push data).1 = .ok true
  | _ => False

/-- The event brings a hash that waits for the user: one that is to be signed, or that of a
transaction that is complete with the event. -/
structure Enters (s : Session) (e : Event) : Prop where
  answer : ∃ n, (s.handle e).1 = .ok (.state .pending n)
  state : (s.handle e).2.state = .pending
  cause : (∃ keyIndex hash, e = .signHash keyIndex hash) ∨ s.CompletedBy e

/-- Nothing is pending while a transaction comes in. -/
theorem pending_of_state_decoding (h : s.state = .decoding) : s.pending = none := by
  rw [pending, h]

/-- A chunk makes something pending only when it completes the transaction. -/
theorem completes_of_delivers {r : Review} {flags : Flags} {data : Bytes}
    (h : s.Delivers r flags data answer s') (hstate : s.state = .decoding)
    (hsome : s'.pending.isSome = true) :
    (∃ n, answer = .ok (.state .pending n)) ∧ (r.push data).1 = .ok true := by
  cases h with
  | completes hpush => exact ⟨⟨_, rfl⟩, congrArg Prod.fst hpush⟩
  | fails => cases hsome
  | otherFlags | tooLong =>
    rw [pending_of_state_decoding hstate] at hsome
    cases hsome
  | continues =>
    -- the state is the same as before
    rw [pending_of_state_decoding (by exact hstate)] at hsome
    cases hsome

/-- An event makes something pending only when it asks the user. -/
theorem enters_of_moves (h : s.Moves e answer s') (hnone : s.pending = none)
    (hsome : s'.pending.isSome = true) :
    (∃ n, answer = .ok (.state .pending n)) ∧
      ((∃ keyIndex hash, e = .signHash keyIndex hash) ∨ s.CompletedBy e) := by
  have hchanged : s' ≠ s := by
    rintro rfl
    rw [hnone] at hsome
    cases hsome
  cases h with
  | answered => exact absurd rfl hchanged
  | locked => exact absurd rfl hchanged
  | busy => exact absurd rfl hchanged
  | unstarted => exact absurd rfl hchanged
  | lost => exact absurd rfl hchanged
  | asked => exact ⟨⟨_, rfl⟩, Or.inl ⟨_, _, rfl⟩⟩
  | restarted => cases hsome
  | begun _ hdelivers =>
    obtain ⟨hanswer, hpush⟩ := completes_of_delivers hdelivers rfl hsome
    exact ⟨hanswer, Or.inr hpush⟩
  | continued hstate hreview hdelivers =>
    obtain ⟨hanswer, hpush⟩ := completes_of_delivers hdelivers hstate hsome
    exact ⟨hanswer, Or.inr ⟨hstate, _, hreview, hpush⟩⟩

/-- Only an event that asks the user makes something pending when nothing is. -/
theorem enters_of_act (hnone : s.pending = none) (hsome : (s.act a).2.pending.isSome = true) :
    ∃ e, a = .event e ∧ s.Enters e := by
  cases a with
  | event e =>
    obtain ⟨hanswer, hcause⟩ := enters_of_moves (s.moves_handle e) hnone hsome
    obtain ⟨p, hp⟩ := Option.isSome_iff_exists.1 hsome
    exact ⟨e, rfl, hanswer, state_of_pending hp, hcause⟩
  | approve =>
    have hsame : (s.act .approve).2 = s := by
      show s.approve.2 = s
      rw [approve, hnone]
    rw [hsame, hnone] at hsome
    cases hsome
  | deny => cases hsome
  | reset => cases hsome
  | lock =>
    rw [show (s.act .lock).2.pending = s.pending from rfl, hnone] at hsome
    cases hsome
  | unlock =>
    rw [show (s.act .unlock).2.pending = s.pending from rfl, hnone] at hsome
    cases hsome

/-- When something has become pending in a run, one of its events has asked the user. -/
theorem exists_enters (hnone : s.pending = none) (actions : List Action)
    (hsome : (s.run actions).2.pending.isSome = true) :
    ∃ before e after, actions = before ++ .event e :: after ∧ (s.run before).2.Enters e := by
  -- either the first action has asked, or nothing is pending after it
  induction actions generalizing s with
  | nil =>
    rw [show (s.run []).2 = s from rfl, hnone] at hsome
    cases hsome
  | cons a actions ih =>
    rcases hpending : (s.act a).2.pending with _ | p
    · obtain ⟨before, e, after, rfl, henters⟩ := ih hpending hsome
      exact ⟨a :: before, e, after, rfl, henters⟩
    · have hsome' : (s.act a).2.pending.isSome = true := by
        rw [hpending]
        rfl
      obtain ⟨e, rfl, henters⟩ := enters_of_act hnone hsome'
      exact ⟨[], e, actions, rfl, henters⟩

/-! ## In a run -/

/-- In any run only the user's consent releases a hash or a signature, and what it releases is what
was pending: the hash, or the signature of the hash under the key with the index that was offered.
Between the end of an operation and the next consent an event has asked the user. -/
theorem releases_once (keys : KeySource) (s : Session) (a : Action) (between : List Action)
    (h : Reachable keys s) :
    (∀ reply, (s.act a).1 = .ok (some reply) → reply.IsRelease → a = .approve) ∧
    (∀ reply, s.approve.1 = .ok reply → ∃ p, s.pending = some p ∧
      reply = if p.sign then
          .signature (Ed25519.sign (keys.seedAt (derivationPath p.keyIndex)) p.hash.bytes)
        else .hash p.hash) ∧
    (s.Closes a → (∃ reply, ((s.act a).2.run between).2.approve.1 = .ok reply) →
      ∃ before e after, between = before ++ .event e :: after ∧
        ((s.act a).2.run before).2.Enters e) := by
  refine ⟨fun reply => approve_of_isRelease, ?_, ?_⟩
  · intro reply happroves
    have hkeys : s.keys = keys := by
      obtain ⟨actions, rfl⟩ := h
      exact (tracks_run (tracks_new keys) actions).keys_eq
    obtain ⟨-, p, hpending, hreply⟩ := released_by_approve happroves
    rw [hkeys] at hreply
    exact ⟨p, hpending, hreply⟩
  · intro hcloses happroves
    exact exists_enters (pending_of_closes hcloses) between ((approves_iff _).1 happroves)

/-- A second consent follows a second request. -/
theorem releases_hashAsked_once :
    hashAsked.Closes .approve ∧
      ∃ before e after, [Action.event (.signHash 1 (Block.zero 32))] = before ++ .event e :: after ∧
        ((hashAsked.act .approve).2.run before).2.Enters e := by
  have hcloses : hashAsked.Closes .approve := (approves_iff hashAsked).2 (by decide)
  have hagain : ∃ reply, ((hashAsked.act .approve).2.run
      [.event (.signHash 1 (Block.zero 32))]).2.approve.1 = .ok reply :=
    (approves_iff _).2 rfl
  obtain ⟨-, -, henters⟩ := releases_once oneKey hashAsked .approve
    [.event (.signHash 1 (Block.zero 32))] ⟨_, rfl⟩
  exact ⟨hcloses, henters hcloses hagain⟩

end Session

end Countersign
