import Countersign.Proofs.Pending

/-!
# What an event can come to

There are only a few things that a session does with an event, and `Moves` lists them:

* a question is answered, and an event that does not fit is refused, with the session left as it is;
* a hash that is to be signed is taken, unless a transaction is coming in;
* the start of a transaction ends a review that is going on;
* any other start, and each further part, hands a chunk to a review (`Delivers`), and the review
  refuses it, goes on, comes to its hash, or fails.

`moves_handle` says that this is all, so what every event does is shown with one case for each of
them. The first use is what a refused event leaves behind (`unchanged_or_aborted_iff`): the session
as it was, or no operation at all. One event does neither: a start with too much data is refused,
but only after its transaction has begun (`left_half_started`).
-/

namespace Countersign

/-! ## Chunks for a review -/

namespace Review

/-- What a chunk does to a review, whatever its decoder is: elements are only added, and never more
than can be reviewed; a hash is found at the end and not before; and a failure is one of the
decoder, or there are too many elements. -/
def Advances (r : Review) : Except Refusal Bool × Review → Prop
  | (.ok true, r') =>
    r.elements <+: r'.elements ∧
      (r.elements.length ≤ maxElements → r'.elements.length ≤ maxElements) ∧
      r'.hash.isSome
  | (.ok false, r') =>
    r.elements <+: r'.elements ∧
      (r.elements.length ≤ maxElements → r'.elements.length ≤ maxElements) ∧
      r'.hash = r.hash
  | (.error e, _) => e = .tooManyElements ∨ ∃ d, e = .decode d

theorem advances_drain (r : Review) : r.Advances r.drain := by
  fun_induction drain r with
  | case1 r e decoder hnext => exact Or.inr ⟨e, rfl⟩
  | case2 r decoder hnext => exact ⟨List.prefix_rfl, id, rfl⟩
  | case3 r hash decoder hnext => exact ⟨List.prefix_rfl, id, rfl⟩
  | case4 r e decoder hnext hroom ih =>
    -- there is room for one element, and the rest is as for the review that holds it
    have hadded : r.elements <+: r.elements ++ [e] := List.prefix_append _ _
    have hlength : (r.elements ++ [e]).length ≤ maxElements := by
      rw [List.length_append, List.length_singleton]
      exact hroom
    generalize drain { r with decoder, elements := r.elements ++ [e] } = answer at ih
    rcases answer with ⟨_ | _ | _, r'⟩
    · exact ih
    · exact ⟨hadded.trans ih.1, fun _ => ih.2.1 hlength, ih.2.2⟩
    · exact ⟨hadded.trans ih.1, fun _ => ih.2.1 hlength, ih.2.2⟩
  | case5 r e decoder hnext hfull => exact Or.inl rfl

theorem advances_push (r : Review) (chunk : Bytes) : r.Advances (r.push chunk) := by
  unfold push
  split
  · next e _ => exact Or.inr ⟨e, rfl⟩
  · next decoder _ => exact advances_drain { r with decoder }

end Review

/-! ## Events -/

/-- The reply gives out a hash or a signature. -/
def Reply.IsRelease : Reply → Prop
  | .hash _ => True
  | .signature _ => True
  | _ => False

namespace Session

variable {s s' : Session} {e : Event} {a : Action}

/-- What a chunk for the review `r` can come to. -/
inductive Delivers (s : Session) (r : Review) (flags : Flags) (chunk : Bytes) :
    Except Refusal Reply → Session → Prop where
  /-- The chunk is for another purpose than the review. -/
  | otherFlags (h : r.flags ≠ flags) : Delivers s r flags chunk (.error .invalidParam) s
  | tooLong (h : maxChunk < chunk.length) : Delivers s r flags chunk (.error .invalidLength) s
  /-- The hash is there, and the user is asked. -/
  | completes {r' : Review} (h : r.push chunk = (.ok true, r')) :
    Delivers s r flags chunk (.ok (.state .pending (UInt16.ofNat r'.elements.length)))
      { s with state := .pending, operation := .review r' }
  /-- More data are needed. -/
  | continues {r' : Review} (h : r.push chunk = (.ok false, r')) :
    Delivers s r flags chunk (.ok (.state s.state (UInt16.ofNat r'.elements.length)))
      { s with operation := .review r' }
  /-- The transaction is bad, and the review is over. -/
  | fails {e : Refusal} {r' : Review} (h : r.push chunk = (.error e, r')) :
    Delivers s r flags chunk (.error e) (s.finish .error)

theorem delivers_receive {r : Review} (h : s.operation = .review r) (flags : Flags)
    (chunk : Bytes) :
    s.Delivers r flags chunk (s.receive flags chunk).1 (s.receive flags chunk).2 := by
  rw [receive, h]
  dsimp only
  split
  · next hflags => exact .otherFlags hflags
  · split
    · next hlong => exact .tooLong hlong
    · split
      · next hpush => exact .completes hpush
      · next hpush => exact .continues hpush
      · next hpush => exact .fails hpush

/-- Without a review no chunk is taken. -/
theorem receive_of_not_review (h : ∀ r, s.operation ≠ .review r) (flags : Flags) (chunk : Bytes) :
    s.receive flags chunk = (.error .invalidState, s) := by
  rw [receive]
  split
  · next r hr => exact absurd hr (h r)
  · rfl

/-- What an event can come to: the answer, and the session after it. -/
inductive Moves (s : Session) : Event → Except Refusal Reply → Session → Prop where
  /-- A question is answered. -/
  | answered {e : Event} {reply : Reply} (h : ¬ reply.IsRelease) : Moves s e (.ok reply) s
  /-- A key is not given out while the session is locked. -/
  | locked {keyIndex : UInt32} {display : KeyView} (h : s.unlocked = false) :
    Moves s (.getPublicKey keyIndex display) (.error .approvalPending) s
  /-- No hash is taken while a transaction is coming in. -/
  | busy {keyIndex : UInt32} {hash : Digest} (h : s.state = .decoding) :
    Moves s (.signHash keyIndex hash) (.error .unexpectedEvent) s
  /-- There is no transaction that the part could belong to. -/
  | unstarted {flags : Flags} {data : Bytes} (h : s.state ≠ .decoding) :
    Moves s (.more flags data) (.error .improperInit) s
  /-- The state says that a transaction is coming in, but there is no review of it. -/
  | lost {flags : Flags} {data : Bytes} (h : s.state = .decoding)
      (hnone : ∀ r, s.operation ≠ .review r) : Moves s (.more flags data) (.error .invalidState) s
  /-- A hash is taken, and the user is asked. -/
  | asked {keyIndex : UInt32} {hash : Digest} (h : s.state ≠ .decoding) :
    Moves s (.signHash keyIndex hash) (.ok (.state .pending 0))
      { s with state := .pending, operation := .signHash keyIndex hash }
  /-- A review that is going on is dropped. -/
  | restarted {keyIndex : UInt32} {sigIndex : UInt16} {changeIndex : UInt32} {flags : Flags}
      {data : Bytes} (h : s.isReviewing = true) :
    Moves s (.start keyIndex sigIndex changeIndex flags data) (.error .improperInit)
      (s.finish .error)
  /-- A review begins with its first chunk. -/
  | begun {keyIndex : UInt32} {sigIndex : UInt16} {changeIndex : UInt32} {flags : Flags}
      {data : Bytes} {answer : Except Refusal Reply} {s' : Session} (h : s.isReviewing = false)
      (hdelivers : (s.started keyIndex sigIndex changeIndex flags).Delivers
        (Review.new keyIndex sigIndex (s.changeAddress changeIndex) flags) flags data answer s') :
    Moves s (.start keyIndex sigIndex changeIndex flags data) answer s'
  /-- A review gets a further chunk. -/
  | continued {flags : Flags} {data : Bytes} {r : Review} {answer : Except Refusal Reply}
      {s' : Session} (h : s.state = .decoding) (hreview : s.operation = .review r)
      (hdelivers : s.Delivers r flags data answer s') : Moves s (.more flags data) answer s'

/-- The version of the application can be read. -/
theorem parse?_applicationVersion : Version.parse? applicationVersion = some ⟨0, 1, 0⟩ := by
  decide

theorem handle_start (h : s.isReviewing = false) (keyIndex : UInt32) (sigIndex : UInt16)
    (changeIndex : UInt32) (flags : Flags) (data : Bytes) :
    s.handle (.start keyIndex sigIndex changeIndex flags data) =
      (s.started keyIndex sigIndex changeIndex flags).receive flags data := by
  rw [handle, if_neg (by rw [h]; exact Bool.false_ne_true)]
  rfl

/-- Nothing else comes of an event. -/
theorem moves_handle (s : Session) (e : Event) : s.Moves e (s.handle e).1 (s.handle e).2 := by
  cases e with
  | none => exact .answered id
  | getVersion =>
    rw [handle, parse?_applicationVersion]
    exact .answered id
  | getPublicKey keyIndex display =>
    rw [handle]
    split
    · exact .answered id
    · next hlocked => exact .locked (Bool.eq_false_iff.2 hlocked)
  | signHash keyIndex hash =>
    rw [handle]
    split
    · next hstate => exact .busy hstate
    · next hstate => exact .asked hstate
  | start keyIndex sigIndex changeIndex flags data =>
    by_cases hreviewing : s.isReviewing = true
    · rw [handle, if_pos hreviewing]
      exact .restarted hreviewing
    · have hidle : s.isReviewing = false := Bool.eq_false_iff.2 hreviewing
      rw [handle_start hidle]
      exact .begun hidle (delivers_receive rfl flags data)
  | more flags data =>
    rw [handle]
    by_cases hstate : s.state = .decoding
    · rw [if_pos hstate]
      by_cases hreview : ∃ r, s.operation = .review r
      · obtain ⟨r, hr⟩ := hreview
        exact .continued hstate hr (delivers_receive hr flags data)
      · have hnone : ∀ r, s.operation ≠ .review r := not_exists.1 hreview
        rw [receive_of_not_review hnone]
        exact .lost hstate hnone
    · rw [if_neg hstate]
      exact .unstarted hstate

/-! ## What an action leaves as it is -/

/-- A chunk touches neither the keys nor the lock. -/
theorem kept_of_delivers {r : Review} {flags : Flags} {data : Bytes}
    {answer : Except Refusal Reply} (h : s.Delivers r flags data answer s') :
    s'.keys = s.keys ∧ s'.unlocked = s.unlocked := by
  cases h <;> exact ⟨rfl, rfl⟩

/-- An event touches neither the keys nor the lock. -/
theorem kept_of_moves {answer : Except Refusal Reply} (h : s.Moves e answer s') :
    s'.keys = s.keys ∧ s'.unlocked = s.unlocked := by
  cases h with
  | begun _ hdelivers =>
    -- those of the session are those that the transaction was started with
    have hkept := kept_of_delivers hdelivers
    exact hkept
  | continued _ _ hdelivers => exact kept_of_delivers hdelivers
  | _ => exact ⟨rfl, rfl⟩

theorem kept_of_approve (s : Session) :
    s.approve.2.keys = s.keys ∧ s.approve.2.unlocked = s.unlocked := by
  unfold approve
  split <;> exact ⟨rfl, rfl⟩

/-- No action touches the keys. -/
theorem keys_act (s : Session) (a : Action) : (s.act a).2.keys = s.keys := by
  cases a with
  | event e => exact (kept_of_moves (s.moves_handle e)).1
  | approve => exact (kept_of_approve s).1
  | _ => rfl

/-- Only the user's lock and unlock touch the lock. -/
theorem unlocked_act (s : Session) (hlock : a ≠ .lock) (hunlock : a ≠ .unlock) :
    (s.act a).2.unlocked = s.unlocked := by
  cases a with
  | event e => exact (kept_of_moves (s.moves_handle e)).2
  | approve => exact (kept_of_approve s).2
  | deny => rfl
  | reset => rfl
  | lock => exact absurd rfl hlock
  | unlock => exact absurd rfl hunlock

/-! ## Refused events -/

/-- The event drops the operation and leaves an error; all else stays. -/
def Aborts (s : Session) (e : Event) : Prop :=
  (s.handle e).2 = s.finish .error ∧ (s.handle e).2.state = .error ∧
    (s.handle e).2.elements = [] ∧ (s.handle e).2.pending = none

theorem aborts_of_eq {e : Event} (h : (s.handle e).2 = s.finish .error) : s.Aborts e := by
  rw [Aborts, h]
  exact ⟨rfl, rfl, rfl, rfl⟩

/-- The event begins a transaction, and brings more data than a chunk may have. -/
def BeginsTooLong (s : Session) (e : Event) : Prop :=
  match e with
  | .start _ _ _ _ data => s.isReviewing = false ∧ maxChunk < data.length
  | _ => False

/-- A transaction that begins with too much data is refused, and has begun without them. -/
theorem handle_start_of_tooLong {keyIndex : UInt32} {sigIndex : UInt16} {changeIndex : UInt32}
    {flags : Flags} {data : Bytes}
    (h : s.BeginsTooLong (.start keyIndex sigIndex changeIndex flags data)) :
    s.handle (.start keyIndex sigIndex changeIndex flags data) =
      (.error .invalidLength, s.started keyIndex sigIndex changeIndex flags) := by
  have hsame : ¬ (Review.new keyIndex sigIndex (s.changeAddress changeIndex) flags).flags ≠ flags :=
    fun hne => hne rfl
  rw [handle_start h.1, receive]
  show (if _ then _ else _) = _
  rw [if_neg hsame, if_pos h.2]

/-- A transaction that has begun is neither what was there before nor an error. -/
theorem started_ne (h : s.isReviewing = false) (keyIndex : UInt32) (sigIndex : UInt16)
    (changeIndex : UInt32) (flags : Flags) :
    s.started keyIndex sigIndex changeIndex flags ≠ s ∧
      s.started keyIndex sigIndex changeIndex flags ≠ s.finish .error := by
  apply And.intro
  · intro heq
    -- a transaction that is coming in would be reviewed
    rw [← heq] at h
    cases h
  · intro heq
    cases congrArg Session.state heq

end Session

/-- The reason lies in the arguments of an event, and not in a transaction. -/
def Refusal.IsOfArguments (r : Refusal) : Prop :=
  r = .invalidLength ∨ r = .invalidParam ∨ r = .unexpectedEvent ∨ r = .approvalPending

instance (r : Refusal) : Decidable r.IsOfArguments :=
  inferInstanceAs (Decidable (_ ∨ _ ∨ _ ∨ _))

/-- A failure of a review does not lie in the arguments of an event. -/
theorem Review.not_isOfArguments_push {r r' : Review} {chunk : Bytes} {e : Refusal}
    (h : r.push chunk = (.error e, r')) : ¬ e.IsOfArguments := by
  have hadvances := r.advances_push chunk
  rw [h] at hadvances
  rcases hadvances with rfl | ⟨d, rfl⟩
  · decide
  · simp [Refusal.IsOfArguments]

namespace Session

variable {s s' : Session} {r : Review} {flags : Flags} {chunk : Bytes} {e : Refusal}

/-- A chunk that is refused leaves the session as it is, or it ends the review. -/
theorem unchanged_or_finished (h : s.Delivers r flags chunk (.error e) s') :
    (s' = s ∧ (maxChunk < chunk.length ∨ r.flags ≠ flags)) ∨
      (s' = s.finish .error ∧ ¬ e.IsOfArguments) := by
  cases h with
  | otherFlags hflags => exact Or.inl ⟨rfl, Or.inr hflags⟩
  | tooLong hlong => exact Or.inl ⟨rfl, Or.inl hlong⟩
  | fails hpush => exact Or.inr ⟨rfl, Review.not_isOfArguments_push hpush⟩

/-- A refused event leaves the session as it is, or it ends the operation, unless it begins a
transaction with too much data. -/
theorem unchanged_or_finished_of_moves {event : Event} (h : s.Moves event (.error e) s')
    (hlong : ¬ s.BeginsTooLong event) :
    s' = s ∨ (s' = s.finish .error ∧ ¬ e.IsOfArguments) := by
  cases h with
  | locked => exact Or.inl rfl
  | busy => exact Or.inl rfl
  | unstarted => exact Or.inl rfl
  | lost => exact Or.inl rfl
  | restarted => exact Or.inr ⟨rfl, by decide⟩
  | begun hidle hdelivers =>
    rcases unchanged_or_finished hdelivers with ⟨-, hdata | hflags⟩ | ⟨rfl, hreason⟩
    · exact absurd ⟨hidle, hdata⟩ hlong
    · -- the review has the flags of the event
      exact absurd rfl hflags
    · exact Or.inr ⟨rfl, hreason⟩
  | continued hstate hreview hdelivers =>
    rcases unchanged_or_finished hdelivers with ⟨rfl, -⟩ | ⟨rfl, hreason⟩
    · exact Or.inl rfl
    · exact Or.inr ⟨rfl, hreason⟩

/-- A refused event leaves the session as it is, or it ends the operation, for a reason that does
not lie in its arguments; unless it begins a transaction with too much data. Then it does neither,
and the transaction has begun without the data. -/
theorem unchanged_or_aborted_iff (s : Session) (e : Event) (reason : Refusal)
    (h : (s.handle e).1 = .error reason) :
    (((s.handle e).2 = s ∨ (s.Aborts e ∧ ¬ reason.IsOfArguments)) ↔ ¬ s.BeginsTooLong e) ∧
      (s.BeginsTooLong e → reason = .invalidLength ∧ ∃ keyIndex sigIndex changeIndex flags,
        (s.handle e).2 = s.started keyIndex sigIndex changeIndex flags) := by
  by_cases hlong : s.BeginsTooLong e
  · cases e with
    | start keyIndex sigIndex changeIndex flags data =>
      have hhandle := handle_start_of_tooLong hlong
      obtain ⟨hchanged, hgoes⟩ := started_ne hlong.1 keyIndex sigIndex changeIndex flags
      have hreason : reason = .invalidLength := by
        rw [hhandle] at h
        exact (Except.error.inj h).symm
      refine ⟨⟨fun hgood => ?_, fun hnot => absurd hlong hnot⟩, fun _ => ⟨hreason, ?_⟩⟩
      · rw [Aborts, hhandle] at hgood
        rcases hgood with hsame | ⟨⟨hfinished, -⟩, -⟩
        · exact absurd hsame hchanged
        · exact absurd hfinished hgoes
      · rw [hhandle]
        exact ⟨_, _, _, _, rfl⟩
    | _ => exact hlong.elim
  · have hmoves := s.moves_handle e
    rw [h] at hmoves
    refine ⟨⟨fun _ => hlong, fun _ => ?_⟩, fun htoo => absurd htoo hlong⟩
    rcases unchanged_or_finished_of_moves hmoves hlong with hsame | ⟨hfinished, hreason⟩
    · exact Or.inl hsame
    · exact Or.inr ⟨aborts_of_eq hfinished, hreason⟩

/-- A signer to which a transaction is coming in. -/
def comingIn : Session := (new oneKey).started 7 0 noChange Flags.none

theorem comingIn_unchanged :
    (comingIn.handle (.more ⟨true, false⟩ [1])).1 = .error .invalidParam ∧
      (comingIn.handle (.more ⟨true, false⟩ [1])).2 = comingIn := by
  have hrefused : (comingIn.handle (.more ⟨true, false⟩ [1])).1 = .error .invalidParam := rfl
  refine ⟨hrefused, ?_⟩
  rcases (unchanged_or_aborted_iff comingIn _ _ hrefused).1.2 id with hsame | ⟨-, hreason⟩
  · exact hsame
  · exact absurd (by decide) hreason

/-- The start of a transaction with one byte more than a chunk may have. -/
def longStart : Event := .start 7 0 noChange Flags.none (List.replicate 256 0)

/-- The start is refused for its length, and still the hash that was pending is gone, and a
transaction is coming in. -/
theorem left_half_started :
    Reachable oneKey hashAsked ∧ hashAsked.pending = some ⟨0, Block.zero 32, true⟩ ∧
      (hashAsked.handle longStart).1 = .error .invalidLength ∧
      (hashAsked.handle longStart).2 ≠ hashAsked ∧ ¬ hashAsked.Aborts longStart ∧
      (hashAsked.handle longStart).2.pending = none ∧
      (hashAsked.handle longStart).2.state = .decoding := by
  have hlong : hashAsked.BeginsTooLong longStart := ⟨by decide, by decide +kernel⟩
  have hhandle : hashAsked.handle longStart =
      (.error .invalidLength, hashAsked.started 7 0 noChange Flags.none) :=
    handle_start_of_tooLong hlong
  obtain ⟨hchanged, hgoes⟩ := started_ne (s := hashAsked) (by decide) 7 0 noChange Flags.none
  rw [Aborts, hhandle]
  exact ⟨⟨_, rfl⟩, by decide, rfl, hchanged, fun haborts => hgoes haborts.1, rfl, rfl⟩

end Session

end Countersign
