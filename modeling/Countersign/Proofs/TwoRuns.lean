import Countersign.Proofs.Release

/-!
# What two runs have in common

Two signers can differ in a way that nobody who uses them can see.

* Their pasts can differ. Every way of ending an operation drops all of it, so a signer in which
  nothing goes on is its keys, its lock and the name of its state (`eq_of_idle`), and the name does
  not matter to a new request (`handle_of_idle`). From the request on, all is the same
  (`watch_of_idle`).
* Their keys can differ. Keys are used for a public key, for a signature and for the address of the
  change, and only the address goes into the session. While it is the same, sessions with different
  keys do the same (`act_withKeys`), and give the same but for public keys, their addresses and
  signatures (`told_of_keys`). A public key is given out only after the user has allowed it, and a
  signature only for a consent to sign.
-/

namespace Countersign

namespace Session

variable {s s' t : Session} {keys : KeySource} {e : Event} {a : Action}

/-! ## Different pasts -/

/-- A session in which nothing goes on is its keys, its state and its lock. -/
theorem eq_of_idle (h : Reachable keys s) (hidle : s.state.IsIdle) :
    s = ⟨keys, s.state, s.unlocked, .none⟩ := by
  obtain ⟨actions, rfl⟩ := h
  have hkeys := (tracks_run (tracks_new keys) actions).keys_eq
  have hoperation := operation_of_idle (agrees_run (agrees_new keys) actions) hidle
  generalize ((new keys).run actions).2 = s at hkeys hoperation
  rw [← hkeys, ← hoperation]

/-- A request finds all states in which nothing goes on alike. -/
theorem handle_of_idle {state state' : State} (h : state.IsIdle) (h' : state'.IsIdle)
    (unlocked : Bool) (he : e.IsRequest) :
    handle ⟨keys, state, unlocked, .none⟩ e = handle ⟨keys, state', unlocked, .none⟩ e := by
  cases e with
  | none => cases he
  | getVersion => cases he
  | getPublicKey => cases he
  | more => cases he
  | signHash keyIndex hash =>
    have hfree : ∀ {state : State}, state.IsIdle → state ≠ .decoding := by
      rintro _ hidle rfl
      exact hidle
    rw [handle, if_neg (hfree h), handle, if_neg (hfree h')]
  | start keyIndex sigIndex changeIndex flags data =>
    rw [handle_start (isReviewing_of_isIdle h), handle_start (isReviewing_of_isIdle h')]
    rfl

/-- From a request on, two sessions in which nothing goes on do and show the same, whatever has been
before, if they have the same keys and both are locked or both are not. -/
theorem watch_of_idle (keys : KeySource) (s t : Session) (e : Event) (actions : List Action)
    (hs : Reachable keys s) (ht : Reachable keys t) (hsidle : s.state.IsIdle)
    (htidle : t.state.IsIdle) (hlock : s.unlocked = t.unlocked) (he : e.IsRequest) :
    s.watch (.event e :: actions) = t.watch (.event e :: actions) ∧
      s.run (.event e :: actions) = t.run (.event e :: actions) := by
  have hhandle : s.handle e = t.handle e := by
    rw [eq_of_idle hs hsidle, eq_of_idle ht htidle, hlock]
    exact handle_of_idle hsidle htidle _ he
  have hact : s.act (.event e) = t.act (.event e) := by
    rw [act, act, hhandle]
  rw [watch, watch, run, run, hact]
  exact ⟨rfl, rfl⟩

/-- A signer that has signed a hash. -/
def afterConsent : Session :=
  ((new oneKey).run [.unlock, .event (.signHash 1 (Block.zero 32)), .approve]).2

/-- A signer that has refused a transaction with a file contract. -/
def afterFailure : Session :=
  ((new oneKey).run [.event (.start 7 0 noChange ⟨true, true⟩ (List.replicate 32 0 ++ [1])),
    .event (.more ⟨true, true⟩ (List.replicate 7 0)), .unlock]).2

theorem watch_afterConsent :
    afterConsent.state = .complete ∧ afterFailure.state = .error ∧
      afterConsent.watch (.event (.start 3 0 noChange Flags.none [1]) :: payOnce) =
        afterFailure.watch (.event (.start 3 0 noChange Flags.none [1]) :: payOnce) := by
  have hconsent : afterConsent.state = .complete := by decide +kernel
  have hfailure : afterFailure.state = .error := by decide +kernel
  refine ⟨hconsent, hfailure, ?_⟩
  exact (watch_of_idle oneKey afterConsent afterFailure (.start 3 0 noChange Flags.none [1]) payOnce
    ⟨_, rfl⟩ ⟨_, rfl⟩ (by rw [hconsent]; trivial) (by rw [hfailure]; trivial) (by decide +kernel)
    trivial).1

end Session

/-! ## Different keys -/

namespace Reply

/-- The reply with blanks in place of what is made from a key. -/
def redact : Reply → Reply
  | publicKey _ _ display => publicKey (Block.zero 32) ⟨Block.zero 32⟩ display
  | signature _ => signature (Block.zero 64)
  | reply => reply

theorem redact_publicKey (key key' : PublicKey) (address address' : Address) (display : KeyView) :
    redact (publicKey key address display) = redact (publicKey key' address' display) := rfl

theorem redact_release (p : Offer) (signature signature' : Signature) :
    redact (if p.sign then .signature signature else .hash p.hash) =
      redact (if p.sign then .signature signature' else .hash p.hash) := by
  split <;> rfl

end Reply

/-- Both keys stand for the same change in a transaction that the action starts. -/
def Action.SameChange (keys keys' : KeySource) : Action → Prop
  | .event (.start _ _ changeIndex _ _) =>
    changeIndex ≠ noChange → keys.publicKey changeIndex = keys'.publicKey changeIndex
  | _ => True

namespace Session

variable {s s' t : Session} {keys keys' : KeySource} {e : Event} {a : Action}

/-- A result with blanks in place of what is made from a key. -/
def redact (r : Result) : Result := r.map (Option.map Reply.redact)

/-- What is seen of an action, with blanks in place of what is made from a key. -/
def redactSeen (seen : Result × View) : Result × View := (redact seen.1, seen.2)

/-- The session with other keys. -/
def withKeys (s : Session) (keys : KeySource) : Session := { s with keys }

@[simp] theorem state_withKeys (s : Session) (keys : KeySource) :
    (s.withKeys keys).state = s.state := rfl

@[simp] theorem unlocked_withKeys (s : Session) (keys : KeySource) :
    (s.withKeys keys).unlocked = s.unlocked := rfl

@[simp] theorem isReviewing_withKeys (s : Session) (keys : KeySource) :
    (s.withKeys keys).isReviewing = s.isReviewing := rfl

@[simp] theorem pending_withKeys (s : Session) (keys : KeySource) :
    (s.withKeys keys).pending = s.pending := rfl

/-- The keys do not show. -/
theorem view_withKeys (s : Session) (keys : KeySource) : (s.withKeys keys).view = s.view := rfl

/-- A chunk is received without a key. -/
theorem receive_withKeys (s : Session) (keys : KeySource) (flags : Flags) (chunk : Bytes) :
    (s.withKeys keys).receive flags chunk =
      ((s.receive flags chunk).1, (s.receive flags chunk).2.withKeys keys) := by
  rcases s with ⟨old, state, unlocked, _ | r | ⟨keyIndex, hash⟩⟩
  · rfl
  · unfold receive withKeys
    dsimp only
    split
    · rfl
    · split
      · rfl
      · split <;> rfl
  · rfl

/-- The review that a transaction begins with is the same under both keys. -/
theorem started_withKeys {changeIndex : UInt32}
    (h : changeIndex ≠ noChange → s.keys.publicKey changeIndex = keys.publicKey changeIndex)
    (keyIndex : UInt32) (sigIndex : UInt16) (flags : Flags) :
    (s.withKeys keys).started keyIndex sigIndex changeIndex flags =
      (s.started keyIndex sigIndex changeIndex flags).withKeys keys := by
  have hchange : (s.withKeys keys).changeAddress changeIndex = s.changeAddress changeIndex := by
    unfold changeAddress
    split
    · rfl
    · next hindex =>
      rw [h hindex]
      rfl
  rw [started, hchange]
  rfl

/-- Two sessions that differ in their keys do and answer the same with an event that asks for no
key, if the change of a transaction that it starts is at the same key. -/
theorem handle_withKeys_of_unasked (s : Session) (keys : KeySource) (e : Event)
    (hask : ∀ keyIndex display, e ≠ .getPublicKey keyIndex display)
    (h : s.isReviewing = false → (Action.event e).SameChange s.keys keys) :
    (s.withKeys keys).handle e = ((s.handle e).1, (s.handle e).2.withKeys keys) := by
  cases e with
  | none => rfl
  | getVersion =>
    rw [handle, handle, parse?_applicationVersion]
  | getPublicKey keyIndex display => exact absurd rfl (hask keyIndex display)
  | signHash keyIndex hash =>
    rw [handle, handle, state_withKeys]
    by_cases hstate : s.state = .decoding
    · rw [if_pos hstate, if_pos hstate]
    · rw [if_neg hstate, if_neg hstate]
      rfl
  | start keyIndex sigIndex changeIndex flags data =>
    by_cases hreviewing : s.isReviewing = true
    · rw [handle, handle, isReviewing_withKeys, if_pos hreviewing, if_pos hreviewing]
      rfl
    · have hidle : s.isReviewing = false := Bool.eq_false_iff.2 hreviewing
      rw [handle_start hidle, handle_start (s := s.withKeys keys) hidle, started_withKeys (h hidle),
        receive_withKeys]
  | more flags data =>
    rw [handle, handle, state_withKeys]
    by_cases hstate : s.state = .decoding
    · rw [if_pos hstate, if_pos hstate, receive_withKeys]
    · rw [if_neg hstate, if_neg hstate]

/-- Two sessions that differ in their keys do the same with an event, and answer the same but for
what is made from a key. -/
theorem handle_withKeys (s : Session) (keys : KeySource) (e : Event)
    (h : (Action.event e).SameChange s.keys keys) :
    ((s.withKeys keys).handle e).1.map Reply.redact = (s.handle e).1.map Reply.redact ∧
      ((s.withKeys keys).handle e).2 = (s.handle e).2.withKeys keys := by
  by_cases hask : ∃ keyIndex display, e = .getPublicKey keyIndex display
  · obtain ⟨keyIndex, display, rfl⟩ := hask
    rw [handle, handle, unlocked_withKeys]
    by_cases hlock : s.unlocked = true
    · rw [if_pos hlock, if_pos hlock]
      exact ⟨congrArg Except.ok (Reply.redact_publicKey _ _ _ _ _), rfl⟩
    · rw [if_neg hlock, if_neg hlock]
      exact ⟨rfl, rfl⟩
  · have hsame := handle_withKeys_of_unasked s keys e
      (fun keyIndex display he => hask ⟨keyIndex, display, he⟩) fun _ => h
    rw [hsame]
    exact ⟨rfl, rfl⟩

/-- The user's consent uses up the same, and releases the same but for the signature. -/
theorem approve_withKeys (s : Session) (keys : KeySource) :
    (s.withKeys keys).approve.1.map Reply.redact = s.approve.1.map Reply.redact ∧
      (s.withKeys keys).approve.2 = s.approve.2.withKeys keys := by
  rw [approve, approve, pending_withKeys]
  rcases s.pending with _ | p
  · exact ⟨rfl, rfl⟩
  · exact ⟨congrArg Except.ok (Reply.redact_release p _ _), rfl⟩

theorem redact_map_some (r : Except Refusal Reply) :
    redact (r.map some) = (r.map Reply.redact).map some := by
  rcases r with _ | _ <;> rfl

/-- Two sessions that differ in their keys do the same in an action, and give the same but for what
is made from a key. -/
theorem act_withKeys (s : Session) (keys : KeySource) (a : Action) (h : a.SameChange s.keys keys) :
    redact ((s.withKeys keys).act a).1 = redact (s.act a).1 ∧
      ((s.withKeys keys).act a).2 = (s.act a).2.withKeys keys := by
  cases a with
  | event e =>
    obtain ⟨hanswer, hsession⟩ := handle_withKeys s keys e h
    refine ⟨?_, hsession⟩
    show redact (((s.withKeys keys).handle e).1.map some) = redact ((s.handle e).1.map some)
    rw [redact_map_some, redact_map_some, hanswer]
  | approve =>
    obtain ⟨hanswer, hsession⟩ := approve_withKeys s keys
    refine ⟨?_, hsession⟩
    show redact ((s.withKeys keys).approve.1.map some) = redact (s.approve.1.map some)
    rw [redact_map_some, redact_map_some, hanswer]
  | _ => exact ⟨rfl, rfl⟩

/-- In a run, two sessions that differ in their keys show the same, and give the same but for what
is made from a key. -/
theorem watch_withKeys (s : Session) (keys : KeySource) (actions : List Action)
    (h : ∀ a ∈ actions, a.SameChange s.keys keys) :
    ((s.withKeys keys).watch actions).map redactSeen = (s.watch actions).map redactSeen := by
  induction actions generalizing s with
  | nil => rfl
  | cons a actions ih =>
    obtain ⟨ha, hactions⟩ := List.forall_mem_cons.1 h
    obtain ⟨hanswer, hsession⟩ := act_withKeys s keys a ha
    have hrest := ih (s.act a).2 (by rwa [keys_act])
    rw [watch, watch, hsession, List.map_cons, List.map_cons, hrest, redactSeen, redactSeen,
      hanswer, view_withKeys]

/-! ## What is told of a key -/

/-- Of all actions on the lock, the last one has opened it. -/
def EndsUnlocked (actions : List Action) : Prop :=
  ∃ earlier later, actions = earlier ++ .unlock :: later ∧ .lock ∉ later

/-- A session is unlocked because the user has unlocked it and not locked it since, or because it
was so from the beginning. -/
theorem endsUnlocked_or_same (s : Session) (actions : List Action)
    (h : (s.run actions).2.unlocked = true) :
    EndsUnlocked actions ∨ (s.unlocked = true ∧ .lock ∉ actions) := by
  induction actions generalizing s with
  | nil => exact Or.inr ⟨h, List.not_mem_nil⟩
  | cons a actions ih =>
    rcases ih (s.act a).2 h with ⟨earlier, later, rfl, hlater⟩ | ⟨hunlocked, hnever⟩
    · exact Or.inl ⟨a :: earlier, later, rfl, hlater⟩
    · by_cases hunlock : a = .unlock
      · exact Or.inl ⟨[], actions, by rw [hunlock]; rfl, hnever⟩
      · have hlock : a ≠ .lock := by
          rintro rfl
          cases hunlocked
        rw [unlocked_act s hlock hunlock] at hunlocked
        exact Or.inr ⟨hunlocked, List.not_mem_cons_of_ne_of_not_mem hlock.symm hnever⟩

/-- What a chunk is answered with is a state. -/
theorem state_of_receive {flags : Flags} {data : Bytes} {reply : Reply}
    (h : (s.receive flags data).1 = .ok reply) : ∃ state n, reply = .state state n := by
  by_cases hreview : ∃ r, s.operation = .review r
  · obtain ⟨r, hr⟩ := hreview
    have hdelivers := delivers_receive hr flags data
    rw [h] at hdelivers
    generalize (s.receive flags data).2 = s' at hdelivers
    cases hdelivers with
    | completes => exact ⟨_, _, rfl⟩
    | continues => exact ⟨_, _, rfl⟩
  · rw [receive_of_not_review (not_exists.1 hreview)] at h
    cases h

/-- A public key is given out to an event that asks for it, while the session is unlocked. -/
theorem asked_of_publicKey {key : PublicKey} {address : Address} {display : KeyView}
    (h : (s.handle e).1 = .ok (.publicKey key address display)) :
    s.unlocked = true ∧ ∃ keyIndex, e = .getPublicKey keyIndex display := by
  have hnever : ∀ {flags data} {t : Session},
      (t.receive flags data).1 ≠ .ok (.publicKey key address display) := by
    intro flags data t hreply
    obtain ⟨state, n, hstate⟩ := state_of_receive hreply
    cases hstate
  cases e with
  | none => cases h
  | getVersion =>
    rw [handle, parse?_applicationVersion] at h
    cases h
  | getPublicKey keyIndex view =>
    rw [handle] at h
    by_cases hlock : s.unlocked = true
    · rw [if_pos hlock] at h
      injection h with hreply
      injection hreply with _ _ hview
      exact ⟨hlock, keyIndex, by rw [hview]⟩
    · rw [if_neg hlock] at h
      cases h
  | signHash keyIndex hash =>
    rw [handle] at h
    split at h <;> cases h
  | start keyIndex sigIndex changeIndex flags data =>
    rw [handle] at h
    split at h
    · cases h
    · exact absurd h hnever
  | more flags data =>
    rw [handle] at h
    split at h
    · exact absurd h hnever
    · cases h

/-- The reply that an action gives is that of the signer. -/
theorem eq_ok_of_map_some {answer : Except Refusal Reply} {reply : Reply}
    (h : (answer.map some : Result) = .ok (some reply)) : answer = .ok reply := by
  rcases answer with reason | reply'
  · cases h
  · cases h
    rfl

/-- A public key is given out to an event that asks for it, while the session is unlocked. -/
theorem event_of_publicKey {key : PublicKey} {address : Address} {display : KeyView}
    (h : (s.act a).1 = .ok (some (.publicKey key address display))) :
    s.unlocked = true ∧ ∃ keyIndex, a = .event (.getPublicKey keyIndex display) := by
  cases a with
  | event e =>
    obtain ⟨hlock, keyIndex, rfl⟩ := asked_of_publicKey (eq_ok_of_map_some h)
    exact ⟨hlock, keyIndex, rfl⟩
  | approve =>
    obtain ⟨-, p, -, hreply⟩ := released_by_approve (eq_ok_of_map_some h)
    split at hreply <;> cases hreply
  | _ => cases h

/-- A signature is given out for the user's consent to sign. -/
theorem consent_of_signature {signature : Signature}
    (h : (s.act a).1 = .ok (some (.signature signature))) :
    a = .approve ∧ ∃ p, s.pending = some p ∧ p.sign = true := by
  obtain rfl := approve_of_isRelease h trivial
  obtain ⟨-, p, hpending, hreply⟩ := released_by_approve (eq_ok_of_map_some h)
  split at hreply
  · next hsign => exact ⟨rfl, p, hpending, hsign⟩
  · cases hreply

/-- Two signers that have different keys, but the same for the addresses of the change, do and show
the same in every run, and what they give differs only in public keys, their addresses and
signatures. A public key is given out only to an event that asks for it while the last action on the
lock was to open it, and a signature only for the user's consent to a hash that is to be signed. -/
theorem told_of_keys (keys keys' : KeySource) (actions : List Action)
    (h : ∀ a ∈ actions, a.SameChange keys keys') :
    ((new keys).watch actions).map redactSeen = ((new keys').watch actions).map redactSeen ∧
    ∀ before a after, actions = before ++ a :: after →
      (∀ key address display,
        (((new keys).run before).2.act a).1 = .ok (some (.publicKey key address display)) →
          (∃ keyIndex, a = .event (.getPublicKey keyIndex display)) ∧ EndsUnlocked before) ∧
      ∀ signature, (((new keys).run before).2.act a).1 = .ok (some (.signature signature)) →
        a = .approve ∧ ∃ p, ((new keys).run before).2.pending = some p ∧ p.sign = true := by
  refine ⟨(watch_withKeys (new keys) keys' actions h).symm, fun before a after _ => ⟨?_, ?_⟩⟩
  · intro key address display hkey
    obtain ⟨hlock, hasked⟩ := event_of_publicKey hkey
    rcases endsUnlocked_or_same (new keys) before hlock with hopened | ⟨hnew, -⟩
    · exact ⟨hasked, hopened⟩
    · -- a new signer is locked
      cases hnew
  · exact fun signature => consent_of_signature

/-- Keys of which only the one for the change is that of `oneKey`. -/
def oneKeyForChange : KeySource :=
  ⟨fun path => if path = derivationPath 1 then Block.zero 32 else Block.ofBytes 32 [1]⟩

/-- A key is asked for, and then a transaction is signed that has its change at the key 1. -/
def askAndSign : List Action :=
  [.unlock, .event (.getPublicKey 0 .address),
   .event (.start 7 0 1 ⟨true, true⟩ (V2.onePaid.encode.take 57)),
   .event (.more ⟨true, true⟩ (V2.onePaid.encode.drop 57)), .approve]

theorem told_of_askAndSign :
    oneKey.seedAt (derivationPath 7) ≠ oneKeyForChange.seedAt (derivationPath 7) ∧
      (∀ a ∈ askAndSign, a.SameChange oneKey oneKeyForChange) ∧
      ((new oneKey).watch askAndSign).map redactSeen =
        ((new oneKeyForChange).watch askAndSign).map redactSeen := by
  have hchange : ∀ a ∈ askAndSign, a.SameChange oneKey oneKeyForChange := by
    have hseed : oneKey.seedAt (derivationPath 1) = oneKeyForChange.seedAt (derivationPath 1) := by
      decide
    simp only [askAndSign, List.forall_mem_cons]
    exact ⟨trivial, trivial, fun _ => congrArg Ed25519.publicKey hseed, trivial, trivial,
      fun _ ha => absurd ha List.not_mem_nil⟩
  exact ⟨by decide, hchange, (told_of_keys oneKey oneKeyForChange askAndSign hchange).1⟩

end Session

end Countersign
