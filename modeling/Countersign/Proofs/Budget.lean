import Countersign.Proofs.Change
import Countersign.Proofs.Invariants
import Countersign.Proofs.Safety

/-!
# Every request comes to an end

Counts and lengths come with the bytes and may be as large as 2^64 − 1, so neither the loop over the
keys of unlock conditions nor the loop of a request has a bound of its own. Here both loops are
given a budget of passes, and come to nothing (`none`) when it is used up. Small budgets are always
enough:

* a key has 24 bytes or more, so no more keys can be passed over than the unread bytes have room
  for, and then one is not complete (`run_timesWithin`);
* a step drops a byte, or goes on to the next section, or ends the request (`progresses_of_steps`),
  so a request takes no more steps than there are bytes held and sections to come (`nextWithin_eq`);
* an element has a byte of its own, so a decoder that is asked again and again gives no more
  elements than it holds bytes, and then another answer (`exists_requests`).
-/

namespace Countersign

/-! ## Passes over keys -/

namespace Reader

variable {α β : Type}

/-- Reads the same thing `n` times and keeps nothing of it; `none` if that takes more passes than
there are in the budget. -/
def timesWithin (budget n : Nat) (r : Reader Unit) : Reader (Option Unit) :=
  match n, budget with
  | 0, _ => done (some ())
  | _ + 1, 0 => done none
  | n + 1, budget + 1 => r.bind fun _ => timesWithin budget n r

/-- The conditions that unlock an output, with a budget for the public keys. -/
def unlockConditionsWithin (budget : Nat) : Reader (Option Unit) := do
  skip 8
  let keys ← word
  match ← timesWithin budget keys.toNat unlockKey with
  | none => done none
  | some () => some <$> skip 8

/-- The value is not complete before `k` bytes have been read. -/
def Needs (k : Nat) : Reader α → Prop
  | done _ => k = 0
  | refuse _ => True
  | take n next => ∀ x, (next x).Needs (k - n)

/-- What a reader needs is no longer unread. -/
theorem unreadLength_run {r : Reader α} {k : Nat} (hr : r.Needs k) {b rest : Buffer} {a : α}
    (h : r.run b = .complete a rest) : k + rest.unreadLength ≤ b.unreadLength := by
  induction r generalizing k b with
  | done a' =>
    cases h
    have hk : k = 0 := hr
    omega
  | refuse e => cases h
  | take n next ih =>
    unfold run at h
    split at h
    · cases h
    · next x b' hx =>
      have hrest := ih x (hr x) h
      have hstep := Buffer.length_take hx
      simp only [Buffer.unreadLength] at hrest hstep ⊢
      omega

/-- A key has the name of its algorithm and the length of its bytes. -/
theorem needs_unlockKey : unlockKey.Needs 24 := by
  intro name length bytes
  show 24 - 16 - 8 - _ = 0
  omega

theorem run_bind (r : Reader α) (f : α → Reader β) (b : Buffer) :
    (r >>= f).run b = match r.run b with
      | .complete a rest => (f a).run rest
      | .short => .short
      | .refused e => .refused e := by
  rw [bind_eq]
  induction r generalizing b with
  | done a => rfl
  | refuse e => rfl
  | take n next ih =>
    simp only [bind, run]
    rcases b.take n with _ | ⟨x, rest⟩
    · rfl
    · exact ih x rest

theorem run_map (f : α → β) (r : Reader α) (b : Buffer) :
    (f <$> r).run b = match r.run b with
      | .complete a rest => .complete (f a) rest
      | .short => .short
      | .refused e => .refused e :=
  run_bind r (fun a => done (f a)) b

/-- As many passes are enough as there is room for in the unread bytes, and one more that finds too
few of them. -/
theorem run_timesWithin {r : Reader Unit} {k : Nat} (hr : r.Needs k) {budget : Nat} {b : Buffer}
    (h : b.unreadLength < k * budget) (n : Nat) :
    (timesWithin budget n r).run b = (some <$> times n r).run b := by
  induction n generalizing budget b with
  | zero => cases budget <;> rfl
  | succ n ih =>
    rcases budget with _ | budget
    · omega
    · rw [timesWithin, ← bind_eq, run_bind, run_map, times, ← bind_eq, run_bind]
      rcases hrun : r.run b with ⟨a, rest⟩ | _ | e
      · -- a pass that is complete has used up one of the budget and `k` of the bytes
        have hunread := unreadLength_run hr hrun
        rw [Nat.mul_succ] at h
        exact (ih (by omega)).trans (run_map _ _ _)
      · rfl
      · rfl

theorem run_take_congr {n : Nat} {next next' : Block n → Reader α} {b : Buffer}
    (h : ∀ x rest, b.take n = some (x, rest) → (next x).run rest = (next' x).run rest) :
    (take n next).run b = (take n next').run b := by
  rw [run, run]
  rcases htake : b.take n with _ | ⟨x, rest⟩
  · rfl
  · exact h x rest htake

theorem unreadLength_take {n : Nat} {b rest : Buffer} {x : Block n}
    (h : b.take n = some (x, rest)) : rest.unreadLength ≤ b.unreadLength := by
  have hstep := Buffer.length_take h
  simp only [Buffer.unreadLength]
  omega

/-- However many keys there are said to be, unlock conditions are read in no more passes than the
unread bytes have room for, and one. -/
theorem run_unlockConditionsWithin {budget : Nat} {b : Buffer}
    (h : b.unreadLength < 24 * budget) :
    (unlockConditionsWithin budget).run b = (some <$> unlockConditions).run b := by
  refine run_take_congr fun timelock b₁ h₁ => run_take_congr fun keys b₂ h₂ => ?_
  have hle := Nat.le_trans (unreadLength_take h₂) (unreadLength_take h₁)
  have hpasses := run_timesWithin needs_unlockKey (Nat.lt_of_le_of_lt hle h)
    (wordOfBytes keys.bytes).toNat
  show (timesWithin budget (wordOfBytes keys.bytes).toNat unlockKey >>= _).run b₂ =
    (some <$> (times (wordOfBytes keys.bytes).toNat unlockKey >>= fun _ => skip 8)).run b₂
  rw [run_bind, hpasses, run_map, run_map, run_bind]
  rcases (times (wordOfBytes keys.bytes).toNat unlockKey).run b₂ with ⟨a, rest⟩ | _ | e
  · exact run_map _ _ _
  · rfl
  · rfl

end Reader

/-! ## Steps of a request -/

namespace Decoder

variable {S : Type} [Layout S] {d d' : Decoder S}

/-- The answer to a request, if it takes no more steps than there are in the budget. -/
def nextWithin (budget : Nat) (d : Decoder S) :
    Option (Except DecodeError Finding × Decoder S) :=
  match budget with
  | 0 => none
  | budget + 1 =>
    match d.outcome with
    | some (.error e) => some (.error e, d)
    | some (.ok hash) => some (.ok (.finished hash), d)
    | none =>
      match d.step with
      | .hidden d' => nextWithin budget d'
      | .shows e d' => some (.ok (.element e), d')
      | .ends hash d' => some (.ok (.finished hash), { d' with outcome := some (.ok hash) })
      | .waits =>
        if d.buffer.rewind.isFull then
          some ({ d with buffer := d.buffer.rewind }.fail .bufferExhausted)
        else some (.ok .needsMore, { d with buffer := d.buffer.rewind })
      | .fails e => some (d.fail e)

/-- A step gets further: it drops at least one of the bytes held, or goes on to the next section, or
it ends the request. -/
def Step.Progresses (d : Decoder S) : Step S → Prop
  | .hidden d' =>
    (d'.place = d.place ∧ d'.buffer.length < d.buffer.length) ∨
      (Layout.next? d.place = some d'.place ∧ d'.buffer.length ≤ d.buffer.length)
  | .shows _ d' => d'.place = d.place ∧ d'.buffer.length < d.buffer.length
  | .ends _ _ | .waits | .fails _ => True

/-- No entry is empty. -/
theorem length_discard_lt {entry : Entry} {rest : Buffer}
    (h : (Layout.entry d.sigIndex d.place d.index).run d.buffer = .complete entry rest) :
    rest.discard.length < d.buffer.length := by
  have hread := Reader.offset_run_lt (Layout.reads_entry _ _ _) h
  have hlength := (Reader.length_run h).1
  rw [Buffer.length_discard]
  omega

theorem progresses_of_steps {s : Step S} (h : d.Steps s) : s.Progresses d := by
  cases h with
  | enters _ hnext hrun _ =>
    -- a header may be empty, but a section comes with it
    have hlength := (Reader.length_run hrun).1
    refine Or.inr ⟨hnext, ?_⟩
    dsimp only
    rw [Buffer.length_discard]
    omega
  | passes _ hrun _ => exact Or.inl ⟨rfl, length_discard_lt hrun⟩
  | shows _ hrun _ _ => exact ⟨rfl, length_discard_lt hrun⟩
  | ends => trivial
  | waits => trivial
  | fails => trivial

theorem nextWithin_of_step (hd : d.outcome = none) (budget : Nat) :
    d.nextWithin (budget + 1) = match d.step with
      | .hidden d' => d'.nextWithin budget
      | .shows e d' => some (.ok (.element e), d')
      | .ends hash d' => some (.ok (.finished hash), { d' with outcome := some (.ok hash) })
      | .waits =>
        if d.buffer.rewind.isFull then
          some ({ d with buffer := d.buffer.rewind }.fail .bufferExhausted)
        else some (.ok .needsMore, { d with buffer := d.buffer.rewind })
      | .fails e => some (d.fail e) := by
  rw [nextWithin]
  split
  · next hended =>
    rw [hd] at hended
    cases hended
  · next hended =>
    rw [hd] at hended
    cases hended
  · rfl

/-- A request takes no more steps than there are bytes held and sections to come, and one that ends
it. -/
theorem nextWithin_eq {budget : Nat} (h : d.measure < budget) :
    d.nextWithin budget = some d.next := by
  induction budget generalizing d with
  | zero => omega
  | succ budget ih =>
    rcases houtcome : d.outcome with _ | e | hash
    · rw [nextWithin_of_step houtcome, next_of_step houtcome]
      rcases hstep : d.step with d' | ⟨e, d'⟩ | ⟨hash, d'⟩ | _ | e
      · -- what is left behind is smaller, so the rest of the budget is enough for it
        have hless : d'.measure < d.measure := measure_step (by rw [hstep]; rfl)
        exact ih (by omega)
      · rfl
      · rfl
      · dsimp only
        split <;> rfl
      · rfl
    · rw [nextWithin, houtcome, next_of_outcome houtcome]
      rfl
    · rw [nextWithin, houtcome, next_of_outcome houtcome]
      rfl

/-! ## Requests one after the other -/

/-- An element is read off bytes that were held. -/
theorem length_next {e : Element} (h : d.next = (.ok (.element e), d')) :
    d'.buffer.length < d.buffer.length := by
  have hstep := progresses_of_steps (steps_step d)
  fun_induction next d with
  | case1 => cases h
  | case2 => cases h
  | case3 d _ d₁ heq ih =>
    rw [heq] at hstep
    have hrest := ih h (progresses_of_steps (steps_step d₁))
    rcases hstep with ⟨-, hlength⟩ | ⟨-, hlength⟩ <;> omega
  | case4 d _ e₁ d₁ heq =>
    rw [heq] at hstep
    cases h
    exact hstep.2
  | case5 => cases h
  | case6 => cases h
  | case7 => cases h
  | case8 => cases h

/-- A decoder that is asked again and again gives no more elements than it holds bytes, and then
another answer. -/
theorem exists_requests (d : Decoder S) :
    ∃ (es : List Element) (r : Except DecodeError Finding) (d' : Decoder S),
      es.length ≤ d.buffer.length ∧ (∀ e, r ≠ .ok (.element e)) ∧
      d.observe (List.replicate (es.length + 1) .next) =
        (es.map (fun e => .found (.ok (.element e))) ++ [.found r], d') := by
  fun_induction drain d with
  | case1 d e d' hnext es r d'' hdrain ih =>
    obtain ⟨es, r, d'', hlength, hlast, hobserve⟩ := ih
    have hless := length_next hnext
    refine ⟨e :: es, r, d'', by rw [List.length_cons]; omega, hlast, ?_⟩
    rw [List.length_cons, List.replicate_succ, observe, call, hnext]
    dsimp only
    rw [hobserve, List.map_cons, List.cons_append]
  | case2 d r d' hother hnext =>
    refine ⟨[], r, d', Nat.zero_le _, ?_, ?_⟩
    · rintro e rfl
      exact hother e rfl
    · rw [List.length_nil, List.replicate_succ, List.replicate_zero, observe, call, hnext]
      rfl

/-- Asking a decoder comes to an end. -/
structure Returns (d : Decoder S) : Prop where
  /-- A step of a request gets further, or is its last. -/
  progresses : d.step.Progresses d
  /-- One request takes as many steps as there are bytes held and sections to come, and one. -/
  request : ∀ budget, d.buffer.length + Layout.depth d.place < budget →
    d.nextWithin budget = some d.next
  /-- Many requests come to an answer that is no element after as many elements as there are bytes
  held. -/
  requests : ∃ (es : List Element) (r : Except DecodeError Finding) (d' : Decoder S),
    es.length ≤ d.buffer.length ∧ (∀ e, r ≠ .ok (.element e)) ∧
    d.observe (List.replicate (es.length + 1) .next) =
      (es.map (fun e => .found (.ok (.element e))) ++ [.found r], d')

theorem returns (d : Decoder S) : d.Returns :=
  ⟨progresses_of_steps (steps_step d), fun _ => nextWithin_eq, exists_requests d⟩

/-! ## Decoders that have come about by calls -/

theorem sound_observe [Layout.Bare S] (hd : d.Sound) (cs : List Call) :
    (d.observe cs).2.Sound := by
  induction cs generalizing d with
  | nil => exact hd
  | cons c cs ih => exact ih (sound_call hd c)

theorem length_le_of_reachable [Layout.Bare S] (hd : d.Reachable) : d.buffer.length ≤ 510 := by
  obtain ⟨sigIndex, change, calls, rfl⟩ := hd
  exact (sound_observe (sound_new sigIndex change) calls).length_le

end Decoder

theorem V1.depth_le (s : V1.Section) : Layout.depth s ≤ 10 := by
  cases s <;> decide

theorem V2.depth_le (s : V2.Section) : Layout.depth s ≤ 11 := by
  cases s <;> decide

/-- Whatever the bytes say, a request to a decoder of either format is answered: within 521 or 522
steps in every state that calls can bring about, and within as many as there are bytes held and
sections to come in any other. The keys of unlock conditions, however many there are said to be, are
passed over as often as the unread bytes have room for, and only bytes that are held are read. -/
theorem every_request_returns :
    (∀ d : Decoder V1.Section, d.Returns ∧ (d.Reachable → d.nextWithin 521 = some d.next)) ∧
    (∀ d : Decoder V2.Section, d.Returns ∧ (d.Reachable → d.nextWithin 522 = some d.next)) ∧
    ∀ b : Buffer, b.Valid →
      (Reader.unlockConditionsWithin (b.unreadLength / 24 + 1)).run b =
        (some <$> Reader.unlockConditions).run b ∧
      ∀ rest, Reader.unlockConditions.run b = .complete () rest →
        rest.length = b.length ∧ rest.offset ≤ b.length := by
  refine ⟨fun d => ⟨d.returns, fun hd => ?_⟩, fun d => ⟨d.returns, fun hd => ?_⟩,
    fun b hb => ⟨?_, fun rest hrun => ?_⟩⟩
  · have hlength := Decoder.length_le_of_reachable hd
    have hdepth := V1.depth_le d.place
    exact d.returns.request 521 (by omega)
  · have hlength := Decoder.length_le_of_reachable hd
    have hdepth := V2.depth_le d.place
    exact d.returns.request 522 (by omega)
  · exact Reader.run_unlockConditionsWithin (by omega)
  · obtain ⟨hrest, -, hlength⟩ := Reader.run_keeps hb hrun
    exact ⟨hlength, hlength ▸ hrest.offset_le⟩

/-- A request is answered when there are said to be as many inputs as can be counted, and as many
keys in the first of them. -/
theorem countlessInputs_returns :
    let d := ((Decoder.new 0 none : Decoder V1.Section).observe V1.countlessInputs).2
    d.Reachable ∧ d.buffer.Valid ∧ d.nextWithin 521 = some d.next ∧
      (Reader.unlockConditionsWithin (d.buffer.unreadLength / 24 + 1)).run d.buffer =
        (some <$> Reader.unlockConditions).run d.buffer := by
  intro d
  have hd : d.Reachable := ⟨0, none, V1.countlessInputs, rfl⟩
  have hsound : d.Sound := Decoder.sound_observe (Decoder.sound_new 0 none) V1.countlessInputs
  have hvalid : d.buffer.Valid := hsound.valid
  exact ⟨hd, hvalid, (every_request_returns.1 d).2 hd,
    (every_request_returns.2.2 d.buffer hvalid).1⟩

end Countersign
