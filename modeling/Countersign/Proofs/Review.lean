import Countersign.Proofs.EitherFormat
import Countersign.Signer.Run

/-!
# What is reviewed is what is signed

A `Submission` is what the host has handed in of a transaction, read off the actions of a run and
what they gave. The invariant `Session.Tracks` says that the review at hand is that of the last
submission:

* while data come in, whatever follows them comes to the same elements and the same result for the
  review as for a new decoder that is given all of it;
* once a hash waits for the user, a new decoder that is given the data comes to this hash and to the
  elements of the review.

Every action keeps it (`tracks_act`), so every run does (`tracks_run`). No element is lost on the
way, since a review that has no room for one is ended. The elements that the user does not see are
the outputs to one address, which a submission spells out from the keys, and a session has the same
(`changeAddress_eq`).
-/

namespace Countersign

/-! ## Submissions -/

/-- A transaction as the host has handed it in so far. -/
structure Submission where
  keyIndex : UInt32
  sigIndex : UInt16
  changeIndex : UInt32
  flags : Flags
  /-- The data that were taken. -/
  data : Bytes

namespace Submission

/-- The submission after an action. A start begins a new one, without data if they were too long; a
further part that is not refused adds its data. -/
def note (x : Option Submission) (a : Action) (r : Result) : Option Submission :=
  match a, r with
  | .event (.start keyIndex sigIndex changeIndex flags _), .error .invalidLength =>
    some ⟨keyIndex, sigIndex, changeIndex, flags, []⟩
  | .event (.start keyIndex sigIndex changeIndex flags data), _ =>
    some ⟨keyIndex, sigIndex, changeIndex, flags, data⟩
  | .event (.more _ data), .ok _ => x.map fun x => { x with data := x.data ++ data }
  | _, _ => x

/-- The submission after some actions. -/
def noteAll (x : Option Submission) (log : List (Action × Result)) : Option Submission :=
  log.foldl (fun x entry => note x entry.1 entry.2) x

/-- The last submission of a run. -/
def last? (keys : KeySource) (actions : List Action) : Option Submission :=
  noteAll none (actions.zip ((Session.new keys).run actions).1)

/-- The address whose outputs are change: the standard address of the key with the change index, if
the host has named one. -/
def change (keys : KeySource) (x : Submission) : Option Address :=
  if x.changeIndex = noChange then none
  else some (Address.ofPublicKey (keys.publicKey x.changeIndex))

/-- A new decoder for the transaction. -/
def decoder (keys : KeySource) (x : Submission) : AnyDecoder :=
  AnyDecoder.new x.flags.format x.sigIndex (x.change keys)

end Submission

/-! ## Reviews -/

namespace Review

/-- The elements and the result that a review comes to when the bytes `more` follow. -/
def outlook (r : Review) (more : Bytes) : List Element × Except DecodeError Finding :=
  (r.elements ++ (r.decoder.outlook more).1, (r.decoder.outlook more).2)

/-- What a review that is given a chunk answers is the beginning of its outlook, and the outlook of
the review that it leaves is the rest. -/
def Takes (r : Review) (chunk : Bytes) : Except Refusal Bool × Review → Prop
  | (.ok true, r') =>
    r'.keyIndex = r.keyIndex ∧ r'.flags = r.flags ∧ ∃ hash, r'.hash = some hash ∧
      ∀ more, r.outlook (chunk ++ more) = (r'.elements, .ok (.finished hash))
  | (.ok false, r') =>
    r'.keyIndex = r.keyIndex ∧ r'.flags = r.flags ∧ r'.hash = r.hash ∧ r'.decoder.Live ∧
      ∀ more, r.outlook (chunk ++ more) = r'.outlook more
  | (.error e, _) => e ≠ .invalidLength

/-- A review that differs in what it has taken already gets the same answer. -/
theorem takes_of_moved {r r' : Review} {chunk chunk' : Bytes}
    {answer : Except Refusal Bool × Review} (h : r'.Takes chunk' answer)
    (hkey : r'.keyIndex = r.keyIndex) (hflags : r'.flags = r.flags) (hhash : r'.hash = r.hash)
    (hmoved : ∀ more, r.outlook (chunk ++ more) = r'.outlook (chunk' ++ more)) :
    r.Takes chunk answer := by
  rcases answer with ⟨_ | _ | _, r''⟩
  · exact h
  · obtain ⟨hkey', hflags', hhash', hlive, hrest⟩ := h
    exact ⟨hkey'.trans hkey, hflags'.trans hflags, hhash'.trans hhash, hlive,
      fun more => (hmoved more).trans (hrest more)⟩
  · obtain ⟨hkey', hflags', hash, hhash', hrest⟩ := h
    exact ⟨hkey'.trans hkey, hflags'.trans hflags, hash, hhash',
      fun more => (hmoved more).trans (hrest more)⟩

/-- A review takes all elements that are complete, or is refused. -/
theorem takes_drain {r : Review} (hr : r.decoder.Live) : r.Takes [] r.drain := by
  have hanswer := AnyDecoder.foretells_next hr
  fun_induction drain r with
  | case1 r e decoder hnext =>
    intro h
    cases h
  | case2 r decoder hnext =>
    rw [hnext] at hanswer
    refine ⟨rfl, rfl, rfl, hanswer.1, fun more => ?_⟩
    rw [outlook, List.nil_append, hanswer.2]
    rfl
  | case3 r hash decoder hnext =>
    rw [hnext] at hanswer
    refine ⟨rfl, rfl, hash, rfl, fun more => ?_⟩
    rw [outlook, List.nil_append, hanswer, List.append_nil]
  | case4 r e decoder hnext hroom ih =>
    rw [hnext] at hanswer
    obtain ⟨hlive, hrest⟩ := hanswer
    refine takes_of_moved (ih hlive (AnyDecoder.foretells_next hlive)) rfl rfl rfl fun more => ?_
    -- the element goes from the outlook of the decoder to the elements of the review
    rw [outlook, List.nil_append, hrest, outlook, List.append_assoc]
    rfl
  | case5 r e decoder hnext hfull =>
    intro h
    cases h

theorem takes_push {r : Review} (hr : r.decoder.Live) (chunk : Bytes) :
    r.Takes chunk (r.push chunk) := by
  unfold push
  rcases hpush : r.decoder.push chunk with e | decoder
  · intro h
    cases h
  · obtain ⟨hlive, hfollows⟩ := AnyDecoder.outlook_push hr hpush
    have htakes : Takes { r with decoder } [] (drain { r with decoder }) := takes_drain hlive
    refine takes_of_moved htakes rfl rfl rfl fun more => ?_
    rw [outlook, hfollows]
    rfl

/-- The review is that of the submission: it comes to what a new decoder comes to. -/
structure Follows (keys : KeySource) (x : Submission) (state : State) (r : Review) : Prop where
  keyIndex_eq : r.keyIndex = x.keyIndex
  flags_eq : r.flags = x.flags
  hash_eq : match r.hash with
    | none => state = .decoding ∧ r.decoder.Live ∧
        ∀ more, (x.decoder keys).outlook (x.data ++ more) = r.outlook more
    | some hash => state = .pending ∧
        (x.decoder keys).outlook x.data = (r.elements, .ok (.finished hash))

end Review

/-! ## Sessions -/

namespace Session

variable {keys : KeySource} {x : Option Submission} {s : Session}

/-- The review at hand, if there is one, is that of the last submission. -/
structure Tracks (keys : KeySource) (x : Option Submission) (s : Session) : Prop where
  keys_eq : s.keys = keys
  review : ∀ r, s.operation = .review r → ∃ y, x = some y ∧ r.Follows keys y s.state

theorem tracks_new (keys : KeySource) : Tracks keys none (new keys) :=
  ⟨rfl, fun r hr => by cases hr⟩

/-- Without a review there is nothing to track. -/
theorem tracks_of_not_review (hkeys : s.keys = keys) (h : ∀ r, s.operation ≠ .review r) :
    Tracks keys x s :=
  ⟨hkeys, fun r hr => (h r hr).elim⟩

/-- A chunk for the review of a submission is added to the submission, or it is refused: then the
session stays as it is, or the review is over. -/
def Receives (keys : KeySource) (y : Submission) (flags : Flags) (chunk : Bytes) :
    Except Refusal Reply × Session → Prop
  | (.ok _, s') => Tracks keys (some { y with data := y.data ++ chunk }) s'
  | (.error e, s') => Tracks keys (some y) s' ∧
      (y.flags = flags → e ≠ .invalidLength → s'.operation = .none)

theorem receives_receive {y : Submission} {r : Review} (hkeys : s.keys = keys)
    (hoperation : s.operation = .review r) (hstate : s.state = .decoding)
    (hr : r.Follows keys y .decoding) (flags : Flags) (chunk : Bytes) :
    Receives keys y flags chunk (s.receive flags chunk) := by
  have hsame : Tracks keys (some y) s := by
    refine ⟨hkeys, fun r' hr' => ⟨y, rfl, ?_⟩⟩
    rw [hoperation] at hr'
    cases hr'
    rw [hstate]
    exact hr
  have hopen : r.hash = none ∧ r.decoder.Live ∧
      ∀ more, (y.decoder keys).outlook (y.data ++ more) = r.outlook more := by
    have hhash := hr.hash_eq
    rcases hnone : r.hash with _ | hash
    · rw [hnone] at hhash
      exact ⟨rfl, hhash.2⟩
    · rw [hnone] at hhash
      cases hhash.1
  obtain ⟨hnone, hlive, houtlook⟩ := hopen
  rw [receive, hoperation]
  dsimp only
  by_cases hflags : r.flags ≠ flags
  · rw [if_pos hflags]
    exact ⟨hsame, fun heq => absurd (hr.flags_eq.trans heq) hflags⟩
  rw [if_neg hflags]
  by_cases hlong : chunk.length > maxChunk
  · rw [if_pos hlong]
    exact ⟨hsame, fun _ hne => absurd rfl hne⟩
  rw [if_neg hlong]
  have htakes := Review.takes_push hlive chunk
  generalize r.push chunk = answer at htakes
  rcases answer with ⟨e | _ | _, r'⟩
  · exact ⟨tracks_of_not_review hkeys (fun _ h => by cases h), fun _ _ => rfl⟩
  · -- more data are needed, and the review goes on
    obtain ⟨hkey, hflags, hhash, hlive', hrest⟩ := htakes
    refine ⟨hkeys, fun r'' hr'' => ⟨_, rfl, ?_⟩⟩
    cases hr''
    refine ⟨hkey.trans hr.keyIndex_eq, hflags.trans hr.flags_eq, ?_⟩
    rw [hhash, hnone]
    refine ⟨hstate, hlive', fun more => ?_⟩
    show (y.decoder keys).outlook (y.data ++ chunk ++ more) = _
    rw [List.append_assoc, houtlook, hrest]
  · -- the hash is there, and the user is asked
    obtain ⟨hkey, hflags, hash, hhash, hrest⟩ := htakes
    refine ⟨hkeys, fun r'' hr'' => ⟨_, rfl, ?_⟩⟩
    cases hr''
    refine ⟨hkey.trans hr.keyIndex_eq, hflags.trans hr.flags_eq, ?_⟩
    rw [hhash]
    refine ⟨rfl, ?_⟩
    show (y.decoder keys).outlook (y.data ++ chunk) = _
    rw [houtlook, ← List.append_nil chunk, hrest]

/-- A session hides the outputs to the address that the submission says. -/
theorem changeAddress_eq (hkeys : s.keys = keys) (y : Submission) :
    s.changeAddress y.changeIndex = y.change keys := by
  rw [← hkeys]
  rfl

/-- The review of a new submission is that of the submission. -/
theorem follows_new (hkeys : s.keys = keys) (keyIndex : UInt32) (sigIndex : UInt16)
    (changeIndex : UInt32) (flags : Flags) :
    (Review.new keyIndex sigIndex (s.changeAddress changeIndex) flags).Follows keys
      ⟨keyIndex, sigIndex, changeIndex, flags, []⟩ .decoding := by
  let y : Submission := ⟨keyIndex, sigIndex, changeIndex, flags, []⟩
  have hchange : s.changeAddress changeIndex = y.change keys := changeAddress_eq hkeys y
  rw [hchange]
  exact ⟨rfl, rfl, rfl, AnyDecoder.live_new _ _ _, fun _ => rfl⟩

/-- The session in which the first data of a transaction are received. -/
def started (s : Session) (keyIndex : UInt32) (sigIndex : UInt16) (changeIndex : UInt32)
    (flags : Flags) : Session :=
  { s with
    state := .decoding,
    operation := .review (Review.new keyIndex sigIndex (s.changeAddress changeIndex) flags) }

theorem act_start {keyIndex : UInt32} {sigIndex : UInt16} {changeIndex : UInt32} {flags : Flags}
    {data : Bytes} (h : ¬ s.isReviewing = true) :
    s.act (.event (.start keyIndex sigIndex changeIndex flags data)) =
      (((s.started keyIndex sigIndex changeIndex flags).receive flags data).1.map some,
        ((s.started keyIndex sigIndex changeIndex flags).receive flags data).2) := by
  rw [act, handle, if_neg h]
  rfl

/-- A start drops what is going on, or begins a new submission. -/
theorem tracks_start (h : Tracks keys x s) (keyIndex : UInt32) (sigIndex : UInt16)
    (changeIndex : UInt32) (flags : Flags) (data : Bytes) :
    Tracks keys
      (Submission.note x (.event (.start keyIndex sigIndex changeIndex flags data))
        (s.act (.event (.start keyIndex sigIndex changeIndex flags data))).1)
      (s.act (.event (.start keyIndex sigIndex changeIndex flags data))).2 := by
  by_cases hbusy : s.isReviewing = true
  · rw [act, handle, if_pos hbusy]
    -- a review at hand is dropped, and the new one does not begin
    exact tracks_of_not_review h.keys_eq fun _ hr => by cases hr
  · have hfollows := follows_new h.keys_eq keyIndex sigIndex changeIndex flags
    have hkeys : (s.started keyIndex sigIndex changeIndex flags).keys = keys := h.keys_eq
    have hreceives := receives_receive hkeys rfl rfl hfollows flags data
    rw [act_start hbusy]
    generalize (s.started keyIndex sigIndex changeIndex flags).receive flags data = answer
      at hreceives
    rcases answer with ⟨e | reply, s'⟩
    · by_cases he : e = .invalidLength
      · -- the review has begun without data
        rw [he]
        exact hreceives.1
      · -- the data were refused, and the review is over
        have hnone : s'.operation = .none := hreceives.2 rfl he
        exact tracks_of_not_review hreceives.1.keys_eq fun _ hr => by rw [hnone] at hr; cases hr
    · exact hreceives

/-- A further part is added to the submission, or nothing is. -/
theorem tracks_more (h : Tracks keys x s) (flags : Flags) (data : Bytes) :
    Tracks keys
      (Submission.note x (.event (.more flags data)) (s.act (.event (.more flags data))).1)
      (s.act (.event (.more flags data))).2 := by
  -- only a review that is still decoding takes data; anything else is refused and stays
  rw [act, handle]
  by_cases hstate : s.state = .decoding
  · rw [if_pos hstate]
    rcases hoperation : s.operation with _ | r | ⟨keyIndex, hash⟩
    · rw [receive, hoperation]
      exact h
    · obtain ⟨y, rfl, hfollows⟩ := h.review r hoperation
      rw [hstate] at hfollows
      have hreceives := receives_receive h.keys_eq hoperation hstate hfollows flags data
      generalize s.receive flags data = answer at hreceives
      rcases answer with ⟨e | reply, s'⟩
      · exact hreceives.1
      · exact hreceives
    · rw [receive, hoperation]
      exact h
  · rw [if_neg hstate]
    exact h

/-- Every action keeps the review with the submission. -/
theorem tracks_act (h : Tracks keys x s) (a : Action) :
    Tracks keys (Submission.note x a (s.act a).1) (s.act a).2 := by
  -- approval, denial and reset leave no review
  have hdropped : ∀ state, Tracks keys x (s.finish state) := by
    intro state
    have hnone : ∀ r, (s.finish state).operation ≠ .review r := by
      intro r hr
      cases hr
    exact tracks_of_not_review h.keys_eq hnone
  rcases a with e | _ | _ | _ | _ | _
  · rcases e with _ | _ | ⟨keyIndex, display⟩ | ⟨keyIndex, hash⟩ |
      ⟨keyIndex, sigIndex, changeIndex, flags, data⟩ | ⟨flags, data⟩
    · exact h
    · show Tracks keys x (s.handle .getVersion).2
      rw [handle]
      split <;> exact h
    · show Tracks keys x (s.handle (.getPublicKey keyIndex display)).2
      rw [handle]
      split <;> exact h
    · show Tracks keys x (s.handle (.signHash keyIndex hash)).2
      rw [handle]
      split
      · exact h
      · exact tracks_of_not_review h.keys_eq fun _ hr => by cases hr
    · exact tracks_start h keyIndex sigIndex changeIndex flags data
    · exact tracks_more h flags data
  · show Tracks keys x s.approve.2
    unfold approve
    split
    · exact h
    · exact hdropped .complete
  · exact hdropped .deny
  · exact hdropped .init
  · exact ⟨h.keys_eq, h.review⟩
  · exact ⟨h.keys_eq, h.review⟩

/-- Every run keeps the review with the submission. -/
theorem tracks_run (h : Tracks keys x s) (actions : List Action) :
    Tracks keys (Submission.noteAll x (actions.zip (s.run actions).1)) (s.run actions).2 := by
  -- one action moves both the session and the submission
  induction actions generalizing x s with
  | nil => exact h
  | cons a actions ih => exact ih (tracks_act h a)

/-! ## What is pending -/

/-- The hash that waits for the user belongs to the transaction that the host has submitted last,
under its key and for its purpose. A decoder that is given the submitted data, in whatever way,
comes to this hash and shows the elements that the user reviews. The data begin with a transaction;
the hash is that of its covered bytes, and the elements are all its payments but those to the change
address. -/
theorem pending_of_submission (keys : KeySource) (actions : List Action) (p : Offer)
    (hpending : ((new keys).run actions).2.pending = some p)
    (hreview : ((new keys).run actions).2.operation.review?.isSome = true) :
    ∃ y, Submission.last? keys actions = some y ∧ p.keyIndex = y.keyIndex ∧ p.sign = y.flags.sign ∧
      (∃ calls, (y.decoder keys).IsSchedule y.data calls) ∧
      (∀ calls, (y.decoder keys).IsSchedule y.data calls →
        elementsSeen ((y.decoder keys).observe calls).1 = ((new keys).run actions).2.elements ∧
        lastFinding ((y.decoder keys).observe calls).1 = some (.ok (.finished p.hash))) ∧
      ∃ (t : AnyTransaction) (rest : Bytes), t.format = y.flags.format ∧ t.Fits ∧
        t.HasSignature y.sigIndex.toNat ∧ y.data = t.encode ++ rest ∧
        p.hash = Blake2b.digest (t.covered y.sigIndex.toNat) ∧
        ((new keys).run actions).2.elements.map Element.payment =
          t.payments.filter fun payment => payment.IsShown (y.change keys) := by
  have htracks : Tracks keys (Submission.last? keys actions) ((new keys).run actions).2 :=
    tracks_run (tracks_new keys) actions
  generalize ((new keys).run actions).2 = s at htracks hpending hreview
  rcases hoperation : s.operation with _ | r | ⟨keyIndex, hash⟩
  · rw [hoperation] at hreview
    cases hreview
  · obtain ⟨y, hlast, hkey, hflags, hhash⟩ := htracks.review r hoperation
    have hstate : s.state = .pending := by
      rw [pending] at hpending
      split at hpending
      · next heq => exact heq
      · cases hpending
    have hoffer : r.hash.map (fun hash => (⟨r.keyIndex, hash, r.flags.sign⟩ : Offer)) = some p := by
      rw [pending, hstate, hoperation] at hpending
      exact hpending
    obtain ⟨hash, hsome, rfl⟩ := Option.map_eq_some_iff.1 hoffer
    rw [hsome] at hhash
    have helements : s.elements = r.elements := by
      rw [elements, hoperation]
      rfl
    -- all data are there, so the outlook is what any schedule over them sees
    have hlive : (y.decoder keys).Live := AnyDecoder.live_new _ _ _
    obtain ⟨t, rest, hformat, ht, hindex, hdata, hes, hdigest⟩ :=
      AnyDecoder.outlook_new_iff.1 hhash.2
    refine ⟨y, hlast, hkey, congrArg Flags.sign hflags, AnyDecoder.exists_schedule hlive y.data,
      ?_, t, rest, hformat, ht, hindex, hdata, hdigest, ?_⟩
    · intro calls hcalls
      obtain ⟨hseen, hfound⟩ := AnyDecoder.outlook_of_isSchedule hlive hcalls
      rw [hhash.2] at hseen hfound
      exact ⟨hseen.trans helements.symm, hfound⟩
    · rw [helements, hes]
      exact t.map_payment_elements _
  · rw [hoperation] at hreview
    cases hreview

/-- Keys that are all the same. -/
def oneKey : KeySource := ⟨fun _ => Block.zero 32⟩

/-- A transaction with an output, its change to the key 1, and a fee. -/
def withChange : V2.Transaction :=
  let change : SiacoinOutput := ⟨⟨[9], by decide⟩, Address.ofPublicKey (oneKey.publicKey 1)⟩
  { V2.onePaid with siacoinOutputs := V2.onePaid.siacoinOutputs ++ [change] }

/-- The transaction in two parts, with a part for another purpose in between. -/
def payWithChange : List Action :=
  [.unlock, .event (.start 7 0 1 ⟨true, true⟩ (withChange.encode.take 57)),
   .event (.more ⟨false, true⟩ [1]), .event (.more ⟨true, true⟩ (withChange.encode.drop 57))]

/-- The user reviews the output and the fee; the change is left out. -/
theorem pending_payWithChange :
    ∃ p y, ((new oneKey).run payWithChange).2.pending = some p ∧
      Submission.last? oneKey payWithChange = some y ∧ p.keyIndex = y.keyIndex ∧
      p.sign = y.flags.sign ∧
      y.change oneKey = some (Address.ofPublicKey (oneKey.publicKey 1)) ∧
      ((new oneKey).run payWithChange).2.elements =
        [⟨.siacoinOutput, 1, "6", some ⟨Block.zero 32⟩⟩, ⟨.minerFee, 1, "256", none⟩] := by
  -- the run is evaluated once for all that is needed of it
  have hrun : ((new oneKey).run payWithChange).2.elements =
        [⟨.siacoinOutput, 1, "6", some ⟨Block.zero 32⟩⟩, ⟨.minerFee, 1, "256", none⟩] ∧
      ((new oneKey).run payWithChange).2.pending.isSome = true ∧
      ((new oneKey).run payWithChange).2.operation.review?.isSome = true ∧
      (Submission.last? oneKey payWithChange).map Submission.changeIndex = some 1 := by
    decide +kernel
  obtain ⟨helements, hsome, hreview, hindex⟩ := hrun
  obtain ⟨p, hpending⟩ := Option.isSome_iff_exists.1 hsome
  obtain ⟨y, hlast, hkey, hsign, -⟩ :=
    pending_of_submission oneKey payWithChange p hpending hreview
  rw [hlast] at hindex
  have hchange : y.change oneKey = some (Address.ofPublicKey (oneKey.publicKey 1)) := by
    rw [Submission.change, Option.some.inj hindex, if_neg (by decide)]
  exact ⟨p, y, hpending, hlast, hkey, hsign, hchange, helements⟩

end Session

end Countersign
