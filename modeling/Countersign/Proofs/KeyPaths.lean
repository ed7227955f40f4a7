import Countersign.Proofs.Amounts
import Countersign.Proofs.Requests
import Countersign.Proofs.TwoRuns

/-!
# Which key an index names

A key is found by its path, and in the path the index has the flag of a hardened step set, which is
its highest bit. So of an index only the 31 low bits count (`derivationPath_eq_iff`): two indices
name different keys unless they are equal in those, and 0 and 2^31 name the same one
(`same_key_for_two_indices`). Nothing on the way from a request to the keys looks at the highest
bit: requests with all indices are read, and what an action does depends on the keys at the indices
that the host has given, and on no other (`named_by_low_bits`).
-/

namespace Countersign

/-! ## Paths -/

/-- The flag of a hardened step takes the place of the highest bit. -/
theorem toNat_or_hardened (i : UInt32) : (i ||| hardened).toNat = 2 ^ 31 + i.toNat % 2 ^ 31 := by
  have hlow : i.toNat % 2 ^ 31 < 2 ^ 31 := Nat.mod_lt _ (by decide)
  have hflag : 2 ^ 31 ||| i.toNat % 2 ^ 31 = 2 ^ 31 + i.toNat % 2 ^ 31 :=
    (Nat.two_pow_add_eq_or_of_lt hlow 1).symm
  have hsize : i.toNat < 2 ^ 32 := i.toNat_lt
  rw [UInt32.toNat_or, show hardened.toNat = 2 ^ 31 from rfl]
  by_cases hhigh : i.toNat < 2 ^ 31
  · rw [Nat.or_comm, ← hflag, Nat.mod_eq_of_lt hhigh]
  · -- the highest bit is the flag itself
    have hi : i.toNat = 2 ^ 31 ||| i.toNat % 2 ^ 31 := by
      rw [hflag]
      omega
    rw [← hflag]
    conv_lhs => rw [hi, Nat.or_comm, ← Nat.or_assoc, Nat.or_self]

/-- The path of a key has the 31 low bits of its index, and nothing else of it. -/
theorem derivationPath_eq_iff {i j : UInt32} :
    derivationPath i = derivationPath j ↔ i.toNat % 2 ^ 31 = j.toNat % 2 ^ 31 := by
  have hstep : i ||| hardened = j ||| hardened ↔ i.toNat % 2 ^ 31 = j.toNat % 2 ^ 31 := by
    rw [← UInt32.toNat_inj, toNat_or_hardened, toNat_or_hardened]
    omega
  rw [← hstep, derivationPath, derivationPath]
  simp only [List.cons.injEq, true_and, and_true]

namespace KeySource

/-- The seeds at different paths of the wallet are different. -/
def Separates (keys : KeySource) : Prop :=
  ∀ i j, keys.seedAt (derivationPath i) = keys.seedAt (derivationPath j) →
    derivationPath i = derivationPath j

theorem seedAt_eq_iff {keys : KeySource} (h : keys.Separates) {i j : UInt32} :
    keys.seedAt (derivationPath i) = keys.seedAt (derivationPath j) ↔
      i.toNat % 2 ^ 31 = j.toNat % 2 ^ 31 :=
  ⟨fun hseed => derivationPath_eq_iff.1 (h i j hseed),
    fun hlow => congrArg keys.seedAt (derivationPath_eq_iff.2 hlow)⟩

/-- Both have the same seeds for the keys with these indices. -/
def AgreesOn (keys keys' : KeySource) (is : List UInt32) : Prop :=
  ∀ i ∈ is, keys.seedAt (derivationPath i) = keys'.seedAt (derivationPath i)

variable {keys keys' : KeySource} {i : UInt32} {is : List UInt32}

theorem publicKey_of_agreesOn (h : keys.AgreesOn keys' is) (hi : i ∈ is) :
    keys.publicKey i = keys'.publicKey i := congrArg Ed25519.publicKey (h i hi)

theorem sign_of_agreesOn (h : keys.AgreesOn keys' is) (hi : i ∈ is) (message : Bytes) :
    keys.sign i message = keys'.sign i message := by
  rw [sign, h i hi]
  rfl

end KeySource

/-! ## The keys that an action uses -/

namespace Session

variable {s s' : Session} {e : Event} {a : Action} {keys : KeySource}

/-- The indices of the keys that an action uses: the one asked for, the one for the change, and the
one that signs. -/
def keysUsed (s : Session) : Action → List UInt32
  | .event (.getPublicKey keyIndex _) => if s.unlocked then [keyIndex] else []
  | .event (.start _ _ changeIndex _ _) =>
    if s.isReviewing ∨ changeIndex = noChange then [] else [changeIndex]
  | .approve =>
    match s.pending with
    | some p => if p.sign then [p.keyIndex] else []
    | none => []
  | _ => []

theorem handle_of_agreesOn (h : s.keys.AgreesOn keys (s.keysUsed (.event e))) :
    (s.withKeys keys).handle e = ((s.handle e).1, (s.handle e).2.withKeys keys) := by
  by_cases hask : ∃ keyIndex display, e = .getPublicKey keyIndex display
  · obtain ⟨keyIndex, display, rfl⟩ := hask
    rw [handle, handle, unlocked_withKeys]
    by_cases hlock : s.unlocked = true
    · rw [keysUsed, if_pos hlock] at h
      rw [if_pos hlock, if_pos hlock]
      dsimp only
      rw [show (s.withKeys keys).keys = keys from rfl,
        KeySource.publicKey_of_agreesOn h (List.mem_singleton_self keyIndex)]
    · rw [if_neg hlock, if_neg hlock]
  · refine handle_withKeys_of_unasked s keys e
      (fun keyIndex display he => hask ⟨keyIndex, display, he⟩) fun hidle => ?_
    cases e with
    | start keyIndex sigIndex changeIndex flags data =>
      intro hindex
      rw [keysUsed, if_neg (by simp [hidle, hindex])] at h
      exact KeySource.publicKey_of_agreesOn h (List.mem_singleton_self changeIndex)
    | _ => trivial

theorem approve_of_agreesOn (h : s.keys.AgreesOn keys (s.keysUsed .approve)) :
    (s.withKeys keys).approve = (s.approve.1, s.approve.2.withKeys keys) := by
  rw [keysUsed] at h
  rw [approve, approve, pending_withKeys]
  rcases hpending : s.pending with _ | p
  · rfl
  · rw [hpending] at h
    dsimp only at h ⊢
    by_cases hsign : p.sign = true
    · rw [if_pos hsign] at h
      rw [if_pos hsign, if_pos hsign, show (s.withKeys keys).keys = keys from rfl,
        KeySource.sign_of_agreesOn h (List.mem_singleton_self p.keyIndex)]
      rfl
    · rw [if_neg hsign, if_neg hsign]
      rfl

/-- An action does and gives the same with other keys, if they have the same seeds for the keys that
it uses. -/
theorem act_of_agreesOn (h : s.keys.AgreesOn keys (s.keysUsed a)) :
    (s.withKeys keys).act a = ((s.act a).1, (s.act a).2.withKeys keys) := by
  cases a with
  | event e => rw [act, handle_of_agreesOn h, act]
  | approve => rw [act, approve_of_agreesOn h, act]
  | _ => rfl

end Session

/-! ## Where indices come from -/

/-- The indices of keys in an event. -/
def Event.keyIndices : Event → List UInt32
  | .getPublicKey keyIndex _ => [keyIndex]
  | .signHash keyIndex _ => [keyIndex]
  | .start keyIndex _ changeIndex _ _ => [keyIndex, changeIndex]
  | _ => []

/-- The indices of keys that the host gives in an action. -/
def Action.keyIndices : Action → List UInt32
  | .event e => e.keyIndices
  | _ => []

/-- The index of the key that an operation is for. -/
def Operation.keyIndices : Operation → List UInt32
  | .none => []
  | .review r => [r.keyIndex]
  | .signHash keyIndex _ => [keyIndex]

namespace Review

theorem keyIndex_drain (r : Review) : r.drain.2.keyIndex = r.keyIndex := by
  fun_induction drain r with
  | case4 r e decoder hnext hroom ih => exact ih
  | _ => rfl

theorem keyIndex_push (r : Review) (chunk : Bytes) : (r.push chunk).2.keyIndex = r.keyIndex := by
  rw [push]
  split
  · rfl
  · exact keyIndex_drain _

end Review

namespace Session

variable {s s' : Session} {e : Event} {a : Action} {r : Review}

theorem keyIndices_delivers {flags : Flags} {data : Bytes} {answer : Except Refusal Reply}
    (hreview : s.operation = .review r) (h : s.Delivers r flags data answer s') :
    s'.operation.keyIndices ⊆ [r.keyIndex] := by
  have hpush := r.keyIndex_push data
  cases h with
  | otherFlags | tooLong => rw [hreview]; exact List.Subset.refl _
  | completes heq | continues heq =>
    rw [heq] at hpush
    rw [← hpush]
    exact List.Subset.refl _
  | fails => exact List.nil_subset _

theorem keyIndices_moves {answer : Except Refusal Reply} (h : s.Moves e answer s') :
    s'.operation.keyIndices ⊆ s.operation.keyIndices ++ e.keyIndices := by
  cases h with
  | asked => exact List.subset_append_right _ _
  | restarted => exact List.nil_subset _
  | @begun keyIndex sigIndex changeIndex flags data _ _ _ hdelivers =>
    have hkey : s'.operation.keyIndices ⊆ [keyIndex] := keyIndices_delivers rfl hdelivers
    have hgiven : [keyIndex] ⊆ (Event.start keyIndex sigIndex changeIndex flags data).keyIndices :=
      List.cons_subset_cons _ (List.nil_subset _)
    exact List.Subset.trans hkey (List.Subset.trans hgiven (List.subset_append_right _ _))
  | continued _ hreview hdelivers =>
    have hkey := keyIndices_delivers hreview hdelivers
    rw [hreview]
    exact List.Subset.trans hkey (List.subset_append_left _ _)
  | _ => exact List.subset_append_left _ _

theorem keyIndices_act (s : Session) (a : Action) :
    (s.act a).2.operation.keyIndices ⊆ s.operation.keyIndices ++ a.keyIndices := by
  cases a with
  | event e => exact keyIndices_moves (s.moves_handle e)
  | approve =>
    show s.approve.2.operation.keyIndices ⊆ _
    rw [approve]
    split
    · exact List.subset_append_left _ _
    · exact List.nil_subset _
  | deny | reset => exact List.nil_subset _
  | lock | unlock => exact List.subset_append_left _ _

theorem keyIndices_run (s : Session) (actions : List Action) :
    (s.run actions).2.operation.keyIndices ⊆
      s.operation.keyIndices ++ actions.flatMap Action.keyIndices := by
  induction actions generalizing s with
  | nil => exact List.subset_append_left _ _
  | cons a actions ih =>
    refine List.Subset.trans (ih (s.act a).2) ?_
    rw [List.flatMap_cons, ← List.append_assoc]
    exact List.append_subset.2
      ⟨List.Subset.trans (keyIndices_act s a) (List.subset_append_left _ _),
        List.subset_append_right _ _⟩

/-- What is pending is for the key of the operation. -/
theorem mem_of_pending {p : Offer} (h : s.pending = some p) :
    p.keyIndex ∈ s.operation.keyIndices := by
  rw [pending] at h
  split at h
  · rcases hoperation : s.operation with _ | r | ⟨keyIndex, hash⟩ <;> rw [hoperation] at h
    · cases h
    · obtain ⟨hash, -, rfl⟩ := Option.map_eq_some_iff.1 h
      exact List.mem_singleton_self _
    · cases h
      exact List.mem_singleton_self _
  · cases h

/-- The keys that an action uses are those that the host gives in it, and the one that the operation
is for. -/
theorem keysUsed_subset (s : Session) (a : Action) :
    s.keysUsed a ⊆ s.operation.keyIndices ++ a.keyIndices := by
  unfold keysUsed
  split
  · split
    · exact List.subset_append_right _ _
    · exact List.nil_subset _
  · split
    · exact List.nil_subset _
    · exact List.Subset.trans (List.subset_cons_self _ _) (List.subset_append_right _ _)
  · split
    · next p hpending =>
      split
      · exact List.cons_subset.2 ⟨List.mem_append_left _ (mem_of_pending hpending),
          List.nil_subset _⟩
      · exact List.nil_subset _
    · exact List.nil_subset _
  · exact List.nil_subset _

end Session

/-- Of an index only the 31 low bits count: the paths of two keys are the same exactly if their
indices are equal in these, and so are the seeds, where different paths lead to different seeds. An
action depends on the seeds of the keys that it uses and on no others, and their indices are those
that the host has given. Requests with all indices are read. -/
theorem named_by_low_bits (keys : KeySource) (i j : UInt32) :
    (derivationPath i = derivationPath j ↔ i.toNat % 2 ^ 31 = j.toNat % 2 ^ 31) ∧
    (keys.Separates →
      (keys.seedAt (derivationPath i) = keys.seedAt (derivationPath j) ↔
        i.toNat % 2 ^ 31 = j.toNat % 2 ^ 31)) ∧
    (∀ (s : Session) a, s.keys.AgreesOn keys (s.keysUsed a) →
      (s.withKeys keys).act a = ((s.act a).1, (s.act a).2.withKeys keys)) ∧
    (∀ actions a,
      ((Session.new keys).run actions).2.keysUsed a ⊆
        (actions ++ [a]).flatMap Action.keyIndices) ∧
    (∃ bs, Event.parse 0x02 0 0 bs = .ok (.getPublicKey i .address)) ∧
    (∀ hash, ∃ bs, Event.parse 0x04 0 0 bs = .ok (.signHash i hash)) ∧
    ∀ sigIndex flags data, ∃ bs,
      Event.parse 0x08 0 flags.bits bs = .ok (.start i sigIndex j flags data) := by
  refine ⟨derivationPath_eq_iff, fun hkeys => KeySource.seedAt_eq_iff hkeys,
    fun s a => Session.act_of_agreesOn, fun actions a => ?_, ?_, ?_, ?_⟩
  · have hrun := Session.keyIndices_run (Session.new keys) actions
    refine List.Subset.trans (Session.keysUsed_subset _ a) ?_
    rw [List.flatMap_append, List.flatMap_singleton]
    exact List.append_subset.2 ⟨List.Subset.trans hrun (List.subset_append_left _ _),
      List.subset_append_right _ _⟩
  · exact ⟨_, Event.parse_of_isRead (.getPublicKey 0 i .address [])⟩
  · exact fun hash => ⟨_, Event.parse_of_isRead (.signHash 0 0 i hash [])⟩
  · exact fun sigIndex flags data => ⟨_, Event.parse_of_isRead (.start i sigIndex j flags data)⟩

/-- Keys that have the step of the index for their seed. -/
def indexedKeys : KeySource := ⟨fun path => Block.ofBytes 32 (bigEndian 32 (path.getD 2 0).toNat)⟩

theorem separates_indexedKeys : indexedKeys.Separates := by
  have hvalue : ∀ i, ofBigEndian (indexedKeys.seedAt (derivationPath i)).bytes =
      (i ||| hardened).toNat := by
    intro i
    show ofBigEndian (Block.ofBytes 32 (bigEndian 32 (i ||| hardened).toNat)).bytes = _
    rw [Block.bytes_ofBytes (length_bigEndian _ _), Currency.ofBigEndian_bigEndian]
    exact Nat.lt_of_lt_of_le (UInt32.toNat_lt _) (by decide)
  intro i j h
  have hstep : i ||| hardened = j ||| hardened :=
    UInt32.toNat_inj.1 (by rw [← hvalue, h, hvalue])
  rw [derivationPath, derivationPath, hstep]

/-- The keys 0 and 1 have different seeds, and those of 0 and 2^31 are the same. -/
theorem indexedKeys_zero_one :
    indexedKeys.Separates ∧
      indexedKeys.seedAt (derivationPath 0) ≠ indexedKeys.seedAt (derivationPath 1) ∧
      indexedKeys.seedAt (derivationPath 0) = indexedKeys.seedAt (derivationPath 0x80000000) := by
  have hkeys := separates_indexedKeys
  exact ⟨hkeys, mt ((named_by_low_bits indexedKeys 0 1).2.1 hkeys).1 (by decide),
    ((named_by_low_bits indexedKeys 0 0x80000000).2.1 hkeys).2 (by decide)⟩

/-- The host can ask for the keys with the indices 0 and 2^31, which have the same path, and gets
the same key for both, whatever the keys are. -/
theorem same_key_for_two_indices :
    (0 : UInt32) ≠ 0x80000000 ∧ derivationPath 0 = derivationPath 0x80000000 ∧
      Event.parse 0x02 0 0 [0, 0, 0, 0] = .ok (.getPublicKey 0 .address) ∧
      Event.parse 0x02 0 0 [0, 0, 0, 0x80] = .ok (.getPublicKey 0x80000000 .address) ∧
      ∀ keys, (Session.new keys).unlock.handle (.getPublicKey 0 .address) =
        (Session.new keys).unlock.handle (.getPublicKey 0x80000000 .address) := by
  have hpath : derivationPath 0 = derivationPath 0x80000000 := derivationPath_eq_iff.2 (by decide)
  refine ⟨by decide, hpath, by decide, by decide, fun keys => ?_⟩
  have hkey : keys.publicKey 0 = keys.publicKey 0x80000000 :=
    congrArg (fun path => Ed25519.publicKey (keys.seedAt path)) hpath
  simp only [Session.handle, Session.unlock, Session.new, if_true, hkey]

end Countersign
