import Countersign.Proofs.EitherFormat

/-!
# The rest of a transaction

The bytes of a transaction are headers and entries, one after the other up to its end.
`Layout.Remains` says this of the bytes that are left of it at some place, with a bound on the
length of each:

  what is left = next header or entry, at most `n` bytes long ++ what is left behind it.

At the start of a transaction all its bytes are left (`V1.remains_start`, `V2.remains_start`). A
decoder that expects the rest of a transaction (`Decoder.Expects`) takes it to the end: it fails at
no step (`expected_step`), is done when nothing is left, and when it asks for more, something is
left, and it holds only a part of one header or entry. So if these have 256 bytes at most, there is
room for a chunk of 255 bytes whenever it asks for more (`expected_next`).
-/

namespace Countersign

/-! ## What is left of a transaction -/

namespace Layout

variable {S : Type} [Layout S] {n : Nat} {sigIndex : UInt16} {s : S} {rest : Bytes}

/-- The bytes are what is left of a transaction when `k` entries of `count` have been read of
section `s`, and no header or entry among them has more than `n` bytes. -/
inductive Remains (n : Nat) (sigIndex : UInt16) : S → UInt64 → UInt64 → Bytes → Prop where
  | ends {s : S} {k : UInt64} (hnext : Layout.next? s = none) : Remains n sigIndex s k k []
  | header {s₀ s : S} {k : UInt64} {w rest : Bytes} {h : Header} (hnext : Layout.next? s₀ = some s)
      (hw : (Layout.header sigIndex s).Accepts w h) (hlen : w.length ≤ n)
      (hrest : Remains n sigIndex s h.count 0 rest) : Remains n sigIndex s₀ k k (w ++ rest)
  | entry {s : S} {count k : UInt64} {w rest : Bytes} {e : Entry} (hk : k ≠ count)
      (hw : (Layout.entry sigIndex s k).Accepts w e) (hlen : w.length ≤ n)
      (hrest : Remains n sigIndex s count (k + 1) rest) : Remains n sigIndex s count k (w ++ rest)

/-- The bytes are what is left of a transaction behind the last entry of section `s`. -/
def RemainsBehind (n : Nat) (sigIndex : UInt16) (s : S) (bs : Bytes) : Prop :=
  ∀ k, Remains n sigIndex s k k bs

theorem remainsBehind_ends (hnext : Layout.next? s = none) : RemainsBehind n sigIndex s [] :=
  fun _ => .ends hnext

variable {α : Type} {c : Contents α} {xs : List α}

/-- The last entries of a section, and what is behind them. -/
theorem remains_entries (hc : c.Describes sigIndex s) {count : UInt64}
    (hrest : RemainsBehind n sigIndex s rest) (k : UInt64) (hk : k.toNat + xs.length = count.toNat)
    (hfits : ∀ x ∈ xs, (c.encode x).length ≤ 510) (hn : ∀ x ∈ xs, (c.encode x).length ≤ n) :
    Remains n sigIndex s count k (xs.flatMap c.encode ++ rest) := by
  induction xs generalizing k with
  | nil =>
    obtain rfl : k = count := UInt64.toNat.inj hk
    exact hrest k
  | cons x xs ih =>
    rw [List.length_cons] at hk
    have hkn : k ≠ count := by
      rintro rfl
      omega
    have hstep : (k + 1).toNat + xs.length = count.toNat := by
      have hcount := count.toNat_lt
      rw [UInt64.toNat_add, UInt64.toNat_one]
      omega
    obtain ⟨hx, hfits⟩ := List.forall_mem_cons.1 hfits
    obtain ⟨hxn, hn⟩ := List.forall_mem_cons.1 hn
    rw [List.flatMap_cons, List.append_assoc]
    exact .entry hkn ((hc k _ _ hx).2 ⟨x, rfl, rfl⟩) hxn (ih (k + 1) hstep hfits hn)

/-- A section is a header and as many entries as it says. -/
theorem remains_section (s₀ : S) (hnext : Layout.next? s₀ = some s)
    (hc : c.Describes sigIndex s) {w : Bytes} {h : Header}
    (hw : (Layout.header sigIndex s).Accepts w h) (hlen : w.length ≤ n)
    (hcount : xs.length = h.count.toNat) (hfits : ∀ x ∈ xs, (c.encode x).length ≤ 510)
    (hn : ∀ x ∈ xs, (c.encode x).length ≤ n) (hrest : RemainsBehind n sigIndex s rest) :
    RemainsBehind n sigIndex s₀ (w ++ (xs.flatMap c.encode ++ rest)) :=
  fun _ => .header hnext hw hlen
    (remains_entries hc hrest 0 ((Nat.zero_add _).trans hcount) hfits hn)

/-- A section that is counted is a list with its length in front. -/
theorem remains_counted (s₀ : S) (hnext : Layout.next? s₀ = some s)
    (hc : c.Describes sigIndex s) (hheader : Layout.header sigIndex s = counted) (h8 : 8 ≤ n)
    (hxs : FitsWire c.encode xs) (hn : ∀ x ∈ xs, (c.encode x).length ≤ n)
    (hrest : RemainsBehind n sigIndex s rest) :
    RemainsBehind n sigIndex s₀ (encodeList c.encode xs ++ rest) := by
  have hw : (Layout.header sigIndex s).Accepts (littleEndian 8 xs.length)
      ⟨UInt64.ofNat xs.length, .all⟩ := by
    rw [hheader]
    exact accepts_counted.2 ⟨_, (bytesOfWord_ofNat hxs.1).symm, rfl⟩
  have hlen : (littleEndian 8 xs.length).length ≤ n := by
    rw [length_littleEndian]
    exact h8
  rw [encodeList, List.append_assoc]
  exact remains_section s₀ hnext hc hw hlen (UInt64.toNat_ofNat_of_lt' hxs.1).symm hxs.2 hn hrest

/-- A section without entries is its header. -/
theorem remains_bare (s₀ : S) (hnext : Layout.next? s₀ = some s) {w : Bytes}
    (hw : (Layout.header sigIndex s).Accepts w ⟨0, .all⟩) (hlen : w.length ≤ n)
    (hrest : RemainsBehind n sigIndex s rest) : RemainsBehind n sigIndex s₀ (w ++ rest) :=
  fun _ => .header hnext hw hlen (hrest 0)

end Layout

/-! ## Transactions -/

/-- The entries of a transaction on the wire: inputs, outputs, fees and signatures. -/
def V1.Transaction.entries (t : V1.Transaction) : List Bytes :=
  t.siacoinInputs.map SiacoinInput.encode ++ t.siacoinOutputs.map SiacoinOutput.encode ++
    t.siafundInputs.map SiafundInput.encode ++ t.siafundOutputs.map SiafundOutput.encode ++
    t.minerFees.map Amount.encode ++ t.signatures.map SignatureEntry.encode

/-- The entries of a transaction on the wire: inputs, outputs, attestations and the fee. -/
def V2.Transaction.entries (t : V2.Transaction) : List Bytes :=
  t.siacoinInputs.map encodeInput ++ t.siacoinOutputs.map SiacoinOutput.encode ++
    t.siafundInputs.map encodeInput ++ t.siafundOutputs.map SiafundOutput.encode ++
    t.attestations.map Attestation.encode ++ [t.minerFee.encode]

/-- The entries of a transaction on the wire. -/
def AnyTransaction.entries : AnyTransaction → List Bytes
  | v1 t => t.entries
  | v2 t => t.entries

open Layout

namespace V1

variable {n : Nat} {sigIndex : UInt16} {rest : Bytes}

theorem remains_unsupported (s₀ : Section) {s : Section} (hnext : s₀.next? = some s)
    (hs : s.isUnsupported = true) (h8 : 8 ≤ n) (hrest : RemainsBehind n sigIndex s rest) :
    RemainsBehind n sigIndex s₀ (bytesOfWord 0 ++ rest) := by
  have hheader : Layout.header sigIndex s = emptyCount := by
    rcases s <;> first | rfl | cases hs
  refine remains_bare s₀ hnext ?_ (by simpa using h8) hrest
  rw [hheader]
  exact accepts_emptyCount.2 ⟨rfl, rfl⟩

/-- The signatures are the last section. -/
theorem remains_signatures {ss : List SignatureEntry} (h8 : 8 ≤ n)
    (hss : FitsWire SignatureEntry.encode ss) (hindex : sigIndex.toNat < ss.length)
    (hn : ∀ s ∈ ss, s.encode.length ≤ n) :
    RemainsBehind n sigIndex Section.arbitraryData (encodeList SignatureEntry.encode ss) := by
  have hcount : (UInt64.ofNat ss.length).toNat = ss.length := UInt64.toNat_ofNat_of_lt' hss.1
  have hw : (Layout.header sigIndex Section.signatures).Accepts (littleEndian 8 ss.length)
      ⟨UInt64.ofNat ss.length, .nothing⟩ :=
    accepts_signatureCount.2 ⟨_, hcount.symm ▸ hindex, (bytesOfWord_ofNat hss.1).symm, rfl⟩
  have hlen : (littleEndian 8 ss.length).length ≤ n := by
    rw [length_littleEndian]
    exact h8
  rw [encodeList, ← List.append_nil (ss.flatMap SignatureEntry.encode)]
  exact remains_section Section.arbitraryData rfl describes_signatures hw hlen hcount.symm hss.2 hn
    (remainsBehind_ends rfl)

/-- All bytes of a transaction are left at its start. -/
theorem remains_start {t : Transaction} (ht : t.Fits)
    (hindex : sigIndex.toNat < t.signatures.length) (h8 : 8 ≤ n)
    (hn : ∀ w ∈ t.entries, w.length ≤ n) : RemainsBehind n sigIndex Section.start t.encode := by
  simp only [Transaction.entries, List.forall_mem_append, List.forall_mem_map] at hn
  obtain ⟨⟨⟨⟨⟨hinputs, houtputs⟩, hfundInputs⟩, hfundOutputs⟩, hfees⟩, hsignatures⟩ := hn
  simp only [Transaction.encode, Transaction.body, Transaction.emptySection, List.append_assoc,
    List.nil_append]
  -- from the last section to the first one
  have h₁ := remains_signatures h8 ht.signatures hindex hsignatures
  have h₂ := remains_unsupported Section.minerFees rfl rfl h8 h₁
  have h₃ := remains_counted Section.siafundOutputs rfl
    (Contents.describes_minerFees fun _ => rfl) rfl h8 ht.minerFees hfees h₂
  have h₄ := remains_counted Section.siafundInputs rfl
    (Contents.describes_siafundOutputs fun _ => rfl) rfl h8 ht.siafundOutputs hfundOutputs h₃
  have h₅ := remains_counted Section.storageProofs rfl describes_siafundInputs rfl h8
    ht.siafundInputs hfundInputs h₄
  have h₆ := remains_unsupported Section.fileContractRevisions rfl rfl h8 h₅
  have h₇ := remains_unsupported Section.fileContracts rfl rfl h8 h₆
  have h₈ := remains_unsupported Section.siacoinOutputs rfl rfl h8 h₇
  have h₉ := remains_counted Section.siacoinInputs rfl
    (Contents.describes_siacoinOutputs fun _ => rfl) rfl h8 ht.siacoinOutputs houtputs h₈
  exact remains_counted Section.start rfl describes_siacoinInputs rfl h8 ht.siacoinInputs hinputs h₉

end V1

namespace V2

variable {n : Nat} {sigIndex : UInt16} {rest : Bytes}

theorem remains_empty (s₀ : Section) {s : Section} (hnext : s₀.next? = some s)
    (hheader : header s = emptyCount) (h8 : 8 ≤ n) (hrest : RemainsBehind n sigIndex s rest) :
    RemainsBehind n sigIndex s₀ (bytesOfWord 0 ++ rest) := by
  refine remains_bare s₀ hnext ?_ (by simpa using h8) hrest
  show (header s).Accepts _ _
  rw [hheader]
  exact accepts_emptyCount.2 ⟨rfl, rfl⟩

/-- The fee is the last section, and nothing says that it comes. -/
theorem remains_minerFee {a : Amount} (hn : a.encode.length ≤ n) :
    RemainsBehind n sigIndex Section.foundationAddress a.encode := by
  have hfee : Contents.minerFees.Describes sigIndex Section.minerFee :=
    Contents.describes_minerFees fun _ => rfl
  have hfits : a.encode.length ≤ 510 := by
    have hle := a.length_le
    rw [Currency.maxBytes] at hle
    rw [Amount.encode, encodeBytes, List.length_append, length_littleEndian]
    omega
  have hbehind : RemainsBehind n sigIndex Section.foundationAddress
      ([] ++ ([a].flatMap Amount.encode ++ [])) :=
    remains_section Section.foundationAddress rfl hfee (Reader.accepts_done.2 ⟨rfl, rfl⟩)
      (Nat.zero_le _) rfl (List.forall_mem_singleton.2 hfits) (List.forall_mem_singleton.2 hn)
      (remainsBehind_ends rfl)
  rwa [List.nil_append, List.append_nil, List.flatMap_singleton] at hbehind

/-- All bytes of a transaction are left at its start. -/
theorem remains_start {t : Transaction} (ht : t.Fits) (h8 : 8 ≤ n)
    (hn : ∀ w ∈ t.entries, w.length ≤ n) : RemainsBehind n sigIndex Section.start t.encode := by
  simp only [Transaction.entries, List.forall_mem_append, List.forall_mem_map,
    List.forall_mem_singleton] at hn
  obtain ⟨⟨⟨⟨⟨hinputs, houtputs⟩, hfundInputs⟩, hfundOutputs⟩, hattestations⟩, hfee⟩ := hn
  simp only [Transaction.encode, Transaction.emptySection, List.append_assoc]
  have hdescribes : ∀ s, entry s = input → inputs.Describes sigIndex s := by
    intro s hs k w e _
    show (entry s).Accepts w e ↔ _
    rw [hs]
    exact accepts_input
  -- from the last section to the first one
  have h₁ : RemainsBehind n sigIndex Section.foundationAddress t.minerFee.encode :=
    remains_minerFee hfee
  have hflag : (Layout.header sigIndex Section.foundationAddress).Accepts [0] ⟨0, .all⟩ :=
    accepts_foundationFlag.2 ⟨rfl, rfl⟩
  have h₂ := remains_bare Section.arbitraryData rfl hflag (Nat.le_trans (by decide) h8) h₁
  have h₃ := remains_empty Section.attestations rfl rfl h8 h₂
  have h₄ := remains_counted Section.fileContractResolutions rfl describes_attestations rfl
    h8 ht.attestations hattestations h₃
  have h₅ := remains_empty Section.fileContractRevisions rfl rfl h8 h₄
  have h₆ := remains_empty Section.fileContracts rfl rfl h8 h₅
  have h₇ := remains_empty Section.siafundOutputs rfl rfl h8 h₆
  have h₈ := remains_counted Section.siafundInputs rfl
    (Contents.describes_siafundOutputs fun _ => rfl) rfl h8 ht.siafundOutputs hfundOutputs h₇
  have h₉ := remains_counted Section.siacoinOutputs rfl
    (hdescribes Section.siafundInputs rfl) rfl h8 ht.siafundInputs hfundInputs h₈
  have h₁₀ := remains_counted Section.siacoinInputs rfl
    (Contents.describes_siacoinOutputs fun _ => rfl) rfl h8 ht.siacoinOutputs houtputs h₉
  exact remains_counted Section.start rfl (hdescribes Section.siacoinInputs rfl) rfl h8
    ht.siacoinInputs hinputs h₁₀

end V2

/-! ## Positions -/

namespace Position

variable {S : Type} [Layout S] {p : Position S} {n : Nat} {bs : Bytes}

/-- The bytes are what is left of a transaction at this position. -/
def Expects (p : Position S) (n : Nat) (bs : Bytes) : Prop :=
  Layout.Remains n p.sigIndex p.place p.count p.index bs

/-- Nothing is left at the end, and anywhere else a piece is left, and what is behind it. -/
theorem exists_piece (h : p.Expects n bs) :
    (p.reader? = none ∧ bs = []) ∨ ∃ r w piece rest, p.reader? = some r ∧ r.Accepts w piece ∧
      w.length ≤ n ∧ bs = w ++ rest ∧ (p.after w piece).Expects n rest := by
  rcases p with ⟨sigIndex, change, covered, place, count, index, shown⟩
  rw [Expects] at h
  cases h with
  | ends hnext =>
    left
    rw [reader?_header rfl]
    exact ⟨Option.map_eq_none_iff.2 hnext, rfl⟩
  | header hnext hw hlen hrest =>
    right
    rw [reader?_header rfl]
    exact ⟨_, _, _, _, Option.map_eq_some_iff.2 ⟨_, hnext, rfl⟩, Reader.accepts_map.2 ⟨_, hw, rfl⟩,
      hlen, rfl, hrest⟩
  | entry hk hw hlen hrest =>
    right
    rw [reader?_entry hk]
    exact ⟨_, _, _, _, rfl, Reader.accepts_map.2 ⟨_, hw, rfl⟩, hlen, rfl, hrest⟩

/-- What is left of a transaction is read: at the end there is nothing, and anywhere else a piece at
the front, whatever follows it. -/
theorem read_of_expects (h : p.Expects n bs) (hn : n ≤ 510) :
    (p.read bs = .ends ∧ bs = []) ∨ ∃ w q shown rest, bs = w ++ rest ∧ w.length ≤ n ∧
      q.Expects n rest ∧ ∀ rest', p.read (w ++ rest') = .moves q shown rest' := by
  rcases exists_piece h with ⟨hnone, rfl⟩ | ⟨r, w, piece, rest, hr, hw, hlen, rfl, hrest⟩
  · left
    simp only [read, hnone, and_self]
  · right
    exact ⟨w, _, _, rest, rfl, hlen, hrest, read_append hr hw (Nat.le_trans hlen hn)⟩

end Position

/-! ## Decoders -/

namespace Decoder

variable {S : Type} [Layout S] {d : Decoder S} {more : Bytes}

/-- The bytes `more`, behind those that the decoder holds, are what is left of a transaction whose
headers and entries have 256 bytes at most. -/
structure Expects (d : Decoder S) (more : Bytes) : Prop where
  live : d.Live
  expects : d.position.Expects 256 (d.held ++ more)

/-- What a step leaves of a decoder that expects the bytes `more`. -/
def Step.Expected (d : Decoder S) (more : Bytes) : Step S → Prop
  | .hidden d' => d'.Expects more
  | .shows _ d' => d'.Expects more
  | .ends _ _ => more = []
  | .waits => more ≠ [] ∧ d.held.length < 256
  | .fails _ => False

/-- A decoder that waits for more holds a part of a piece. -/
theorem expected_waits (hd : d.Expects more) (h : Step.Matches d more .waits) :
    more ≠ [] ∧ d.held.length < 256 := by
  obtain ⟨hfull, hwaits⟩ := h
  have hle := hd.live.length_le
  rcases Position.read_of_expects hd.expects (by decide) with
    ⟨hends, hnil⟩ | ⟨w, q, shown, rest, hbs, hlen, -, hmoves⟩
  · -- at the end the decoder does not wait
    obtain ⟨hheld, hmore⟩ := List.append_eq_nil_iff.1 hnil
    have hread := hwaits (by rw [hheld]; decide)
    rw [hmore, List.append_nil, hread] at hends
    cases hends
  · have hroom : d.held.length < 510 := by
      refine Nat.lt_of_le_of_ne hle fun heq => ?_
      have hfails := hfull heq
      rw [hbs, hmoves] at hfails
      cases hfails
    have hpart : d.held.length < w.length := by
      -- otherwise the piece would have been read
      refine Nat.lt_of_not_le fun hle => ?_
      have hfront : w <+: d.held :=
        List.prefix_of_prefix_length_le ⟨rest, hbs.symm⟩ (List.prefix_append _ _) hle
      obtain ⟨v, hv⟩ := hfront
      have hread := hwaits hroom
      rw [← hv, hmoves] at hread
      cases hread
    refine ⟨fun hnil => ?_, Nat.lt_of_lt_of_le hpart hlen⟩
    have hlength := congrArg List.length hbs
    rw [hnil, List.append_nil, List.length_append] at hlength
    omega

/-- A decoder that has read a piece expects what is behind it. -/
theorem expects_of_moves (hd : d.Expects more) {d' : Decoder S} {shown : Option Element}
    (hlive : d'.Live)
    (hread : d.position.read (d.held ++ more) = .moves d'.position shown (d'.held ++ more)) :
    d'.Expects more := by
  rcases Position.read_of_expects hd.expects (by decide) with
    ⟨hends, -⟩ | ⟨w, q, shown, rest, hbs, -, hq, hmoves⟩
  · cases hread.symm.trans hends
  · cases hread.symm.trans (hbs ▸ hmoves rest)
    exact ⟨hlive, hq⟩

/-- A step of a decoder that expects the rest of a transaction leaves it with the rest, up to the
end. -/
theorem expected_step (hd : d.Expects more) : d.step.Expected d more := by
  have hmatch := matches_step hd.live more
  have hread := Position.read_of_expects hd.expects (by decide)
  rcases hstep : d.step with d' | ⟨e, d'⟩ | ⟨hash, d'⟩ | _ | e
  all_goals rw [hstep] at hmatch
  · exact expects_of_moves hd hmatch.1 hmatch.2
  · exact expects_of_moves hd hmatch.1 hmatch.2
  · rcases hread with ⟨-, hnil⟩ | ⟨w, q, shown, rest, hbs, -, -, hmoves⟩
    · exact (List.append_eq_nil_iff.1 hnil).2
    · cases hmatch.2.2.symm.trans (hbs ▸ hmoves rest)
  · exact expected_waits hd hmatch
  · rcases hread with ⟨hends, -⟩ | ⟨w, q, shown, rest, hbs, -, -, hmoves⟩
    · cases hmatch.symm.trans hends
    · cases hmatch.symm.trans (hbs ▸ hmoves rest)

/-- What an answer leaves of a decoder that expects the bytes `more`. -/
def Expected (more : Bytes) : Except DecodeError Finding × Decoder S → Prop
  | (.ok (.element _), d') => d'.Expects more
  | (.ok .needsMore, d') => d'.Expects more ∧ more ≠ [] ∧ 255 ≤ d'.available
  | (.ok (.finished _), _) => more = []
  | (.error _, _) => False

/-- A decoder that expects the rest of a transaction does not fail; it is done when nothing is left,
and when it asks for more, there is room for 255 bytes. -/
theorem expected_next (hd : d.Expects more) : Expected more d.next := by
  have hexpected := expected_step hd
  fun_induction next d with
  | case1 d e houtcome => rw [hd.live.outcome] at houtcome; cases houtcome
  | case2 d hash houtcome => rw [hd.live.outcome] at houtcome; cases houtcome
  | case3 d _ d' hstep ih =>
    rw [hstep] at hexpected
    exact ih hexpected (expected_step hexpected)
  | case4 d _ e d' hstep =>
    rw [hstep] at hexpected
    exact hexpected
  | case5 d _ hash d' hstep =>
    rw [hstep] at hexpected
    exact hexpected
  | case6 d _ hstep d' hfull =>
    -- a buffer that holds less than 256 bytes is not full
    rw [hstep] at hexpected
    have hlen : d.held.length = 510 := by
      rw [length_held]
      exact beq_iff_eq.1 hfull
    have hshort := hexpected.2
    omega
  | case7 d _ hstep d' hroom =>
    rw [hstep] at hexpected
    obtain ⟨hmore, hlen⟩ := hexpected
    have hlive : d'.Live :=
      ⟨Buffer.valid_rewind hd.live.valid, rfl, hd.live.isOpen, hd.live.outcome⟩
    have havailable : 255 ≤ d'.available := by
      rw [length_held] at hlen
      show 255 ≤ Buffer.capacity - d.buffer.length
      rw [Buffer.capacity]
      omega
    exact ⟨⟨hlive, hd.expects⟩, hmore, havailable⟩
  | case8 d _ e hstep =>
    rw [hstep] at hexpected
    exact hexpected

/-- A chunk for which there is room is taken. -/
theorem expects_push {chunk : Bytes} (hd : d.Expects (chunk ++ more))
    (hroom : chunk.length ≤ d.available) : ∃ d', d.push chunk = .ok d' ∧ d'.Expects more := by
  obtain ⟨d', hpush⟩ := exists_push hd.live hroom
  obtain ⟨hlive, hposition, hheld⟩ := live_of_push hd.live hpush
  refine ⟨d', hpush, hlive, ?_⟩
  rw [hposition, hheld, List.append_assoc]
  exact hd.expects

/-- A new decoder expects all of a transaction. -/
theorem expects_new {sigIndex : UInt16} {change : Option Address} {bs : Bytes}
    (h : Layout.RemainsBehind 256 sigIndex (Layout.start : S) bs) :
    (new sigIndex change : Decoder S).Expects bs :=
  ⟨live_new sigIndex change, h 0⟩

end Decoder

namespace AnyDecoder

variable {d : AnyDecoder} {more : Bytes}

/-- The bytes `more`, behind those that the decoder holds, are what is left of a transaction whose
headers and entries have 256 bytes at most. -/
def Expects : AnyDecoder → Bytes → Prop
  | v1 d => d.Expects
  | v2 d => d.Expects

/-- What an answer leaves of a decoder that expects the bytes `more`. -/
def Expected (more : Bytes) : Except DecodeError Finding × AnyDecoder → Prop
  | (.ok (.element _), d') => d'.Expects more
  | (.ok .needsMore, d') => d'.Expects more ∧ more ≠ [] ∧ 255 ≤ d'.available
  | (.ok (.finished _), _) => more = []
  | (.error _, _) => False

theorem Expects.live (hd : d.Expects more) : d.Live := by
  rcases d with d | d
  · exact Decoder.Expects.live hd
  · exact Decoder.Expects.live hd

theorem expected_next (hd : d.Expects more) : Expected more d.next := by
  rcases d with d | d
  all_goals
    have hexpected := Decoder.expected_next hd
    rw [next]
    generalize d.next = answer at hexpected
    rcases answer with ⟨_ | (_ | e | hash), d'⟩
    all_goals exact hexpected

theorem expects_push {chunk : Bytes} (hd : d.Expects (chunk ++ more))
    (hroom : chunk.length ≤ d.available) : ∃ d', d.push chunk = .ok d' ∧ d'.Expects more := by
  rcases d with d | d
  all_goals
    obtain ⟨d', hpush, hexpects⟩ := Decoder.expects_push hd hroom
    rw [push, hpush]
    exact ⟨_, rfl, hexpects⟩

/-- A new decoder expects all of a transaction of its format. -/
theorem expects_new {t : AnyTransaction} {sigIndex : UInt16} (change : Option Address)
    (ht : t.Fits) (hindex : t.HasSignature sigIndex.toNat)
    (hn : ∀ w ∈ t.entries, w.length ≤ 256) : (new t.format sigIndex change).Expects t.encode := by
  rcases t with t | t
  · exact Decoder.expects_new (V1.remains_start ht hindex (by decide) hn)
  · exact Decoder.expects_new (V2.remains_start ht (by decide) hn)

end AnyDecoder

end Countersign
