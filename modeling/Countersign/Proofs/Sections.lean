import Countersign.Proofs.Delivery
import Countersign.Proofs.Fields

/-!
# The bytes of sections

A byte string that comes to an end is taken apart from the front: a header, as many entries as it
says, and a byte string that comes to the end from behind the section. Each rule is an equivalence
about the elements and the covered bytes, so a format is read off its layout by applying one rule
for each section, and the result holds in both directions:

* `completes_header` and `completes_entry`, one piece;
* `completes_entries`, the entries that are left of a section, by induction on their number;
* `completes_counted` and `completes_bare`, the two shapes that most sections have.

The numbers of the elements are those of `shownPayments`: the counter of shown elements is
`min m 65535` when `m` have been shown.
-/

namespace Countersign

/-- What the entries of a section stand for: their bytes, the bytes that are covered ahead of each
of them, how much of the entry with some number is covered, and what an entry pays. -/
structure Contents (α : Type) where
  encode : α → Bytes
  lead : Bytes
  cover : UInt64 → Coverage
  pay : α → Option Payment

namespace Contents

variable {α : Type}

/-- What an entry comes to. -/
def entry (c : Contents α) (k : UInt64) (x : α) : Entry := ⟨c.lead, c.cover k, c.pay x⟩

/-- What is covered of the entries from some number on. -/
def covered (c : Contents α) : UInt64 → List α → Bytes
  | _, [] => []
  | k, x :: xs => c.lead ++ (c.cover k).part (c.encode x) ++ c.covered (k + 1) xs

/-- The entries of a section are the encodings of values. -/
def Describes {S : Type} [Layout S] (c : Contents α) (sigIndex : UInt16) (s : S) : Prop :=
  ∀ (k : UInt64) (w : Bytes) (e : Entry), w.length ≤ 510 →
    ((Layout.entry sigIndex s k).Accepts w e ↔ ∃ x, w = c.encode x ∧ e = c.entry k x)

/-- Entries that are covered as a whole are covered in one piece. -/
theorem covered_of_all {c : Contents α} (hc : ∀ k, c.cover k = .all) (k : UInt64) (xs : List α) :
    c.covered k xs = xs.flatMap fun x => c.lead ++ c.encode x := by
  induction xs generalizing k with
  | nil => rfl
  | cons x xs ih =>
    rw [covered, ih, hc, List.flatMap_cons]
    rfl

/-! ## Contents that both formats have -/

/-- Outputs in siacoins. -/
def siacoinOutputs : Contents SiacoinOutput :=
  ⟨SiacoinOutput.encode, [], fun _ => .all, fun o => some o.payment⟩

/-- Outputs in siafunds. -/
def siafundOutputs : Contents SiafundOutput :=
  ⟨SiafundOutput.encode, [], fun _ => .all, fun o => some o.payment⟩

/-- Miner fees. -/
def minerFees : Contents Amount := ⟨Amount.encode, [], fun _ => .all, fun a => some a.fee⟩

variable {S : Type} [Layout S] {sigIndex : UInt16} {s : S}

theorem describes_siacoinOutputs (h : ∀ k, Layout.entry sigIndex s k = Layout.siacoinOutput) :
    siacoinOutputs.Describes sigIndex s := by
  intro k w e _
  rw [h]
  exact Layout.accepts_siacoinOutput

theorem describes_siafundOutputs (h : ∀ k, Layout.entry sigIndex s k = Layout.siafundOutput) :
    siafundOutputs.Describes sigIndex s := by
  intro k w e _
  rw [h]
  exact Layout.accepts_siafundOutput

theorem describes_minerFees (h : ∀ k, Layout.entry sigIndex s k = Layout.minerFee) :
    minerFees.Describes sigIndex s := by
  intro k w e _
  rw [h]
  exact Layout.accepts_minerFee

end Contents

/-! ## Numbers of elements -/

theorem toNat_min (m : Nat) : (UInt16.ofNat (min m 65535)).toNat = min m 65535 :=
  UInt16.toNat_ofNat_of_lt' (by rw [UInt16.size]; omega)

/-- The counter of shown elements goes up by one and stays at 65535. -/
theorem number_min (m : Nat) :
    Decoder.number (UInt16.ofNat (min m 65535)) = UInt16.ofNat (min (m + 1) 65535) := by
  have hcounter := toNat_min m
  rw [Decoder.number]
  -- the counter is at its end, or adding one to it does not wrap
  split
  · next hfull =>
    have hm : min m 65535 = 65535 := by rw [← hcounter, hfull]; rfl
    rw [show min (m + 1) 65535 = 65535 by omega]
    rfl
  · next hroom =>
    have hm : min m 65535 ≠ 65535 := by
      intro h
      rw [h] at hroom
      exact hroom rfl
    rw [show min (m + 1) 65535 = min m 65535 + 1 by omega, UInt16.ofNat_add]
    rfl

theorem shownFrom_append (change : Option Address) (m : Nat) (ps qs : List Payment) :
    shownFrom change m (ps ++ qs) =
      shownFrom change m ps ++ shownFrom change (m + (shownFrom change m ps).length) qs := by
  induction ps generalizing m with
  | nil => rfl
  | cons p ps ih =>
    rw [List.cons_append, shownFrom, shownFrom]
    by_cases hp : p.IsShown change
    · rw [if_pos hp, if_pos hp, ih, List.length_cons, List.cons_append,
        show m + 1 + (shownFrom change (m + 1) ps).length =
          m + ((shownFrom change (m + 1) ps).length + 1) by omega]
    · rw [if_neg hp, if_neg hp, ih]

namespace Position

variable {S : Type} [Layout S]

/-- The position behind the last entry of a section. -/
def behind (sigIndex : UInt16) (change : Option Address) (s : S) (covered : Bytes) : Position S :=
  ⟨sigIndex, change, covered, s, 0, 0, 0⟩

/-- From this position on the bytes show the elements and come to an end, with these bytes covered.
There may be more bytes behind those that are read. -/
def Completes (p : Position S) (bs : Bytes) (es : List Element) (signed : Bytes) : Prop :=
  (p.survey bs).elements = es ∧
    (p.survey bs).result = .ok (.finished (Blake2b.digest signed)) ∧
    (p.survey bs).last.covered = signed

variable {p : Position S} {bs : Bytes} {es : List Element} {signed : Bytes}

/-- A byte string shows its elements and covers its bytes in one way only. -/
theorem Completes.unique {es' : List Element} {signed' : Bytes} (h : p.Completes bs es signed)
    (h' : p.Completes bs es' signed') : es = es' ∧ signed = signed' :=
  ⟨h.1.symm.trans h'.1, h.2.2.symm.trans h'.2.2⟩

/-! ## One piece -/

theorem completes_piece {r : Reader (Piece S)} (hr : p.reader? = some r) :
    p.Completes bs es signed ↔ ∃ w piece rest es', r.Accepts w piece ∧ w.length ≤ 510 ∧
      bs = w ++ rest ∧ es = (p.shows piece).toList ++ es' ∧
        (p.after w piece).Completes rest es' signed := by
  apply Iff.intro
  · intro h
    obtain ⟨rfl, hresult⟩ := h
    rcases hread : p.read bs with ⟨q, shown, rest⟩ | _ | _ | e
    · obtain ⟨r', w, piece, hr', hw, hlen, rfl, rfl, rfl⟩ := exists_of_read hread
      obtain rfl := Option.some.inj (hr.symm.trans hr')
      rw [survey_moves hread] at hresult ⊢
      exact ⟨w, piece, rest, _, hw, hlen, rfl, rfl, rfl, hresult⟩
    · -- there is a next piece, so reading does not end here
      rw [read, hr] at hread
      dsimp only at hread
      split at hread
      · cases hread
      · split at hread <;> cases hread
      · cases hread
    · rw [survey_waits hread] at hresult
      cases hresult.1
    · rw [survey_fails hread] at hresult
      cases hresult.1
  · intro h
    obtain ⟨w, piece, rest, es', hw, hlen, rfl, rfl, helements, hresult⟩ := h
    rw [Completes, survey_moves (read_append hr hw hlen rest)]
    exact ⟨congrArg _ helements, hresult⟩

/-- Behind the last section there is nothing to read, and nothing more is covered. -/
theorem completes_last (hindex : p.index = p.count) (hnext : Layout.next? p.place = none) :
    p.Completes bs es signed ↔ es = [] ∧ signed = p.covered := by
  have hread : p.read bs = .ends := by
    simp only [read, reader?_header hindex, hnext, Option.map_none]
  rw [Completes, survey_ends hread]
  apply Iff.intro
  · intro h
    obtain ⟨rfl, -, rfl⟩ := h
    exact ⟨rfl, rfl⟩
  · intro h
    obtain ⟨rfl, rfl⟩ := h
    exact ⟨rfl, rfl, rfl⟩

theorem completes_header {s : S} (hindex : p.index = p.count)
    (hnext : Layout.next? p.place = some s) :
    p.Completes bs es signed ↔ ∃ w h rest, (Layout.header p.sigIndex s).Accepts w h ∧
      w.length ≤ 510 ∧ bs = w ++ rest ∧
        (⟨p.sigIndex, p.change, p.covered ++ h.cover.part w, s, h.count, 0, 0⟩ :
          Position S).Completes rest es signed := by
  have hr : p.reader? = some (Piece.header s <$> Layout.header p.sigIndex s) := by
    rw [reader?_header hindex, hnext]
    rfl
  rw [completes_piece hr]
  apply Iff.intro
  · intro h
    obtain ⟨w, _, rest, es', hpiece, hlen, rfl, rfl, hrest⟩ := h
    obtain ⟨h, hw, rfl⟩ := Reader.accepts_map.1 hpiece
    exact ⟨w, h, rest, hw, hlen, rfl, hrest⟩
  · intro h
    obtain ⟨w, h, rest, hw, hlen, rfl, hrest⟩ := h
    exact ⟨w, .header s h, rest, es, Reader.accepts_map.2 ⟨h, hw, rfl⟩, hlen, rfl, rfl, hrest⟩

theorem completes_entry (hindex : p.index ≠ p.count) :
    p.Completes bs es signed ↔ ∃ w e rest es',
      (Layout.entry p.sigIndex p.place p.index).Accepts w e ∧ w.length ≤ 510 ∧ bs = w ++ rest ∧
        es = (p.shows (.entry e)).toList ++ es' ∧
        (p.after w (.entry e)).Completes rest es' signed := by
  rw [completes_piece (reader?_entry hindex)]
  apply Iff.intro
  · intro h
    obtain ⟨w, _, rest, es', hpiece, hlen, rfl, rfl, hrest⟩ := h
    obtain ⟨e, hw, rfl⟩ := Reader.accepts_map.1 hpiece
    exact ⟨w, e, rest, es', hw, hlen, rfl, rfl, hrest⟩
  · intro h
    obtain ⟨w, e, rest, es', hw, hlen, rfl, rfl, hrest⟩ := h
    exact ⟨w, .entry e, rest, es', Reader.accepts_map.2 ⟨e, hw, rfl⟩, hlen, rfl, rfl, hrest⟩

/-- Behind the last entry, the numbers of the section do not matter any more. -/
theorem completes_behind (hindex : p.index = p.count) :
    p.Completes bs es signed ↔
      (behind p.sigIndex p.change p.place p.covered).Completes bs es signed := by
  rcases hnext : Layout.next? p.place with _ | s
  · rw [completes_last hindex hnext]
    exact (completes_last (p := behind p.sigIndex p.change p.place p.covered) rfl hnext).symm
  · rw [completes_header hindex hnext]
    exact (completes_header (p := behind p.sigIndex p.change p.place p.covered) rfl hnext).symm

/-! ## The entries of a section -/

omit [Layout S] in
/-- After `m` elements, an entry shows the payment from number `m + 1` on. -/
theorem toList_shows {e : Entry} {m : Nat} (hm : p.shown = UInt16.ofNat (min m 65535)) :
    (p.shows (.entry e)).toList = shownFrom p.change m e.payment.toList := by
  rcases hpayment : e.payment with _ | payment
  · rw [shows, hpayment]
    rfl
  · rw [shows, hpayment, Option.bind_some, hm, number_min]
    by_cases hshown : payment.IsShown p.change
    · rw [if_pos hshown]
      exact (if_pos hshown).symm
    · rw [if_neg hshown]
      exact (if_neg hshown).symm

omit [Layout S] in
/-- After an entry, the counter stands at the number of elements shown so far. -/
theorem shown_after (w : Bytes) {e : Entry} {m : Nat}
    (hm : p.shown = UInt16.ofNat (min m 65535)) :
    (p.after w (.entry e)).shown =
      UInt16.ofNat (min (m + (shownFrom p.change m e.payment.toList).length) 65535) := by
  rw [← toList_shows hm]
  show ((p.shows (.entry e)).map Element.index).getD p.shown = _
  rw [shows]
  rcases e.payment with _ | payment
  · exact hm
  · rw [Option.bind_some, hm, number_min]
    by_cases hshown : payment.IsShown p.change
    · rw [if_pos hshown]
      rfl
    · rw [if_neg hshown]
      rfl

variable {α : Type} {c : Contents α} {sigIndex : UInt16} {change : Option Address} {s : S}
  {covered : Bytes}

/-- The first of the entries that are left. -/
theorem completes_first (hc : c.Describes sigIndex s) {n k : UInt64} (hkn : k ≠ n) (m : Nat) :
    (⟨sigIndex, change, covered, s, n, k, UInt16.ofNat (min m 65535)⟩ :
        Position S).Completes bs es signed ↔
      ∃ x rest es', (c.encode x).length ≤ 510 ∧ bs = c.encode x ++ rest ∧
        es = shownFrom change m (c.pay x).toList ++ es' ∧
        (⟨sigIndex, change, covered ++ c.lead ++ (c.cover k).part (c.encode x), s, n, k + 1,
          UInt16.ofNat (min (m + (shownFrom change m (c.pay x).toList).length) 65535)⟩ :
            Position S).Completes rest es' signed := by
  let p : Position S := ⟨sigIndex, change, covered, s, n, k, UInt16.ofNat (min m 65535)⟩
  have hshows : ∀ x, (p.shows (.entry (c.entry k x))).toList =
      shownFrom change m (c.pay x).toList := fun x => toList_shows rfl
  have hafter : ∀ x, p.after (c.encode x) (.entry (c.entry k x)) =
      ⟨sigIndex, change, covered ++ c.lead ++ (c.cover k).part (c.encode x), s, n, k + 1,
        UInt16.ofNat (min (m + (shownFrom change m (c.pay x).toList).length) 65535)⟩ := by
    intro x
    exact congrArg (Position.mk sigIndex change _ s n (k + 1)) (shown_after (c.encode x) rfl)
  rw [completes_entry hkn]
  apply Iff.intro
  · intro h
    obtain ⟨w, e, rest, es', hw, hlen, rfl, rfl, hrest⟩ := h
    obtain ⟨x, rfl, rfl⟩ := (hc k w e hlen).1 hw
    exact ⟨x, rest, es', hlen, rfl, congrArg (· ++ es') (hshows x), hafter x ▸ hrest⟩
  · intro h
    obtain ⟨x, rest, es', hlen, rfl, rfl, hrest⟩ := h
    exact ⟨c.encode x, c.entry k x, rest, es', (hc k _ _ hlen).2 ⟨x, rfl, rfl⟩, hlen, rfl,
      congrArg (· ++ es') (hshows x).symm, (hafter x).symm ▸ hrest⟩

/-- The payments of entries are the payment of the first one and those of the others. -/
theorem filterMap_pay_cons (x : α) (xs : List α) :
    (x :: xs).filterMap c.pay = (c.pay x).toList ++ xs.filterMap c.pay := by
  rcases hpay : c.pay x with _ | payment
  · rw [List.filterMap_cons_none hpay]
    rfl
  · rw [List.filterMap_cons_some hpay]
    rfl

/-- The last `j` entries of a section. -/
theorem completes_entries (hc : c.Describes sigIndex s) {n : UInt64} (j : Nat) (k : UInt64)
    (hj : k.toNat + j = n.toNat) (m : Nat) :
    (⟨sigIndex, change, covered, s, n, k, UInt16.ofNat (min m 65535)⟩ :
        Position S).Completes bs es signed ↔
      ∃ xs rest es', xs.length = j ∧ (∀ x ∈ xs, (c.encode x).length ≤ 510) ∧
        bs = xs.flatMap c.encode ++ rest ∧
        es = shownFrom change m (xs.filterMap c.pay) ++ es' ∧
        (behind sigIndex change s (covered ++ c.covered k xs)).Completes rest es' signed := by
  -- an entry moves on the index, the covered bytes and the counter of shown elements
  induction j generalizing k m covered bs es with
  | zero =>
    have hkn : k = n := UInt64.toNat.inj hj
    rw [completes_behind hkn]
    apply Iff.intro
    · intro h
      refine ⟨[], bs, es, rfl, by simp, rfl, rfl, ?_⟩
      rw [Contents.covered, List.append_nil]
      exact h
    · intro h
      obtain ⟨xs, rest, es', hlen, -, rfl, rfl, h⟩ := h
      rw [List.length_eq_zero_iff.1 hlen] at h ⊢
      rw [Contents.covered, List.append_nil] at h
      exact h
  | succ j ih =>
    have hkn : k ≠ n := by
      intro h
      rw [h] at hj
      omega
    have hstep : (k + 1).toNat + j = n.toNat := by
      have hn := n.toNat_lt
      rw [UInt64.toNat_add, UInt64.toNat_one]
      omega
    rw [completes_first hc hkn]
    apply Iff.intro
    · intro h
      obtain ⟨x, rest, es', hx, rfl, rfl, hrest⟩ := h
      obtain ⟨xs, rest, es', rfl, hxs, rfl, rfl, hbehind⟩ := (ih (k + 1) hstep _).1 hrest
      refine ⟨x :: xs, rest, es', rfl, List.forall_mem_cons.2 ⟨hx, hxs⟩, ?_, ?_, ?_⟩
      · rw [List.flatMap_cons, List.append_assoc]
      · rw [filterMap_pay_cons, shownFrom_append, List.append_assoc]
      · simpa only [Contents.covered, List.append_assoc] using hbehind
    · intro h
      obtain ⟨xs, rest, es', hlen, hxs, rfl, rfl, hrest⟩ := h
      obtain ⟨x, xs, rfl⟩ := List.exists_cons_of_length_eq_add_one hlen
      obtain ⟨hx, hxs⟩ := List.forall_mem_cons.1 hxs
      have hlen : xs.length = j := by simpa using hlen
      refine ⟨x, xs.flatMap c.encode ++ rest, _, hx, ?_, ?_, (ih (k + 1) hstep _).2
        ⟨xs, rest, es', hlen, hxs, rfl, rfl, ?_⟩⟩
      · rw [List.flatMap_cons, List.append_assoc]
      · rw [filterMap_pay_cons, shownFrom_append, List.append_assoc]
      · simpa only [Contents.covered, List.append_assoc] using hrest

/-! ## Whole sections -/

/-- A section is a header and as many entries as it says. -/
theorem completes_section (s₀ : S) (hnext : Layout.next? s₀ = some s)
    (hc : c.Describes sigIndex s) :
    (behind sigIndex change s₀ covered).Completes bs es signed ↔
      ∃ w h xs rest es', (Layout.header sigIndex s).Accepts w h ∧ w.length ≤ 510 ∧
        xs.length = h.count.toNat ∧ (∀ x ∈ xs, (c.encode x).length ≤ 510) ∧
        bs = w ++ (xs.flatMap c.encode ++ rest) ∧
        es = shownPayments change (xs.filterMap c.pay) ++ es' ∧
        (behind sigIndex change s (covered ++ h.cover.part w ++ c.covered 0 xs)).Completes
          rest es' signed := by
  rw [completes_header (p := behind sigIndex change s₀ covered) rfl hnext]
  -- the header starts the index and the counter of shown elements at zero
  apply Iff.intro
  · intro h
    obtain ⟨w, h, rest, hw, hlen, rfl, hrest⟩ := h
    obtain ⟨xs, rest, es', hcount, hxs, rfl, rfl, hbehind⟩ :=
      (completes_entries hc h.count.toNat 0 (Nat.zero_add _) 0).1 hrest
    exact ⟨w, h, xs, rest, es', hw, hlen, hcount, hxs, rfl, rfl, hbehind⟩
  · intro h
    obtain ⟨w, h, xs, rest, es', hw, hlen, hcount, hxs, rfl, rfl, hbehind⟩ := h
    exact ⟨w, h, xs.flatMap c.encode ++ rest, hw, hlen, rfl,
      (completes_entries hc h.count.toNat 0 (Nat.zero_add _) 0).2
        ⟨xs, rest, es', hcount, hxs, rfl, rfl, hbehind⟩⟩

/-- A section that is counted and covered as a whole is a list with its length in front. -/
theorem completes_counted (s₀ : S) (hnext : Layout.next? s₀ = some s)
    (hc : c.Describes sigIndex s) (hheader : Layout.header sigIndex s = Layout.counted)
    (hcover : ∀ k, c.cover k = .all) :
    (behind sigIndex change s₀ covered).Completes bs es signed ↔
      ∃ xs rest es', FitsWire c.encode xs ∧ bs = encodeList c.encode xs ++ rest ∧
        es = shownPayments change (xs.filterMap c.pay) ++ es' ∧
        (behind sigIndex change s
          (covered ++ encodeList (fun x => c.lead ++ c.encode x) xs)).Completes rest es'
          signed := by
  rw [completes_section s₀ hnext hc, hheader]
  apply Iff.intro
  · intro h
    obtain ⟨w, h, xs, rest, es', hw, hlen, hcount, hxs, rfl, rfl, hbehind⟩ := h
    obtain ⟨n, rfl, rfl⟩ := Layout.accepts_counted.1 hw
    rw [bytesOfWord_toNat hcount, Contents.covered_of_all hcover, List.append_assoc] at hbehind
    refine ⟨xs, rest, es', ⟨hcount ▸ n.toNat_lt, hxs⟩, ?_, rfl, hbehind⟩
    rw [bytesOfWord_toNat hcount, encodeList, List.append_assoc]
  · intro h
    obtain ⟨xs, rest, es', ⟨hcount, hxs⟩, rfl, rfl, hbehind⟩ := h
    refine ⟨littleEndian 8 xs.length, ⟨UInt64.ofNat xs.length, .all⟩, xs, rest, es',
      Layout.accepts_counted.2 ⟨_, (bytesOfWord_ofNat hcount).symm, rfl⟩, by simp,
      (UInt64.toNat_ofNat_of_lt' hcount).symm, hxs, ?_, rfl, ?_⟩
    · rw [encodeList, List.append_assoc]
    · rw [Contents.covered_of_all hcover, List.append_assoc]
      exact hbehind

/-- Entries that all pay something show what they pay. -/
theorem completes_paying (s₀ : S) (hnext : Layout.next? s₀ = some s)
    (hc : c.Describes sigIndex s) (hheader : Layout.header sigIndex s = Layout.counted)
    (hcover : ∀ k, c.cover k = .all) {pay : α → Payment} (hpay : ∀ x, c.pay x = some (pay x)) :
    (behind sigIndex change s₀ covered).Completes bs es signed ↔
      ∃ xs rest es', FitsWire c.encode xs ∧ bs = encodeList c.encode xs ++ rest ∧
        es = shownPayments change (xs.map pay) ++ es' ∧
        (behind sigIndex change s
          (covered ++ encodeList (fun x => c.lead ++ c.encode x) xs)).Completes rest es'
          signed := by
  have hmap : c.pay = some ∘ pay := funext hpay
  rw [completes_counted s₀ hnext hc hheader hcover, hmap]
  simp only [List.filterMap_eq_map]

/-- Entries that pay nothing show nothing. -/
theorem completes_silent (s₀ : S) (hnext : Layout.next? s₀ = some s)
    (hc : c.Describes sigIndex s) (hheader : Layout.header sigIndex s = Layout.counted)
    (hcover : ∀ k, c.cover k = .all)
    (hpay : ∀ x, c.pay x = none) :
    (behind sigIndex change s₀ covered).Completes bs es signed ↔
      ∃ xs rest, FitsWire c.encode xs ∧ bs = encodeList c.encode xs ++ rest ∧
        (behind sigIndex change s
          (covered ++ encodeList (fun x => c.lead ++ c.encode x) xs)).Completes rest es signed := by
  have hnone : ∀ xs : List α, shownPayments change (xs.filterMap c.pay) = [] := by
    intro xs
    rw [List.filterMap_eq_nil_iff.2 fun x _ => hpay x]
    rfl
  rw [completes_counted s₀ hnext hc hheader hcover]
  apply Iff.intro
  · intro h
    obtain ⟨xs, rest, es', hxs, rfl, rfl, hbehind⟩ := h
    rw [hnone, List.nil_append]
    exact ⟨xs, rest, hxs, rfl, hbehind⟩
  · intro h
    obtain ⟨xs, rest, hxs, rfl, hbehind⟩ := h
    exact ⟨xs, rest, es, hxs, rfl, by rw [hnone, List.nil_append], hbehind⟩

/-- A section without entries is its header. -/
theorem completes_bare {w : Bytes} (s₀ : S) (hnext : Layout.next? s₀ = some s) (hw : w.length ≤ 510)
    (hheader : ∀ v h, (Layout.header sigIndex s).Accepts v h ↔ v = w ∧ h = ⟨0, .all⟩) :
    (behind sigIndex change s₀ covered).Completes bs es signed ↔
      ∃ rest, bs = w ++ rest ∧
        (behind sigIndex change s (covered ++ w)).Completes rest es signed := by
  rw [completes_header (p := behind sigIndex change s₀ covered) rfl hnext]
  apply Iff.intro
  · intro h
    obtain ⟨v, h, rest, hv, -, rfl, hrest⟩ := h
    obtain ⟨rfl, rfl⟩ := (hheader v h).1 hv
    exact ⟨rest, rfl, hrest⟩
  · intro h
    obtain ⟨rest, rfl, hrest⟩ := h
    exact ⟨w, ⟨0, .all⟩, rest, (hheader _ _).2 ⟨rfl, rfl⟩, hw, rfl, hrest⟩

/-! ## Hashes -/

/-- From this position on the bytes show the elements and come to the hash. -/
def Finishes (p : Position S) (bs : Bytes) (es : List Element) (hash : Digest) : Prop :=
  (p.survey bs).elements = es ∧ (p.survey bs).result = .ok (.finished hash)

/-- The hash of a byte string is that of the bytes covered at its end. -/
theorem hash_of_survey (p : Position S) (bs : Bytes) {hash : Digest}
    (h : (p.survey bs).result = .ok (.finished hash)) :
    hash = Blake2b.digest (p.survey bs).last.covered := by
  -- the last position is that of the bytes behind the first piece
  fun_induction survey p bs with
  | case1 p bs q shown rest hread ih => exact ih h
  | case2 p bs hread =>
    cases h
    rfl
  | case3 p bs hread => cases h
  | case4 p bs e hread => cases h

theorem finishes_iff_completes {p : Position S} {bs : Bytes} {es : List Element} {hash : Digest} :
    p.Finishes bs es hash ↔ ∃ signed, p.Completes bs es signed ∧ hash = Blake2b.digest signed := by
  apply Iff.intro
  · intro h
    have hdigest := hash_of_survey p bs h.2
    rw [hdigest] at h
    exact ⟨(p.survey bs).last.covered, ⟨h.1, h.2, rfl⟩, hdigest⟩
  · intro h
    obtain ⟨signed, hcompletes, rfl⟩ := h
    exact ⟨hcompletes.1, hcompletes.2.1⟩

end Position

/-! ## Schedules -/

/-- A schedule sees the elements and comes to the hash exactly when the bytes do. -/
theorem Decoder.sees_iff_finishes {S : Type} [Layout S] {sigIndex : UInt16}
    {change : Option Address} {bs : Bytes} {cs : List Call}
    (h : (new sigIndex change : Decoder S).IsSchedule bs cs) (es : List Element) (hash : Digest) :
    (elementsSeen ((new sigIndex change : Decoder S).observe cs).1 = es ∧
        lastFinding ((new sigIndex change : Decoder S).observe cs).1 =
          some (.ok (.finished hash))) ↔
      (Position.start sigIndex change : Position S).Finishes bs es hash := by
  obtain ⟨-, helements, hlast, -⟩ := survey_of_isSchedule (live_new sigIndex change) h
  rw [helements, hlast, Option.some.injEq]
  rfl

end Countersign
