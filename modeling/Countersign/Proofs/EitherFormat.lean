import Countersign.Proofs.V1Grammar
import Countersign.Proofs.V2Grammar
import Countersign.Txn.Transaction

/-!
# Decoders of either format

What is known of a decoder that has seen a part of a transaction is its outlook: the elements and
the result that it will come to when some bytes follow.

* Handing a chunk over moves it from the bytes that follow to those that are held (`outlook_push`);
* an answer is the beginning of the outlook (`foretells_next`);
* a schedule sees the outlook (`outlook_of_isSchedule`);
* the outlook of a new decoder is a hash exactly when a transaction follows (`outlook_new_iff`).
-/

namespace Countersign

/-- The elements and the result that a decoder comes to when the bytes `more` follow. -/
def Decoder.outlook {S : Type} [Layout S] (d : Decoder S) (more : Bytes) :
    List Element × Except DecodeError Finding :=
  ((d.position.survey (d.held ++ more)).elements, (d.position.survey (d.held ++ more)).result)

namespace AnyDecoder

/-- Decoding goes on. -/
def Live : AnyDecoder → Prop
  | v1 d => d.Live
  | v2 d => d.Live

/-- The elements and the result that a decoder comes to when the bytes `more` follow. -/
def outlook : AnyDecoder → Bytes → List Element × Except DecodeError Finding
  | v1 d => d.outlook
  | v2 d => d.outlook

theorem live_new (format : Format) (sigIndex : UInt16) (change : Option Address) :
    (new format sigIndex change).Live := by
  rcases format with _ | _
  · exact Decoder.live_new sigIndex change
  · exact Decoder.live_new sigIndex change

/-! ## Chunks -/

/-- A chunk that is taken follows no more. -/
theorem outlook_push {d d' : AnyDecoder} (hd : d.Live) {chunk : Bytes}
    (h : d.push chunk = .ok d') :
    d'.Live ∧ ∀ more, d.outlook (chunk ++ more) = d'.outlook more := by
  rcases d with d | d
  all_goals
    rcases hpush : d.push chunk with e | d₁
    · rw [push, hpush] at h
      cases h
    · rw [push, hpush] at h
      obtain rfl := Except.ok.inj h
      obtain ⟨hlive, hposition, hheld⟩ := Decoder.live_of_push hd hpush
      refine ⟨hlive, fun more => ?_⟩
      show d.outlook (chunk ++ more) = d₁.outlook more
      rw [Decoder.outlook, Decoder.outlook, hposition, hheld, List.append_assoc]

/-! ## Answers -/

/-- An answer is the beginning of the outlook, and the outlook of what the decoder is left with is
the rest. -/
def Foretells (d : AnyDecoder) : Except DecodeError Finding × AnyDecoder → Prop
  | (.ok (.element e), d') =>
    d'.Live ∧ ∀ more, d.outlook more = (e :: (d'.outlook more).1, (d'.outlook more).2)
  | (.ok .needsMore, d') => d'.Live ∧ ∀ more, d.outlook more = d'.outlook more
  | (.ok (.finished hash), _) => ∀ more, d.outlook more = ([], .ok (.finished hash))
  | (.error e, _) => ∀ more, d.outlook more = ([], .error e)

theorem foretells_next {d : AnyDecoder} (hd : d.Live) : d.Foretells d.next := by
  rcases d with d | d
  all_goals
    have hanswer : ∀ more, d.Answers more d.next := fun more => Decoder.answers_next hd more
    -- the answer is the same whatever follows
    rw [next]
    generalize d.next = answer at hanswer
    rcases answer with ⟨_ | (_ | e | hash), d'⟩
    · intro more
      show d.outlook more = _
      rw [Decoder.outlook, (hanswer more).2]
    · refine ⟨(hanswer []).1, fun more => ?_⟩
      show d.outlook more = d'.outlook more
      rw [Decoder.outlook, (hanswer more).2.2.1, Decoder.outlook]
    · refine ⟨(hanswer []).1, fun more => ?_⟩
      show d.outlook more = (e :: (d'.outlook more).1, (d'.outlook more).2)
      rw [Decoder.outlook, (hanswer more).2]
      rfl
    · intro more
      show d.outlook more = _
      rw [Decoder.outlook, (hanswer more).2]

/-! ## Schedules -/

/-- A schedule sees the outlook. -/
theorem outlook_of_isSchedule {d : AnyDecoder} (hd : d.Live) {bs : Bytes} {cs : List Call}
    (h : d.IsSchedule bs cs) :
    elementsSeen (d.observe cs).1 = (d.outlook bs).1 ∧
      lastFinding (d.observe cs).1 = some (d.outlook bs).2 := by
  rcases d with d | d
  all_goals
    obtain ⟨-, helements, hlast, -⟩ := Decoder.survey_of_isSchedule hd h
    exact ⟨helements, hlast⟩

theorem exists_schedule {d : AnyDecoder} (hd : d.Live) (bs : Bytes) :
    ∃ cs, d.IsSchedule bs cs := by
  rcases d with d | d
  · exact Decoder.exists_isSchedule hd bs
  · exact Decoder.exists_isSchedule hd bs

/-! ## Transactions -/

/-- A new decoder comes to a hash exactly when the bytes begin with a transaction of its format. -/
theorem outlook_new_iff {format : Format} {sigIndex : UInt16} {change : Option Address}
    {bs : Bytes} {es : List Element} {hash : Digest} :
    (new format sigIndex change).outlook bs = (es, .ok (.finished hash)) ↔
      ∃ (t : AnyTransaction) (rest : Bytes), t.format = format ∧ t.Fits ∧
        t.HasSignature sigIndex.toNat ∧ bs = t.encode ++ rest ∧ es = t.elements change ∧
        hash = Blake2b.digest (t.covered sigIndex.toNat) := by
  rw [Prod.ext_iff]
  -- each format has its own grammar, and a transaction of the other one is not in question
  rcases format with _ | _
  · show (Position.start sigIndex change : Position V1.Section).Finishes bs es hash ↔ _
    rw [V1.finishes_start]
    apply Iff.intro
    · intro h
      obtain ⟨t, rest, ht, hindex, hbs, hes, hhash⟩ := h
      exact ⟨.v1 t, rest, rfl, ht, hindex, hbs, hes, hhash⟩
    · intro h
      obtain ⟨t | t, rest, hformat, ht, hindex, hbs, hes, hhash⟩ := h
      · exact ⟨t, rest, ht, hindex, hbs, hes, hhash⟩
      · cases hformat
  · show (Position.start sigIndex change : Position V2.Section).Finishes bs es hash ↔ _
    rw [V2.finishes_start]
    apply Iff.intro
    · intro h
      obtain ⟨t, rest, ht, hbs, hes, hhash⟩ := h
      exact ⟨.v2 t, rest, rfl, ht, trivial, hbs, hes, hhash⟩
    · intro h
      obtain ⟨t | t, rest, hformat, ht, -, hbs, hes, hhash⟩ := h
      · cases hformat
      · exact ⟨t, rest, ht, hbs, hes, hhash⟩

end AnyDecoder

/-! ## Payments -/

/-- The elements of one kind are its payments without those of change, in order. -/
theorem map_payment_shownFrom (change : Option Address) (n : Nat) (ps : List Payment) :
    (shownFrom change n ps).map Element.payment = ps.filter fun p => p.IsShown change := by
  induction ps generalizing n with
  | nil => rfl
  | cons p ps ih =>
    rw [shownFrom]
    by_cases hp : p.IsShown change
    · rw [if_pos hp, List.map_cons, ih, List.filter_cons_of_pos (by simpa using hp)]
      rfl
    · rw [if_neg hp, ih, List.filter_cons_of_neg (by simpa using hp)]

/-- The elements of a transaction are its payments without those of change, in order. -/
theorem AnyTransaction.map_payment_elements (t : AnyTransaction) (change : Option Address) :
    (t.elements change).map Element.payment = t.payments.filter fun p => p.IsShown change := by
  rcases t with t | t
  · simp only [elements, V1.Transaction.elements, shownPayments, List.map_append,
      map_payment_shownFrom, payments, V1.Transaction.payments, List.filter_append]
  · simp only [elements, V2.Transaction.elements, shownPayments, List.map_append,
      map_payment_shownFrom, payments, V2.Transaction.payments, List.filter_append]

end Countersign
