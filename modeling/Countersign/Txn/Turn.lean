import Countersign.Txn.Schedule
import Countersign.Txn.Transaction

/-!
# Turns, and what hiding change amounts to

A driver takes turns: it hands a chunk over, or it asks for findings until it gets one that is not
an element. `play` is what it sees of some turns: the answers, the sections and the room after each
of them, and all the elements.

A decoder that hides the outputs to one address should differ from one that hides nothing in the
elements alone, and these should be the elements of the other `withoutChange`: the outputs to the
address are left out, and the rest is numbered anew.
-/

namespace Countersign

/-! ## Numbers of elements -/

/-- The payments with their numbers among those of their kind, when the payments `before` are ahead
of them; no number goes past 65535. -/
def numberedFrom (before : List Payment) : List Payment → List Element
  | [] => []
  | p :: ps =>
    ⟨p.kind, UInt16.ofNat (min (before.countP (fun q => q.kind = p.kind) + 1) 65535), p.value,
      p.address⟩ :: numberedFrom (before ++ [p]) ps

/-- The payments with their numbers among those of their kind, from 1 on. -/
def numberedAll (ps : List Payment) : List Element := numberedFrom [] ps

/-- An output to the address; a fee is never one. -/
def Payment.IsChange (a : Address) (p : Payment) : Prop :=
  (p.kind = .siacoinOutput ∨ p.kind = .siafundOutput) ∧ p.address = some a

instance (a : Address) (p : Payment) : Decidable (p.IsChange a) :=
  inferInstanceAs (Decidable (_ ∧ _))

/-- The elements but for the outputs to the address, numbered anew. -/
def withoutChange (a : Address) (es : List Element) : List Element :=
  numberedAll ((es.filter fun e => ¬ e.payment.IsChange a).map Element.payment)

/-! ## Turns -/

/-- What a driver does in one go. -/
inductive Turn where
  /-- A chunk is handed over. -/
  | push (chunk : Bytes)
  /-- Findings are asked for until one is not an element. -/
  | drain

/-- What is seen of a decoder after a turn, apart from its elements. -/
structure Glance (S : Type) where
  /-- The answer to the chunk, or the last finding. -/
  sight : Sight
  place : S
  available : Nat

namespace Decoder

variable {S : Type} [Layout S]

/-- Asks for findings until one is not an element: the elements, the last finding, and the decoder
after it. -/
def drain (d : Decoder S) : List Element × Except DecodeError Finding × Decoder S :=
  match _h : d.next with
  | (.ok (.element e), d') =>
    let (es, r, d'') := d'.drain
    (e :: es, r, d'')
  | (r, d') => ([], r, d')
termination_by d.measure
decreasing_by exact measure_next _h

theorem drain_of_element {d d' : Decoder S} {e : Element} (h : d.next = (.ok (.element e), d')) :
    d.drain = (e :: d'.drain.1, d'.drain.2) := by
  rw [drain]
  split
  · next heq =>
    rw [h] at heq
    cases heq
    rfl
  · next hother heq =>
    rw [h] at heq
    cases heq
    exact (hother e rfl).elim

theorem drain_of_last {d d' : Decoder S} {r : Except DecodeError Finding} (h : d.next = (r, d'))
    (hr : ∀ e, r ≠ .ok (.element e)) : d.drain = ([], r, d') := by
  rw [drain]
  split
  · next heq =>
    rw [h] at heq
    cases heq
    exact (hr _ rfl).elim
  · next heq =>
    rw [h] at heq
    cases heq
    rfl

/-- What comes of a turn: the elements, the answer, and the decoder after it. -/
def turn (d : Decoder S) (t : Turn) : List Element × Sight × Decoder S :=
  match t with
  | .push chunk => ([], d.call (.push chunk))
  | .drain =>
    let (es, r, d') := d.drain
    (es, .found r, d')

/-- What is seen of a decoder in some turns: a glance after each of them, and all the elements. -/
def play (d : Decoder S) : List Turn → List (Glance S) × List Element
  | [] => ([], [])
  | t :: ts =>
    let (es, sight, d') := d.turn t
    let (glances, es') := d'.play ts
    (⟨sight, d'.place, d'.available⟩ :: glances, es ++ es')

end Decoder

/-- What is seen of a decoder of either format in some turns. -/
def AnyDecoder.play (d : AnyDecoder) (ts : List Turn) :
    List (Glance (V1.Section ⊕ V2.Section)) × List Element :=
  match d with
  | v1 d =>
    let (glances, es) := d.play ts
    (glances.map fun g => { g with place := .inl g.place }, es)
  | v2 d =>
    let (glances, es) := d.play ts
    (glances.map fun g => { g with place := .inr g.place }, es)

end Countersign
