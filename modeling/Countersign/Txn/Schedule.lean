import Countersign.Txn.Format

/-!
# Schedules

A decoder is driven by chunks and by requests for the next finding, in any order; `observe` is all
that its driver sees. A schedule over a byte string is such a sequence that hands all of it over, in
chunks for which there is room, and stops when the decoder does.
-/

namespace Countersign

/-- One thing that is done to a decoder. -/
inductive Call where
  /-- A chunk is handed over. -/
  | push (chunk : Bytes)
  /-- The next finding is asked for. -/
  | next
deriving DecidableEq

/-- What is seen of a call. -/
inductive Sight where
  /-- The answer to a chunk. -/
  | pushed (r : Except DecodeError Unit)
  /-- The next finding. -/
  | found (r : Except DecodeError Finding)

/-- The finding among what is seen. -/
def Sight.finding? : Sight → Option (Except DecodeError Finding)
  | .pushed _ => none
  | .found r => some r

/-- The elements that are seen, in order. -/
def elementsSeen (sights : List Sight) : List Element :=
  sights.filterMap fun sight =>
    match sight with
    | .found (.ok (.element e)) => some e
    | _ => none

/-- The last finding that is seen. -/
def lastFinding (sights : List Sight) : Option (Except DecodeError Finding) :=
  (sights.filterMap Sight.finding?).getLast?

namespace Decoder

variable {S : Type} [Layout S]

/-- The decoder after a call, and what is seen of the call; a refused chunk changes nothing. -/
def call (d : Decoder S) (c : Call) : Sight × Decoder S :=
  match c with
  | .push chunk =>
    match d.push chunk with
    | .ok d' => (.pushed (.ok ()), d')
    | .error e => (.pushed (.error e), d)
  | .next =>
    let (r, d') := d.next
    (.found r, d')

/-- The decoder after a schedule, and what is seen of its calls. -/
def observe (d : Decoder S) : List Call → List Sight × Decoder S
  | [] => ([], d)
  | c :: cs =>
    let (seen, d') := d.call c
    let (rest, d'') := d'.observe cs
    (seen :: rest, d'')

/-- The states that a decoder can come to. -/
def Reachable (d : Decoder S) : Prop :=
  ∃ sigIndex change calls, d = ((Decoder.new sigIndex change).observe calls).2

/-- The calls hand over the bytes in chunks, each no longer than the room there is for it, with any
number of requests in between. They stop at the first hash or error, and otherwise with a request
that finds the next element not complete when all bytes are there. -/
def IsSchedule (d : Decoder S) (bs : Bytes) : List Call → Prop
  | [] => False
  | .push chunk :: cs =>
    chunk <+: bs ∧ chunk.length ≤ d.available ∧
      IsSchedule (d.call (.push chunk)).2 (bs.drop chunk.length) cs
  | .next :: cs =>
    match d.next with
    | (.error _, _) => cs = []
    | (.ok (.finished _), _) => cs = []
    | (.ok .needsMore, d') => (bs = [] ∧ cs = []) ∨ IsSchedule d' bs cs
    | (.ok (.element _), d') => IsSchedule d' bs cs

instance decidableIsSchedule (d : Decoder S) (bs : Bytes) :
    (cs : List Call) → Decidable (d.IsSchedule bs cs)
  | [] => inferInstanceAs (Decidable False)
  | .push chunk :: cs =>
    have := decidableIsSchedule (d.call (.push chunk)).2 (bs.drop chunk.length) cs
    inferInstanceAs (Decidable (_ ∧ _ ∧ _))
  | .next :: cs =>
    show Decidable (match d.next with
      | (.error _, _) => cs = []
      | (.ok (.finished _), _) => cs = []
      | (.ok .needsMore, d') => (bs = [] ∧ cs = []) ∨ IsSchedule d' bs cs
      | (.ok (.element _), d') => IsSchedule d' bs cs) from
    match d.next with
    | (.error _, _) => inferInstanceAs (Decidable (cs = []))
    | (.ok (.finished _), _) => inferInstanceAs (Decidable (cs = []))
    | (.ok .needsMore, d') =>
      have := decidableIsSchedule d' bs cs
      inferInstanceAs (Decidable (_ ∨ _))
    | (.ok (.element _), d') => decidableIsSchedule d' bs cs

end Decoder

namespace AnyDecoder

/-- The decoder after a schedule, and what is seen of its calls. -/
def observe (d : AnyDecoder) (cs : List Call) : List Sight × AnyDecoder :=
  match d with
  | v1 d => let (seen, d) := d.observe cs; (seen, v1 d)
  | v2 d => let (seen, d) := d.observe cs; (seen, v2 d)

/-- The calls are a schedule over the bytes for the decoder inside. -/
def IsSchedule (d : AnyDecoder) (bs : Bytes) (cs : List Call) : Prop :=
  match d with
  | v1 d => d.IsSchedule bs cs
  | v2 d => d.IsSchedule bs cs

end AnyDecoder

end Countersign
