import Countersign.Txn.Schedule

/-!
# The decoder on a machine

The decoder of this library counts without bounds, and where its store has ended it reads zeros. On
a machine the numbers that fit a word are those below some `size`; there are none below zero, and
bytes can only be taken from where they are.

`Checked` is the decoder on a machine. Each of its functions is that of the decoder with these
conditions made explicit, and comes to nothing (`none`) where one of them fails. It also comes to
nothing where the decoder would read an entry of a section that can have none, and where a step
gets no further. One thing it keeps that the decoder drops: when decoding ends with an error, the
offset stays where the reader has left it.
-/

namespace Countersign

/-- A layout that tells at which places there are no entries: a header that leads there has a count
of zero, and an entry would be refused unread. -/
class Layout.Bare (S : Type) [Layout S] where
  /-- The place is ahead of the first section, or its section can have no entries. -/
  isBare : S → Bool
  count_header : ∀ {i : UInt16} {s t : S} {b rest : Buffer} {h : Header}, Layout.next? s = some t →
    isBare t = true → (Layout.header i t).run b = .complete h rest → h.count = 0
  entry_eq : ∀ {i : UInt16} {s : S} {k : UInt64}, isBare s = true →
    Layout.entry i s k = .refuse .nonEmptySection

/-- The number of bytes that a call hands over. -/
def Call.length : Call → Nat
  | .push chunk => chunk.length
  | .next => 0

namespace Checked

/-! ## Numbers and bytes -/

/-- A number that fits a word. -/
def word (size n : Nat) : Option Nat := if n < size then some n else none

/-- A sum that fits a word. -/
def add (size m n : Nat) : Option Nat := word size (m + n)

/-- A difference that is not less than zero. -/
def sub (m n : Nat) : Option Nat := if n ≤ m then some (m - n) else none

/-- The number after this one, if it fits 64 bits. -/
def succ (k : UInt64) : Option UInt64 := if k.toNat + 1 < UInt64.size then some (k + 1) else none

/-- The first `n` bytes of a string that has as many. -/
def front (bs : Bytes) (n : Nat) : Option Bytes :=
  if n ≤ bs.length then some (bs.take n) else none

/-- The `n` bytes from position `i` of a store that has as many. -/
def slice (b : Buffer) (i n : Nat) : Option (Block n) :=
  if i + n ≤ Buffer.capacity then some ⟨b.slice i n, b.length_slice i n⟩ else none

/-- A store that has room for the bytes from position `i` on, with the bytes written there. -/
def write (store : Vector UInt8 510) (i : Nat) (bs : Bytes) : Option (Vector UInt8 510) :=
  if i + bs.length ≤ Buffer.capacity then some (Buffer.overwrite store i bs) else none

/-! ## The buffer -/

/-- Adds a chunk at the end and goes back to the start, or refuses a chunk there is no room for. -/
def pushBuffer (size : Nat) (b : Buffer) (chunk : Bytes) : Option (Except DecodeError Buffer) := do
  let length ← add size b.length chunk.length
  if length > Buffer.capacity then
    some (.error .capacity)
  else
    let store ← write b.store b.length chunk
    some (.ok ⟨store, length, 0⟩)

/-- Reads the next `n` bytes, if as many are unread. -/
def take (size : Nat) (b : Buffer) (n : Nat) : Option (Option (Block n × Buffer)) := do
  let unread ← sub b.length b.offset
  if unread < n then
    some none
  else
    let count ← word size n
    let bytes ← slice b b.offset n
    let offset ← add size b.offset count
    some (some (bytes, { b with offset }))

/-- Drops the bytes that have been read. -/
def discard (b : Buffer) : Option Buffer := do
  let unread ← sub b.length b.offset
  let bytes ← slice b b.offset unread
  let store ← write b.store 0 bytes.bytes
  some ⟨store, unread, 0⟩

/-- The room left for the next chunk. -/
def available {S : Type} (d : Decoder S) : Option Nat := sub Buffer.capacity d.buffer.length

/-- What a reader comes to, and the buffer as the reader leaves it. -/
def run {α : Type} (size : Nat) : Reader α → Buffer → Option (Reader.Outcome Buffer α × Buffer)
  | .done a, b => some (.complete a b, b)
  | .refuse e, b => some (.refused e, b)
  | .take n next, b =>
    match take size b n with
    | none => none
    | some none => some (.short, b)
    | some (some (x, rest)) => run size (next x) rest

/-! ## The transcript -/

/-- Writes the covered part of an element, of which a part in front goes no further than the
element. -/
def record (t : Transcript) (element : Bytes) (cover : Coverage) :
    Option (Except DecodeError Transcript) :=
  match cover with
  | .all => some (t.write element)
  | .front n => (front element (min n element.length)).map t.write
  | .nothing => some (.ok t)

/-- Writes the covered part of what has been read, and drops what has been read. -/
def advance (t : Transcript) (cover : Coverage) (b : Buffer) :
    Option (Except DecodeError (Transcript × Buffer)) := do
  let element ← slice b 0 b.offset
  match ← record t element.bytes cover with
  | .error e => some (.error e)
  | .ok t' =>
    let b' ← discard b
    some (.ok (t', b'))

/-! ## Decoding -/

variable {S : Type} [Layout S]

/-- Goes on to section `s`, whose header has been read up to the offset of `rest`. -/
def enter (d : Decoder S) (s : S) (h : Header) (rest : Buffer) : Option (Decoder.Step S) := do
  match ← advance d.transcript h.cover rest with
  | .error e => some (.fails e)
  | .ok (transcript, buffer) =>
    some (.hidden { d with
      buffer, transcript, place := s, count := h.count, index := 0, shown := 0 })

/-- Takes an entry, which has been read up to the offset of `rest`, and shows what it pays unless
it pays the change address. -/
def complete (d : Decoder S) (entry : Entry) (rest : Buffer) : Option (Decoder.Step S) := do
  match d.transcript.write entry.lead with
  | .error e => some (.fails e)
  | .ok transcript =>
    match ← advance transcript entry.cover rest with
    | .error e => some (.fails e)
    | .ok (transcript, buffer) =>
      let index ← succ d.index
      let d := { d with buffer, transcript, index }
      match entry.payment with
      | none => some (.hidden d)
      | some payment =>
        if payment.address.isSome ∧ payment.address = d.change then some (.hidden d)
        else
          let shown := Decoder.number d.shown
          some (.shows (payment.numbered shown) { d with shown })

/-- Reads the next entry, or the header of the next section, or closes the transcript; also gives
the buffer as the reader leaves it. -/
def step [Layout.Bare S] (size : Nat) (d : Decoder S) : Option (Decoder.Step S × Buffer) :=
  if d.index = d.count then
    match Layout.next? d.place with
    | none =>
      match d.transcript.close with
      | .error e => some (.fails e, d.buffer)
      | .ok (hash, transcript) => some (.ends hash { d with transcript }, d.buffer)
    | some s => do
      match ← run size (Layout.header d.sigIndex s) d.buffer with
      | (.complete h rest, left) => (enter d s h rest).map (·, left)
      | (.short, left) => some (.waits, left)
      | (.refused e, left) => some (.fails e, left)
  else if Layout.Bare.isBare d.place then
    none
  else do
    match ← run size (Layout.entry d.sigIndex d.place d.index) d.buffer with
    | (.complete entry rest, left) => (complete d entry rest).map (·, left)
    | (.short, left) => some (.waits, left)
    | (.refused e, left) => some (.fails e, left)

/-- Decodes up to the next element to show, the end of the buffered bytes, or the end of the
transaction. -/
def next [Layout.Bare S] (size : Nat) (d : Decoder S) :
    Option (Except DecodeError Finding × Decoder S) :=
  match d.outcome with
  | some (.error e) => some (.error e, d)
  | some (.ok hash) => some (.ok (.finished hash), d)
  | none => do
    match ← step size d with
    | (.hidden d', _) => if _h : d'.measure < d.measure then next size d' else none
    | (.shows e d', _) => some (.ok (.element e), d')
    | (.ends hash d', _) => some (.ok (.finished hash), { d' with outcome := some (.ok hash) })
    | (.waits, left) =>
      let d' := { d with buffer := left.rewind }
      if d'.buffer.isFull then some (d'.fail .bufferExhausted) else some (.ok .needsMore, d')
    | (.fails e, left) => some (Decoder.fail { d with buffer := left } e)
termination_by d.measure
decreasing_by exact _h

/-- Receives a chunk; refused when decoding has ended or when there is no room for all of it. -/
def push (size : Nat) (d : Decoder S) (chunk : Bytes) :
    Option (Except DecodeError (Decoder S)) :=
  match d.outcome with
  | some (.error e) => some (.error e)
  | some (.ok _) => some (.error .finalized)
  | none => (pushBuffer size d.buffer chunk).map fun r => r.map fun buffer => { d with buffer }

/-- The decoder after a call, and what is seen of the call; a refused chunk changes nothing. -/
def call [Layout.Bare S] (size : Nat) (d : Decoder S) (c : Call) : Option (Sight × Decoder S) :=
  match c with
  | .push chunk => do
    match ← push size d chunk with
    | .ok d' => some (.pushed (.ok ()), d')
    | .error e => some (.pushed (.error e), d)
  | .next => (next size d).map fun (r, d') => (.found r, d')

/-- The decoder after a schedule, and what is seen of its calls. -/
def observe [Layout.Bare S] (size : Nat) (d : Decoder S) :
    List Call → Option (List Sight × Decoder S)
  | [] => some ([], d)
  | c :: cs => do
    let (seen, d') ← call size d c
    let (rest, d'') ← observe size d' cs
    some (seen :: rest, d'')

end Checked

end Countersign
