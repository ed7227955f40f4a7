import Countersign.Txn.Checked
import Countersign.Txn.Queue

/-!
# Accesses to the staging buffer

All that can be done to a buffer: a chunk is added, bytes are read or passed over, reading goes back
to the start, and what has been read is dropped. `Buffer.access` does it to a buffer, and
`Queue.access` to the bytes that wait in order of arrival, where there is no store. `Checked.access`
is the same on a machine, where numbers fit a word and bytes are taken from where they are.

What is seen of accesses in turn is what each of them comes to, and then the sizes of the buffer and
the bytes that have been read (`Access.observe`).
-/

namespace Countersign

/-- One thing that is done to a buffer. -/
inductive Access where
  /-- A chunk is added. -/
  | push (chunk : Bytes)
  /-- The next `n` bytes are passed over. -/
  | skip (n : UInt64)
  /-- The next byte is read. -/
  | byte
  /-- The next eight bytes are read as a number. -/
  | word
  /-- The next `n` bytes are read. -/
  | block (n : Nat)
  /-- The next `n` bytes are read where they lie. -/
  | range (n : UInt64)
  /-- Reading goes back to the start. -/
  | rewind
  /-- What has been read is dropped. -/
  | discard
deriving DecidableEq

namespace Access

/-- The number of bytes that an access hands over. -/
def length : Access → Nat
  | push chunk => chunk.length
  | _ => 0

/-- What an access comes to. -/
inductive Answer where
  | done
  /-- A chunk is refused. -/
  | refused (e : DecodeError)
  /-- Fewer bytes are unread than are to be read. -/
  | short
  | byte (v : UInt8)
  | word (v : UInt64)
  | block (bs : Bytes)
  /-- The bytes lie from the first position up to the second. -/
  | range (start stop : Nat) (bs : Bytes)
deriving DecidableEq

/-- What is seen of a buffer between accesses. -/
structure Look where
  length : Nat
  offset : Nat
  isEmpty : Bool
  isFull : Bool
  available : Nat
  readBytes : Bytes
deriving DecidableEq

variable {σ α : Type}

/-- What a chunk comes to; a refused one changes nothing. -/
def pushed (s : σ) : Except DecodeError σ → Answer × σ
  | .ok s' => (.done, s')
  | .error e => (.refused e, s)

/-- What a read comes to; a short one changes nothing. -/
def taken (s : σ) (answer : α → Answer) : Option (α × σ) → Answer × σ
  | some (a, s') => (answer a, s')
  | none => (.short, s)

/-- What is seen of accesses in turn, and what they leave. -/
def observe (access : σ → Access → Answer × σ) (look : σ → Look) (s : σ) :
    List Access → List (Answer × Look) × σ
  | [] => ([], s)
  | a :: as =>
    let (answer, s') := access s a
    let (rest, s'') := observe access look s' as
    ((answer, look s') :: rest, s'')

end Access

open Access (Answer Look)

namespace Buffer

/-- Does to a buffer what an access says. -/
def access (b : Buffer) : Access → Answer × Buffer
  | .push chunk => Access.pushed b (b.push chunk)
  | .skip n => Access.taken b (fun _ => .done) ((b.skip n.toNat).map ((), ·))
  | .byte => Access.taken b .byte b.takeByte
  | .word => Access.taken b .word b.takeWord
  | .block n => Access.taken b (fun x => .block x.bytes) (b.take n)
  | .range n => Access.taken b (fun r => .range r.1 r.2 (b.between r)) (b.takeRange n.toNat)
  | .rewind => (.done, b.rewind)
  | .discard => (.done, b.discard)

/-- What is seen of a buffer. -/
def look (b : Buffer) : Look :=
  ⟨b.length, b.offset, b.isEmpty, b.isFull, b.available, b.readBytes⟩

/-- What is seen of accesses to a buffer, and the buffer after them. -/
def observe (b : Buffer) (as : List Access) : List (Answer × Look) × Buffer :=
  Access.observe access look b as

end Buffer

namespace Queue

/-- Does to a queue what an access says. -/
def access (q : Queue) : Access → Answer × Queue
  | .push chunk => Access.pushed q (q.push chunk)
  | .skip n => Access.taken q (fun _ => .done) (q.take n.toNat)
  | .byte => Access.taken q .byte (q.bytes[q.offset]?.map (·, { q with offset := q.offset + 1 }))
  | .word => Access.taken q (fun bs => .word (wordOfBytes bs)) (q.take 8)
  | .block n => Access.taken q .block (q.take n)
  | .range n => Access.taken q (.range q.offset (q.offset + n.toNat)) (q.take n.toNat)
  | .rewind => (.done, q.rewind)
  | .discard => (.done, q.discard)

/-- What is seen of a queue. -/
def look (q : Queue) : Look :=
  ⟨q.bytes.length, q.offset, q.bytes.isEmpty, q.bytes.length == 510, 510 - q.bytes.length,
    q.bytes.take q.offset⟩

/-- What is seen of accesses to a queue, and the queue after them. -/
def observe (q : Queue) (as : List Access) : List (Answer × Look) × Queue :=
  Access.observe access look q as

end Queue

namespace Checked

/-- Does to a buffer what an access says. -/
def access (size : Nat) (b : Buffer) : Access → Option (Answer × Buffer)
  | .push chunk => (pushBuffer size b chunk).map (Access.pushed b)
  | .skip n => (take size b n.toNat).map (Access.taken b fun _ => .done)
  | .byte =>
    (take size b 1).map (Access.taken b fun x => .byte (UInt8.ofNat (ofLittleEndian x.bytes)))
  | .word => (take size b 8).map (Access.taken b fun x => .word (wordOfBytes x.bytes))
  | .block n => (take size b n).map (Access.taken b fun x => .block x.bytes)
  | .range n => do
    match ← take size b n.toNat with
    | none => some (.short, b)
    | some (_, b') =>
      let bytes ← slice b' b.offset (← sub b'.offset b.offset)
      some (.range b.offset b'.offset bytes.bytes, b')
  | .rewind => some (.done, b.rewind)
  | .discard => (discard b).map (.done, ·)

/-- What is seen of a buffer. -/
def look (b : Buffer) : Option Look := do
  let room ← sub Buffer.capacity b.length
  let element ← slice b 0 b.offset
  some ⟨b.length, b.offset, b.isEmpty, b.isFull, room, element.bytes⟩

/-- What is seen of accesses to a buffer, and the buffer after them. -/
def observeBuffer (size : Nat) (b : Buffer) :
    List Access → Option (List (Answer × Look) × Buffer)
  | [] => some ([], b)
  | a :: as => do
    let (answer, b') ← access size b a
    let seen ← look b'
    let (rest, b'') ← observeBuffer size b' as
    some ((answer, seen) :: rest, b'')

end Checked

end Countersign
