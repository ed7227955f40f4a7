import Countersign.Message.Request
import Countersign.Proofs.Numbers
import Countersign.Signer.Reply

/-!
# Messages survive the wire

A message that has been written is read back as it was. The argument goes field by field, as writing
and reading do:

* to write two fields is to write their bytes, one behind the other (`Print.followedBy_bytes`), so
  every message is written as one byte string, all of it or not at all;
* a scan that reads the bytes of a field, whatever follows, and nothing shorter, can be followed by
  the scan of the next field (`Scan.Reads.bind`).

So each message type needs the bytes of its fields only. The two messages that bring data of a
transaction end where the bytes end; all others have one length, and are read the same with other
bytes behind them.
-/

namespace Countersign

/-! ## Writing -/

namespace Print

variable {p q : Print} {buffer buffer' behind bs cs : Bytes} {n m : Nat} {e : CodecError}

theorem bytes_of_le (h : bs.length ≤ buffer.length) :
    bytes bs buffer = .ok (bs.length, bs ++ buffer.drop bs.length) :=
  if_neg (Nat.not_lt_of_le h)

theorem bytes_of_lt (h : buffer.length < bs.length) : bytes bs buffer = .error .invalidLength :=
  if_pos h

theorem followedBy_of_ok (hp : p buffer = .ok (n, buffer'))
    (hq : q (buffer'.drop n) = .ok (m, behind)) :
    p.followedBy q buffer = .ok (n + m, buffer'.take n ++ behind) := by
  simp only [followedBy, hp, hq, bind, Except.bind, pure, Except.pure]

theorem followedBy_of_first (hp : p buffer = .error e) : p.followedBy q buffer = .error e := by
  simp only [followedBy, hp, bind, Except.bind]

theorem followedBy_of_second (hp : p buffer = .ok (n, buffer'))
    (hq : q (buffer'.drop n) = .error e) : p.followedBy q buffer = .error e := by
  simp only [followedBy, hp, hq, bind, Except.bind]

theorem nothing_eq : nothing = bytes [] := rfl

/-- Two byte strings, one behind the other, are one. -/
theorem followedBy_bytes (bs cs : Bytes) : (bytes bs).followedBy (bytes cs) = bytes (bs ++ cs) := by
  funext buffer
  have hdrop : (bs ++ buffer.drop bs.length).drop bs.length = buffer.drop bs.length :=
    List.drop_left
  have htake : (bs ++ buffer.drop bs.length).take bs.length = bs := List.take_left
  have hlength : (bs ++ cs).length = bs.length + cs.length := List.length_append
  have hleft : (buffer.drop bs.length).length = buffer.length - bs.length := List.length_drop
  by_cases hfirst : buffer.length < bs.length
  · rw [followedBy_of_first (bytes_of_lt hfirst), bytes_of_lt (by omega)]
  · have hbs := bytes_of_le (Nat.le_of_not_lt hfirst)
    by_cases hsecond : (buffer.drop bs.length).length < cs.length
    · rw [followedBy_of_second hbs (by rw [hdrop, bytes_of_lt hsecond]), bytes_of_lt (by omega)]
    · have hcs := bytes_of_le (Nat.le_of_not_lt hsecond)
      rw [followedBy_of_ok hbs (by rw [hdrop, hcs]), bytes_of_le (by omega), htake, hlength,
        List.drop_drop, List.append_assoc]

/-- Room for all of a byte string is room for it. -/
theorem within_bytes (h : bs.length = n) : within n (bytes bs) = bytes bs := by
  funext buffer
  by_cases hroom : buffer.length < n
  · rw [within, if_pos hroom, bytes_of_lt (by rwa [h])]
  · rw [within, if_neg hroom]

end Print

/-! ## Reading -/

namespace Scan

variable {α β : Type} {m : Scan α} {f : α → Scan β} {bs cs left : Bytes} {a : α} {b : β}
  {e : CodecError}

/-- The scan reads the bytes `bs` as `a`, whatever is behind them, and fails on any beginning of
them. -/
structure Reads (m : Scan α) (bs : Bytes) (a : α) : Prop where
  append : ∀ more, m.run (bs ++ more) = .ok (a, more)
  short : ∀ k < bs.length, ∃ e, m.run (bs.take k) = .error e

theorem bind_of_ok (h : m.run bs = .ok (a, left)) : (m >>= f).run bs = (f a).run left := by
  rw [StateT.run_bind, h]
  rfl

theorem bind_of_error (h : m.run bs = .error e) : (m >>= f).run bs = .error e := by
  rw [StateT.run_bind, h]
  rfl

theorem reads_pure (a : α) : Reads (pure a) [] a :=
  ⟨fun _ => rfl, fun k hk => absurd hk (Nat.not_lt_zero k)⟩

/-- Two fields, one behind the other, are read one after the other. -/
theorem Reads.bind (hm : m.Reads bs a) (hf : (f a).Reads cs b) : (m >>= f).Reads (bs ++ cs) b := by
  constructor
  · intro more
    rw [List.append_assoc, bind_of_ok (hm.append _), hf.append]
  · intro k hk
    rw [List.length_append] at hk
    by_cases hshort : k < bs.length
    · obtain ⟨e, he⟩ := hm.short k hshort
      refine ⟨e, ?_⟩
      rw [List.take_append_of_le_length (Nat.le_of_lt hshort), bind_of_error he]
    · obtain ⟨e, he⟩ := hf.short (k - bs.length) (by omega)
      refine ⟨e, ?_⟩
      rw [List.take_append, List.take_of_length_le (Nat.le_of_not_lt hshort),
        bind_of_ok (hm.append _), he]

/-- What is made of a field is read from the bytes of the field. -/
theorem Reads.map (hm : m.Reads bs a) (g : α → β) : (m >>= fun a => pure (g a)).Reads bs (g a) := by
  have hreads := hm.bind (f := fun a => pure (g a)) (reads_pure (g a))
  rwa [List.append_nil] at hreads

/-- A block is there when its bytes are. -/
theorem run_block (n : Nat) (bs : Bytes) :
    (block n).run bs =
      if h : n ≤ bs.length then .ok (⟨bs.take n, List.length_take_of_le h⟩, bs.drop n)
      else .error .invalidLength := rfl

theorem reads_block {n : Nat} (b : Block n) : (block n).Reads b.bytes b := by
  constructor
  · intro more
    have hle : n ≤ (b.bytes ++ more).length := by
      rw [List.length_append, b.length_bytes]
      omega
    have htake : (b.bytes ++ more).take n = b.bytes := List.take_left' b.length_bytes
    have hdrop : (b.bytes ++ more).drop n = more := List.drop_left' b.length_bytes
    rw [run_block, dif_pos hle]
    simp only [htake, hdrop]
  · intro k hk
    have hnle : ¬ n ≤ (b.bytes.take k).length := by
      rw [List.length_take]
      rw [b.length_bytes] at hk ⊢
      omega
    exact ⟨_, by rw [run_block, dif_neg hnle]⟩

/-- A number that fits is read from its bytes. -/
theorem reads_number {n v : Nat} (h : v < 256 ^ n) : (number n).Reads (littleEndian n v) v := by
  have hreads := (reads_block ⟨littleEndian n v, length_littleEndian n v⟩).map
    fun b => ofLittleEndian b.bytes
  rwa [ofLittleEndian_littleEndian, Nat.mod_eq_of_lt h] at hreads

theorem reads_byte (v : UInt8) : byte.Reads [v] v := by
  have hreads := (reads_number (n := 1) v.toNat_lt).map UInt8.ofNat
  rw [UInt8.ofNat_toNat] at hreads
  have hbytes : littleEndian 1 v.toNat = [v] := by rw [littleEndian, UInt8.ofNat_toNat]; rfl
  rwa [hbytes] at hreads

theorem reads_half (v : UInt16) : half.Reads (littleEndian 2 v.toNat) v := by
  have hreads := (reads_number (n := 2) v.toNat_lt).map UInt16.ofNat
  rwa [UInt16.ofNat_toNat] at hreads

theorem reads_quarter (v : UInt32) : quarter.Reads (littleEndian 4 v.toNat) v := by
  have hreads := (reads_number (n := 4) v.toNat_lt).map UInt32.ofNat
  rwa [UInt32.ofNat_toNat] at hreads

end Scan

/-! ## Messages -/

namespace Codec

/-- `print` writes the bytes `written`: to the front of every buffer that has room for them, and
without touching what is behind. On any other buffer it fails. -/
structure Writes (print : Print) (written : Bytes) : Prop where
  fits : ∀ buffer, written.length ≤ buffer.length →
    print buffer = .ok (written.length, written ++ buffer.drop written.length)
  refuses : ∀ buffer, buffer.length < written.length → ∃ e, print buffer = .error e

theorem writes_bytes (bs : Bytes) : Writes (Print.bytes bs) bs :=
  ⟨fun _ => Print.bytes_of_le, fun _ h => ⟨_, Print.bytes_of_lt h⟩⟩

variable {α : Type} [Codec α] {print : Print} {size : Nat} {bs : Bytes} {a : α}

/-- What `print` writes takes `size` bytes, and they are read as `a`. -/
def Conveys (print : Print) (size : Nat) (a : α) : Prop :=
  ∃ written : Bytes, written.length = size ∧ Writes print written ∧
    decode written = .ok (a, size)

/-- What `print` writes takes `size` bytes. They are read as `a`, also when other bytes are behind
them, and no beginning of them is read as anything. -/
def ConveysFixed (print : Print) (size : Nat) (a : α) : Prop :=
  ∃ written : Bytes, written.length = size ∧ Writes print written ∧
    (∀ more, decode (written ++ more) = .ok (a, size)) ∧
    ∀ k < size, ∃ e, (decode (written.take k) : Except CodecError (α × Nat)) = .error e

theorem decode_of_run {left : Bytes} (h : (scan : Scan α).run bs = .ok (a, left)) :
    decode bs = .ok (a, bs.length - left.length) := by
  rw [decode, h]
  rfl

theorem decode_of_error {e : CodecError} (h : (scan : Scan α).run bs = .error e) :
    (decode bs : Except CodecError (α × Nat)) = .error e := by
  rw [decode, h]
  rfl

/-- A message that is written as the bytes that it is read from is conveyed. -/
theorem conveysFixed_of_reads (hprint : print = Print.bytes bs) (hsize : bs.length = size)
    (hreads : (scan : Scan α).Reads bs a) : ConveysFixed print size a := by
  subst hprint hsize
  refine ⟨bs, rfl, writes_bytes bs, fun more => ?_, fun k hk => ?_⟩
  · rw [decode_of_run (hreads.append more), List.length_append, Nat.add_sub_cancel]
  · obtain ⟨e, he⟩ := hreads.short k hk
    exact ⟨e, decode_of_error he⟩

end Codec

/-! ## Messages of one length -/

theorem VersionRequest.conveyed (r : VersionRequest) :
    Codec.ConveysFixed (Codec.write r) (Codec.size r) r :=
  Codec.conveysFixed_of_reads Print.nothing_eq rfl (Scan.reads_pure r)

namespace KeyRequest

theorem reads_scan (r : KeyRequest) :
    (Codec.scan : Scan KeyRequest).Reads (littleEndian 4 r.keyIndex.toNat) r :=
  (Scan.reads_quarter r.keyIndex).map mk

theorem conveyed (r : KeyRequest) : Codec.ConveysFixed (Codec.write r) (Codec.size r) r :=
  Codec.conveysFixed_of_reads rfl (length_littleEndian _ _) r.reads_scan

end KeyRequest

namespace HashRequest

theorem reads_scan (r : HashRequest) :
    (Codec.scan : Scan HashRequest).Reads (littleEndian 4 r.keyIndex.toNat ++ r.hash.bytes) r :=
  (Scan.reads_quarter r.keyIndex).bind
    (f := fun keyIndex => do return mk keyIndex (← Scan.block 32))
    ((Scan.reads_block r.hash).map (mk r.keyIndex))

theorem write_eq (r : HashRequest) :
    Codec.write r = Print.bytes (littleEndian 4 r.keyIndex.toNat ++ r.hash.bytes) :=
  Print.followedBy_bytes _ _

theorem length_written (r : HashRequest) :
    (littleEndian 4 r.keyIndex.toNat ++ r.hash.bytes).length = 36 := by
  rw [List.length_append, length_littleEndian, r.hash.length_bytes]

theorem conveyed (r : HashRequest) : Codec.ConveysFixed (Codec.write r) (Codec.size r) r :=
  Codec.conveysFixed_of_reads r.write_eq r.length_written r.reads_scan

end HashRequest

theorem Version.conveyed (v : Version) : Codec.ConveysFixed (Codec.write v) (Codec.size v) v := by
  have hreads := (Scan.reads_byte v.major).bind
    (f := fun major => do return Version.mk major (← Scan.byte) (← Scan.byte))
    ((Scan.reads_byte v.minor).bind ((Scan.reads_byte v.patch).map (Version.mk v.major v.minor)))
  have hprint : Codec.write v = Print.bytes ([v.major] ++ ([v.minor] ++ [v.patch])) := by
    show ((Print.bytes _).followedBy (Print.bytes _)).followedBy (Print.bytes _) = _
    rw [Print.followedBy_bytes, Print.followedBy_bytes, List.append_assoc]
  exact Codec.conveysFixed_of_reads hprint rfl hreads

theorem KeyResponse.conveyed (r : KeyResponse) :
    Codec.ConveysFixed (Codec.write r) (Codec.size r) r := by
  have hreads := (Scan.reads_block r.publicKey).bind
    (f := fun key => do return KeyResponse.mk key (← Scan.block 76))
    ((Scan.reads_block r.address).map (KeyResponse.mk r.publicKey))
  have hlength : (r.publicKey.bytes ++ r.address.bytes).length = 108 := by
    rw [List.length_append, r.publicKey.length_bytes, r.address.length_bytes]
  exact Codec.conveysFixed_of_reads (Print.followedBy_bytes _ _) hlength hreads

theorem SignatureResponse.conveyed (r : SignatureResponse) :
    Codec.ConveysFixed (Codec.write r) (Codec.size r) r :=
  Codec.conveysFixed_of_reads rfl r.signature.length_bytes
    ((Scan.reads_block r.signature).map SignatureResponse.mk)

theorem HashResponse.conveyed (r : HashResponse) :
    Codec.ConveysFixed (Codec.write r) (Codec.size r) r :=
  Codec.conveysFixed_of_reads rfl r.hash.length_bytes
    ((Scan.reads_block r.hash).map HashResponse.mk)

namespace Phase

/-- A phase is found by its code. -/
theorem ofCode?_code (p : Phase) : ofCode? p.code = some p := by
  cases p <;> rfl

theorem reads_scan (p : Phase) : (Codec.scan : Scan Phase).Reads [p.code] p := by
  show (Scan.byte >>= _).Reads ([p.code] ++ []) p
  refine (Scan.reads_byte p.code).bind ?_
  rw [ofCode?_code]
  exact Scan.reads_pure p

theorem conveyed (p : Phase) : Codec.ConveysFixed (Codec.write p) (Codec.size p) p :=
  Codec.conveysFixed_of_reads rfl rfl p.reads_scan

end Phase

theorem Progress.conveyed (r : Progress) :
    Codec.ConveysFixed (Codec.write r) (Codec.size r) r := by
  have hreads := r.phase.reads_scan.bind
    (f := fun phase => do return Progress.mk phase (← Scan.half))
    ((Scan.reads_half r.elements).map (Progress.mk r.phase))
  have hlength : ([r.phase.code] ++ littleEndian 2 r.elements.toNat).length = 3 := by
    rw [List.length_append, length_littleEndian, List.length_singleton]
  exact Codec.conveysFixed_of_reads (Print.followedBy_bytes _ _) hlength hreads

/-- Flags are found among their bits. -/
theorem Flags.truncate_bits (f : Flags) : truncate f.bits = f := by
  rcases f with ⟨_ | _, _ | _⟩ <;> rfl

theorem Flags.conveyed (f : Flags) : Codec.ConveysFixed (Codec.write f) (Codec.size f) f := by
  have hreads := (Scan.reads_byte f.bits).map truncate
  rw [truncate_bits] at hreads
  exact Codec.conveysFixed_of_reads rfl rfl hreads

/-! ## Messages that bring data -/

namespace TransactionStart

/-- The bytes of a transaction's start. -/
def form (r : TransactionStart) : Bytes :=
  littleEndian 4 r.keyIndex.toNat ++ (littleEndian 2 r.sigIndex.toNat ++
    (littleEndian 4 r.changeIndex.toNat ++ r.data))

theorem length_form (r : TransactionStart) : r.form.length = headerLength + r.data.length := by
  simp only [form, List.length_append, length_littleEndian, headerLength]
  omega

theorem write_eq (r : TransactionStart) : Codec.write r = Print.bytes r.form := by
  show Print.within _ ((((Print.bytes _).followedBy (Print.bytes _)).followedBy
    (Print.bytes _)).followedBy (Print.bytes _)) = _
  rw [Print.followedBy_bytes, Print.followedBy_bytes, Print.followedBy_bytes, List.append_assoc,
    List.append_assoc]
  exact Print.within_bytes r.length_form

theorem run_form (r : TransactionStart) :
    (Codec.scan : Scan TransactionStart).run r.form = .ok ({ r with flags := Flags.none }, []) := by
  show (Scan.quarter >>= _).run _ = _
  rw [form, Scan.bind_of_ok ((Scan.reads_quarter _).append _),
    Scan.bind_of_ok ((Scan.reads_half _).append _),
    Scan.bind_of_ok ((Scan.reads_quarter _).append _)]
  rfl

theorem conveyed (r : TransactionStart) :
    Codec.Conveys (Codec.write r) (Codec.size r) { r with flags := Flags.none } := by
  refine ⟨r.form, r.length_form, ?_, ?_⟩
  · rw [write_eq]
    exact Codec.writes_bytes _
  · rw [Codec.decode_of_run r.run_form]
    exact congrArg (fun n => Except.ok (_, n)) r.length_form

end TransactionStart

theorem TransactionPart.conveyed (r : TransactionPart) :
    Codec.Conveys (Codec.write r) (Codec.size r) { r with flags := Flags.none } :=
  ⟨r.data, rfl, Codec.writes_bytes _, rfl⟩

/-! ## Replies -/

namespace Reply

/-- The reply is written as the message `a`, from which it can be read. -/
def IsConveyedAs {α : Type} [Codec α] (r : Reply) (a : α) : Prop :=
  r.write = Codec.write a ∧ Codec.ConveysFixed r.write (Codec.size a) a

/-- The reply is written as the message that stands for it. -/
def IsConveyed : Reply → Prop
  | none => ∀ buffer, write none buffer = .ok (0, buffer)
  | state s elements => (state s elements).IsConveyedAs (Progress.mk s.phase elements)
  | version v => (version v).IsConveyedAs v
  | publicKey key address display => ∃ text : Block 76,
      text.bytes = asciiBytes (hexDigits (address.hash.bytes ++ address.checksum)) ∧
      (publicKey key address display).IsConveyedAs (KeyResponse.mk key text)
  | hash h => (hash h).IsConveyedAs (HashResponse.mk h)
  | signature s => (signature s).IsConveyedAs (SignatureResponse.mk s)

theorem isConveyed (r : Reply) : r.IsConveyed := by
  cases r with
  | none => exact fun _ => rfl
  | state s elements => exact ⟨rfl, Progress.conveyed _⟩
  | version v => exact ⟨rfl, v.conveyed⟩
  | publicKey key address display => exact ⟨address.textBytes, rfl, rfl, KeyResponse.conveyed _⟩
  | hash h => exact ⟨rfl, HashResponse.conveyed _⟩
  | signature s => exact ⟨rfl, SignatureResponse.conveyed _⟩

end Reply

/-! ## All messages -/

/-- Every message is written to any buffer that has room for it, and to no other, and is read back
from what was written as it was; flags of a transaction request travel beside the message and come
back empty. A message that brings no data is also read when more follows, and not when less is
there. Every reply is written as the message that stands for it. -/
theorem messages_conveyed :
    (∀ r : VersionRequest, Codec.ConveysFixed (Codec.write r) (Codec.size r) r) ∧
    (∀ v : Version, Codec.ConveysFixed (Codec.write v) (Codec.size v) v) ∧
    (∀ r : KeyRequest, Codec.ConveysFixed (Codec.write r) (Codec.size r) r) ∧
    (∀ r : KeyResponse, Codec.ConveysFixed (Codec.write r) (Codec.size r) r) ∧
    (∀ r : HashRequest, Codec.ConveysFixed (Codec.write r) (Codec.size r) r) ∧
    (∀ r : SignatureResponse, Codec.ConveysFixed (Codec.write r) (Codec.size r) r) ∧
    (∀ r : TransactionStart,
      Codec.Conveys (Codec.write r) (Codec.size r) { r with flags := Flags.none }) ∧
    (∀ r : TransactionPart,
      Codec.Conveys (Codec.write r) (Codec.size r) { r with flags := Flags.none }) ∧
    (∀ r : HashResponse, Codec.ConveysFixed (Codec.write r) (Codec.size r) r) ∧
    (∀ r : Progress, Codec.ConveysFixed (Codec.write r) (Codec.size r) r) ∧
    (∀ p : Phase, Codec.ConveysFixed (Codec.write p) (Codec.size p) p) ∧
    (∀ f : Flags, Codec.ConveysFixed (Codec.write f) (Codec.size f) f) ∧
    ∀ r : Reply, r.IsConveyed :=
  ⟨VersionRequest.conveyed, Version.conveyed, KeyRequest.conveyed, KeyResponse.conveyed,
    HashRequest.conveyed, SignatureResponse.conveyed, TransactionStart.conveyed,
    TransactionPart.conveyed, HashResponse.conveyed, Progress.conveyed, Phase.conveyed,
    Flags.conveyed, Reply.isConveyed⟩

-- three bytes of the buffer are written, and the fourth is left as it is
example : Codec.write (Progress.mk .pending 3) [9, 9, 9, 9] = .ok (3, [0x10, 3, 0, 9]) := rfl

end Countersign
