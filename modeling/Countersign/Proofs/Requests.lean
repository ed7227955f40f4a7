import Countersign.Proofs.Codecs
import Countersign.Signer.Event

/-!
# Requests and events

The host writes a request, and the signer reads an event from its header and payload. `Event.IsRead`
lists what can be read, with the payload spelled out in its fields: it is exactly what the signer
reads (`Event.parse_eq_ok_iff`). So the requests that are accepted can be told by their header and
length (`Event.exists_isRead_iff`), each written request is read as the event with its fields
(`Request.IsReadAs`), and of a request that concerns a transaction nothing is lost, since its event
gives all of its bytes back (`Event.restores_of_isRead`).
-/

namespace Countersign

/-! ## Codes -/

/-- What is found by a code has this code, if everything is found by its own. -/
theorem find?_code_iff {α : Type} {code : α → UInt8} {all : List α} {a : α} {c : UInt8}
    (hown : all.find? (code · = code a) = some a) :
    all.find? (code · = c) = some a ↔ code a = c := by
  constructor
  · intro h
    exact of_decide_eq_true (List.find?_some (p := fun a => decide (code a = c)) h)
  · rintro rfl
    exact hown

theorem Instruction.ofCode?_eq_some_iff {c : UInt8} {i : Instruction} :
    ofCode? c = some i ↔ i.code = c :=
  find?_code_iff (by cases i <;> rfl)

theorem KeyView.ofCode?_eq_some_iff {c : UInt8} {display : KeyView} :
    ofCode? c = some display ↔ display.code = c :=
  find?_code_iff (by cases display <;> rfl)

namespace Flags

/-- Bits without a meaning aside, the bits of the flags among some bits are those bits. -/
theorem bits_truncate (bits : UInt8) (h : bits &&& 0xfc = 0) : (truncate bits).bits = bits := by
  rcases bits with ⟨bits⟩
  revert bits
  decide +kernel

theorem ofBits?_eq_some_iff {bits : UInt8} {f : Flags} : ofBits? bits = some f ↔ f.bits = bits := by
  constructor
  · intro h
    unfold ofBits? at h
    split at h
    · next hbits =>
      cases h
      exact bits_truncate bits hbits
    · cases h
  · rintro rfl
    rcases f with ⟨_ | _, _ | _⟩ <;> rfl

end Flags

/-! ## Payloads -/

namespace Scan

variable {α β : Type} {m : Scan α} {f : α → Scan β} {bs left : Bytes} {b : β} {n : Nat}

/-- Two fields that were read one after the other. -/
theorem exists_of_bind (h : (m >>= f).run bs = .ok (b, left)) :
    ∃ a behind, m.run bs = .ok (a, behind) ∧ (f a).run behind = .ok (b, left) := by
  rw [StateT.run_bind] at h
  rcases hm : m.run bs with e | ⟨a, behind⟩
  · rw [hm] at h
    cases h
  · rw [hm] at h
    exact ⟨a, behind, rfl, h⟩

/-- What is made of a field that was read. -/
theorem exists_of_map {g : α → β} (h : (m >>= fun a => pure (g a)).run bs = .ok (b, left)) :
    ∃ a, m.run bs = .ok (a, left) ∧ b = g a := by
  obtain ⟨a, behind, hm, hpure⟩ := exists_of_bind h
  cases hpure
  exact ⟨a, hm, rfl⟩

/-- A block that was read is spelled by the bytes at the front. -/
theorem eq_of_run_block {block' : Block n} (h : (block n).run bs = .ok (block', left)) :
    bs = block'.bytes ++ left := by
  rw [run_block] at h
  split at h
  · cases h
    exact (List.take_append_drop n bs).symm
  · cases h

/-- So is a number. -/
theorem eq_of_run_number {v : Nat} (h : (number n).run bs = .ok (v, left)) :
    bs = littleEndian n v ++ left ∧ v < 256 ^ n := by
  obtain ⟨block', hblock, rfl⟩ := exists_of_map (g := fun b : Block n => ofLittleEndian b.bytes) h
  have hbound := ofLittleEndian_lt block'.bytes
  have hbytes := littleEndian_ofLittleEndian block'.bytes
  rw [block'.length_bytes] at hbound hbytes
  rw [hbytes]
  exact ⟨eq_of_run_block hblock, hbound⟩

theorem eq_of_run_half {v : UInt16} (h : half.run bs = .ok (v, left)) :
    bs = littleEndian 2 v.toNat ++ left := by
  obtain ⟨v', hnumber, rfl⟩ := exists_of_map (g := UInt16.ofNat) h
  obtain ⟨hbytes, hbound⟩ := eq_of_run_number hnumber
  rwa [UInt16.toNat_ofNat_of_lt' hbound]

theorem eq_of_run_quarter {v : UInt32} (h : quarter.run bs = .ok (v, left)) :
    bs = littleEndian 4 v.toNat ++ left := by
  obtain ⟨v', hnumber, rfl⟩ := exists_of_map (g := UInt32.ofNat) h
  obtain ⟨hbytes, hbound⟩ := eq_of_run_number hnumber
  rwa [UInt32.toNat_ofNat_of_lt' hbound]

end Scan

namespace Codec

variable {α : Type} [Codec α] {bs : Bytes} {a : α}

/-- What a payload begins with is what the scan of its message reads. -/
theorem payload_eq_ok_iff :
    Event.payload α bs = .ok a ↔ ∃ left, (scan : Scan α).run bs = .ok (a, left) := by
  rw [Event.payload]
  rcases hscan : (scan : Scan α).run bs with e | ⟨a', left⟩
  · rw [decode_of_error hscan]
    simp
  · rw [decode_of_run hscan]
    simp

end Codec

/-- A request for a key is spelled by the index of the key. -/
theorem KeyRequest.run_eq_ok_iff {r : KeyRequest} {bs left : Bytes} :
    (Codec.scan : Scan KeyRequest).run bs = .ok (r, left) ↔
      bs = littleEndian 4 r.keyIndex.toNat ++ left := by
  constructor
  · intro h
    obtain ⟨keyIndex, hkey, rfl⟩ := Scan.exists_of_map h
    exact Scan.eq_of_run_quarter hkey
  · rintro rfl
    exact r.reads_scan.append left

/-- A request for a signature is spelled by the index of the key and the hash. -/
theorem HashRequest.run_eq_ok_iff {r : HashRequest} {bs left : Bytes} :
    (Codec.scan : Scan HashRequest).run bs = .ok (r, left) ↔
      bs = littleEndian 4 r.keyIndex.toNat ++ r.hash.bytes ++ left := by
  constructor
  · intro h
    obtain ⟨keyIndex, behind, hkey, hrest⟩ := Scan.exists_of_bind h
    obtain ⟨hash, hhash, rfl⟩ := Scan.exists_of_map hrest
    rw [Scan.eq_of_run_quarter hkey, Scan.eq_of_run_block hhash, List.append_assoc]
  · rintro rfl
    exact r.reads_scan.append left

/-- The start of a transaction is spelled by its three numbers and its data, which are all the
rest. -/
theorem TransactionStart.run_eq_ok_iff {r : TransactionStart} {bs left : Bytes} :
    (Codec.scan : Scan TransactionStart).run bs = .ok (r, left) ↔
      r.flags = Flags.none ∧ bs = r.form ∧ left = [] := by
  constructor
  · intro h
    obtain ⟨keyIndex, behind, hkey, h⟩ := Scan.exists_of_bind h
    obtain ⟨sigIndex, behind', hsig, h⟩ := Scan.exists_of_bind h
    obtain ⟨changeIndex, data, hchange, h⟩ := Scan.exists_of_bind h
    cases h
    rw [Scan.eq_of_run_quarter hkey, Scan.eq_of_run_half hsig, Scan.eq_of_run_quarter hchange]
    exact ⟨rfl, rfl, rfl⟩
  · rintro ⟨hflags, rfl, rfl⟩
    rw [r.run_form, ← hflags]

/-! ## What can be read -/

namespace Event

/-- What the signer reads from a request: the instruction, the two parameters, the payload spelled
out, and the event. -/
inductive IsRead : UInt8 → UInt8 → UInt8 → Bytes → Event → Prop where
  | getVersion (p1 p2 : UInt8) (payload : Bytes) : IsRead 0x01 p1 p2 payload .getVersion
  | getPublicKey (p1 : UInt8) (keyIndex : UInt32) (display : KeyView) (rest : Bytes) :
    IsRead 0x02 p1 display.code (littleEndian 4 keyIndex.toNat ++ rest)
      (.getPublicKey keyIndex display)
  | signHash (p1 p2 : UInt8) (keyIndex : UInt32) (hash : Digest) (rest : Bytes) :
    IsRead 0x04 p1 p2 (littleEndian 4 keyIndex.toNat ++ hash.bytes ++ rest)
      (.signHash keyIndex hash)
  | start (keyIndex : UInt32) (sigIndex : UInt16) (changeIndex : UInt32) (flags : Flags)
      (data : Bytes) :
    IsRead 0x08 0x00 flags.bits
      (littleEndian 4 keyIndex.toNat ++ (littleEndian 2 sigIndex.toNat ++
        (littleEndian 4 changeIndex.toNat ++ data)))
      (.start keyIndex sigIndex changeIndex flags data)
  | more (flags : Flags) (data : Bytes) : IsRead 0x08 0x80 flags.bits data (.more flags data)

/-- The header and the length of the payload of a request that can be read. -/
def IsReadable (ins p1 p2 : UInt8) (payload : Bytes) : Prop :=
  ins = 0x01 ∨
  (ins = 0x02 ∧ (p2 = 0 ∨ p2 = 1) ∧ 4 ≤ payload.length) ∨
  (ins = 0x04 ∧ 36 ≤ payload.length) ∨
  (ins = 0x08 ∧ p2 &&& ~~~(⟨true, true⟩ : Flags).bits = 0 ∧
    (p1 = 0x80 ∨ (p1 = 0x00 ∧ 10 ≤ payload.length)))

variable {ins p1 p2 : UInt8} {bs : Bytes} {e : Event}

/-! ### One instruction each -/

theorem parse_getVersion : parse 0x01 p1 p2 bs = .ok .getVersion := rfl

theorem parse_getPublicKey (display : KeyView) :
    parse 0x02 p1 display.code bs = (payload KeyRequest bs).map (ofKeyRequest display) := by
  cases display <;> rfl

theorem parse_signHash : parse 0x04 p1 p2 bs = (payload HashRequest bs).map ofHashRequest := rfl

theorem parse_start (flags : Flags) :
    parse 0x08 firstPart flags.bits bs = (payload TransactionStart bs).map (ofStart flags) := by
  rcases flags with ⟨_ | _, _ | _⟩ <;> rfl

theorem parse_more (flags : Flags) :
    parse 0x08 furtherPart flags.bits bs = .ok (.more flags bs) := by
  rcases flags with ⟨_ | _, _ | _⟩ <;> rfl

/-- What can be read is what the signer reads. -/
theorem parse_of_isRead (h : IsRead ins p1 p2 bs e) : parse ins p1 p2 bs = .ok e := by
  cases h with
  | getVersion => exact parse_getVersion
  | getPublicKey _ keyIndex display rest =>
    have hpayload := Codec.payload_eq_ok_iff.2
      ⟨rest, KeyRequest.run_eq_ok_iff (r := ⟨keyIndex⟩).2 rfl⟩
    rw [parse_getPublicKey, hpayload]
    rfl
  | signHash _ _ keyIndex hash rest =>
    have hpayload := Codec.payload_eq_ok_iff.2
      ⟨rest, HashRequest.run_eq_ok_iff (r := ⟨keyIndex, hash⟩).2 rfl⟩
    rw [parse_signHash, hpayload]
    rfl
  | start keyIndex sigIndex changeIndex flags data =>
    have hpayload := Codec.payload_eq_ok_iff.2
      ⟨[], TransactionStart.run_eq_ok_iff
        (r := ⟨Flags.none, keyIndex, sigIndex, changeIndex, data⟩).2 ⟨rfl, rfl, rfl⟩⟩
    rw [TransactionStart.form] at hpayload
    exact (parse_start flags).trans (congrArg (Except.map (ofStart flags)) hpayload)
  | more flags data => exact parse_more flags

/-- The message that was read, and what was left behind it. -/
theorem exists_of_map {α : Type} [Codec α] {f : α → Event}
    (h : (payload α bs).map f = .ok e) :
    ∃ a left, (Codec.scan : Scan α).run bs = .ok (a, left) ∧ f a = e := by
  rcases hpayload : payload α bs with reason | a
  · rw [hpayload] at h
    cases h
  · rw [hpayload] at h
    cases h
    obtain ⟨left, hrun⟩ := Codec.payload_eq_ok_iff.1 hpayload
    exact ⟨a, left, hrun, rfl⟩

/-- The second parameter of a request for a key that was read asks for something. -/
theorem display_of_parse (h : parse 0x02 p1 p2 bs = .ok e) :
    ∃ display : KeyView, display.code = p2 := by
  have hins : Instruction.ofCode? 0x02 = some .getPublicKey := rfl
  rw [parse, hins] at h
  rcases hdisplay : KeyView.ofCode? p2 with _ | display
  · rw [hdisplay] at h
    cases h
  · exact ⟨display, KeyView.ofCode?_eq_some_iff.1 hdisplay⟩

/-- The parameters of a request that concerns a transaction and was read are the flags, and whether
it is the first part. -/
theorem parameters_of_parse (h : parse 0x08 p1 p2 bs = .ok e) :
    (p1 = firstPart ∨ p1 = furtherPart) ∧ ∃ flags : Flags, flags.bits = p2 := by
  have hins : Instruction.ofCode? 0x08 = some .hashTransaction := rfl
  rw [parse, hins] at h
  rcases hflags : Flags.ofBits? p2 with _ | flags
  · rw [hflags] at h
    cases h
  · refine ⟨?_, flags, Flags.ofBits?_eq_some_iff.1 hflags⟩
    by_cases hfirst : p1 = firstPart
    · exact .inl hfirst
    · by_cases hfurther : p1 = furtherPart
      · exact .inr hfurther
      · rw [hflags] at h
        dsimp only at h
        rw [if_neg hfirst, if_neg hfurther] at h
        cases h

/-- What the signer has read can be read. -/
theorem isRead_of_parse (h : parse ins p1 p2 bs = .ok e) : IsRead ins p1 p2 bs e := by
  rcases hins : Instruction.ofCode? ins with _ | instruction
  · rw [parse, hins] at h
    cases h
  obtain rfl := Instruction.ofCode?_eq_some_iff.1 hins
  cases instruction with
  | getVersion =>
    cases parse_getVersion.symm.trans h
    exact .getVersion p1 p2 bs
  | getPublicKey =>
    obtain ⟨display, rfl⟩ := display_of_parse h
    obtain ⟨r, left, hrun, rfl⟩ := exists_of_map ((parse_getPublicKey display).symm.trans h)
    rw [KeyRequest.run_eq_ok_iff.1 hrun]
    exact .getPublicKey p1 r.keyIndex display left
  | signHash =>
    obtain ⟨r, left, hrun, rfl⟩ := exists_of_map (parse_signHash.symm.trans h)
    rw [HashRequest.run_eq_ok_iff.1 hrun]
    exact .signHash p1 p2 r.keyIndex r.hash left
  | hashTransaction =>
    obtain ⟨rfl | rfl, flags, rfl⟩ := parameters_of_parse h
    · obtain ⟨r, left, hrun, rfl⟩ := exists_of_map ((parse_start flags).symm.trans h)
      obtain ⟨-, rfl, -⟩ := TransactionStart.run_eq_ok_iff.1 hrun
      exact .start r.keyIndex r.sigIndex r.changeIndex flags r.data
    · cases (parse_more flags).symm.trans h
      exact .more flags bs

theorem parse_eq_ok_iff : parse ins p1 p2 bs = .ok e ↔ IsRead ins p1 p2 bs e :=
  ⟨isRead_of_parse, parse_of_isRead⟩

/-! ### Whether it can be read -/

/-- A byte string that is long enough begins with the bytes of a block. -/
theorem exists_block (n : Nat) (bs : Bytes) (h : n ≤ bs.length) :
    ∃ (b : Block n) (rest : Bytes), bs = b.bytes ++ rest :=
  ⟨⟨bs.take n, List.length_take_of_le h⟩, bs.drop n, (List.take_append_drop n bs).symm⟩

/-- It begins with the bytes of a number, which is the one that is read there. -/
theorem exists_half (bs : Bytes) (h : 2 ≤ bs.length) :
    ∃ (v : UInt16) (rest : Bytes), bs = littleEndian 2 v.toNat ++ rest := by
  have hscan : Scan.half.run bs = .ok (_, bs.drop 2) :=
    Scan.bind_of_ok (Scan.bind_of_ok (dif_pos h))
  exact ⟨_, _, Scan.eq_of_run_half hscan⟩

theorem exists_quarter (bs : Bytes) (h : 4 ≤ bs.length) :
    ∃ (v : UInt32) (rest : Bytes), bs = littleEndian 4 v.toNat ++ rest := by
  have hscan : Scan.quarter.run bs = .ok (_, bs.drop 4) :=
    Scan.bind_of_ok (Scan.bind_of_ok (dif_pos h))
  exact ⟨_, _, Scan.eq_of_run_quarter hscan⟩

theorem exists_display_iff : (∃ display : KeyView, display.code = p2) ↔ p2 = 0 ∨ p2 = 1 := by
  constructor
  · rintro ⟨display, rfl⟩
    cases display
    · exact .inl rfl
    · exact .inr rfl
  · rintro (rfl | rfl)
    · exact ⟨.address, rfl⟩
    · exact ⟨.publicKey, rfl⟩

theorem exists_flags_iff :
    (∃ flags : Flags, flags.bits = p2) ↔ p2 &&& ~~~(⟨true, true⟩ : Flags).bits = 0 := by
  constructor
  · rintro ⟨⟨_ | _, _ | _⟩, rfl⟩ <;> rfl
  · intro h
    exact ⟨Flags.truncate p2, Flags.bits_truncate p2 h⟩

/-- What can be read has a known header and is long enough, since the fields are there. -/
theorem isReadable_of_isRead (h : IsRead ins p1 p2 bs e) : IsReadable ins p1 p2 bs := by
  cases h with
  | getVersion => exact .inl rfl
  | getPublicKey _ keyIndex display rest =>
    refine .inr (.inl ⟨rfl, exists_display_iff.1 ⟨display, rfl⟩, ?_⟩)
    simp only [List.length_append, length_littleEndian]
    omega
  | signHash _ _ keyIndex hash rest =>
    refine .inr (.inr (.inl ⟨rfl, ?_⟩))
    simp only [List.length_append, length_littleEndian, hash.length_bytes]
    omega
  | start keyIndex sigIndex changeIndex flags data =>
    refine .inr (.inr (.inr ⟨rfl, exists_flags_iff.1 ⟨flags, rfl⟩, .inr ⟨rfl, ?_⟩⟩))
    simp only [List.length_append, length_littleEndian]
    omega
  | more flags data => exact .inr (.inr (.inr ⟨rfl, exists_flags_iff.1 ⟨flags, rfl⟩, .inl rfl⟩))

/-- A request can be read exactly when its header is known and its payload is long enough. -/
theorem exists_isRead_iff : (∃ e, IsRead ins p1 p2 bs e) ↔ IsReadable ins p1 p2 bs := by
  refine ⟨fun ⟨e, h⟩ => isReadable_of_isRead h, ?_⟩
  -- the fields are taken off the front one after the other
  rintro (rfl | ⟨rfl, hdisplay, hlength⟩ | ⟨rfl, hlength⟩ | ⟨rfl, hflags, rfl | ⟨rfl, hlength⟩⟩)
  · exact ⟨_, .getVersion p1 p2 bs⟩
  · obtain ⟨display, rfl⟩ := exists_display_iff.2 hdisplay
    obtain ⟨keyIndex, rest, rfl⟩ := exists_quarter bs hlength
    exact ⟨_, .getPublicKey p1 keyIndex display rest⟩
  · obtain ⟨keyIndex, behind, rfl⟩ := exists_quarter bs (by omega)
    rw [List.length_append, length_littleEndian] at hlength
    obtain ⟨hash, rest, rfl⟩ := exists_block 32 behind (by omega)
    rw [← List.append_assoc]
    exact ⟨_, .signHash p1 p2 keyIndex hash rest⟩
  · obtain ⟨flags, rfl⟩ := exists_flags_iff.2 hflags
    exact ⟨_, .more flags bs⟩
  · obtain ⟨flags, rfl⟩ := exists_flags_iff.2 hflags
    obtain ⟨keyIndex, behind, rfl⟩ := exists_quarter bs (by omega)
    rw [List.length_append, length_littleEndian] at hlength
    obtain ⟨sigIndex, behind, rfl⟩ := exists_half behind (by omega)
    rw [List.length_append, length_littleEndian] at hlength
    obtain ⟨changeIndex, data, rfl⟩ := exists_quarter behind (by omega)
    exact ⟨_, .start keyIndex sigIndex changeIndex flags data⟩

end Event

/-! ## Requests that were written -/

namespace Request

variable {α : Type} [Request α] {a : α} {e : Event} {bs : Bytes}

/-- Every buffer that has room for the request takes it, and whatever buffer it has been written to,
the signer reads the event from what was written. -/
def IsReadAs (a : α) (e : Event) : Prop :=
  (∀ buffer : Bytes, Codec.size a ≤ buffer.length →
    ∃ buffer', Codec.write a buffer = .ok (Codec.size a, buffer')) ∧
  ∀ buffer n buffer', Codec.write a buffer = .ok (n, buffer') →
    Event.parse (instruction α).code (p1 a) (p2 a) (buffer'.take n) = .ok e

/-- A request that is written as a payload that can be read is read. -/
theorem isReadAs_of_isRead (hwrite : Codec.write a = Print.bytes bs)
    (hsize : bs.length = Codec.size a)
    (hread : Event.IsRead (instruction α).code (p1 a) (p2 a) bs e) : IsReadAs a e := by
  constructor
  · intro buffer hroom
    rw [← hsize] at hroom ⊢
    rw [hwrite]
    exact ⟨_, Print.bytes_of_le hroom⟩
  · intro buffer n buffer' hbuffer
    rw [hwrite, Print.bytes] at hbuffer
    split at hbuffer
    · cases hbuffer
    · cases hbuffer
      rw [List.take_left]
      exact Event.parse_of_isRead hread

end Request

theorem VersionRequest.isReadAs (r : VersionRequest) : Request.IsReadAs r .getVersion :=
  Request.isReadAs_of_isRead Print.nothing_eq rfl (.getVersion 0 0 [])

/-- The second parameter of a request for a key is not set, which asks for the address. -/
theorem KeyRequest.isReadAs (r : KeyRequest) :
    Request.IsReadAs r (.getPublicKey r.keyIndex .address) := by
  have hread := Event.IsRead.getPublicKey 0 r.keyIndex .address []
  rw [List.append_nil] at hread
  exact Request.isReadAs_of_isRead rfl (length_littleEndian _ _) hread

theorem HashRequest.isReadAs (r : HashRequest) :
    Request.IsReadAs r (.signHash r.keyIndex r.hash) := by
  have hread := Event.IsRead.signHash 0 0 r.keyIndex r.hash []
  rw [List.append_nil] at hread
  exact Request.isReadAs_of_isRead r.write_eq r.length_written hread

theorem TransactionStart.isReadAs (r : TransactionStart) :
    Request.IsReadAs r (.start r.keyIndex r.sigIndex r.changeIndex r.flags r.data) :=
  Request.isReadAs_of_isRead r.write_eq r.length_form
    (.start r.keyIndex r.sigIndex r.changeIndex r.flags r.data)

theorem TransactionPart.isReadAs (r : TransactionPart) :
    Request.IsReadAs r (.more r.flags r.data) :=
  Request.isReadAs_of_isRead rfl rfl (.more r.flags r.data)

/-! ## Requests that were read -/

namespace Event

variable {p1 p2 : UInt8} {bs : Bytes} {e : Event}

/-- The request with these two parameters and this payload can be had back from its event: it is the
one with the fields of the event. -/
def Restores (p1 p2 : UInt8) (bs : Bytes) : Event → Prop
  | .start keyIndex sigIndex changeIndex flags data =>
    let r : TransactionStart := ⟨flags, keyIndex, sigIndex, changeIndex, data⟩
    Request.p1 r = p1 ∧ Request.p2 r = p2 ∧ Codec.Writes (Codec.write r) bs
  | .more flags data =>
    let r : TransactionPart := ⟨flags, data⟩
    Request.p1 r = p1 ∧ Request.p2 r = p2 ∧ Codec.Writes (Codec.write r) bs
  | _ => False

theorem restores_of_isRead (h : IsRead 0x08 p1 p2 bs e) : e.Restores p1 p2 bs := by
  cases h with
  | start keyIndex sigIndex changeIndex flags data =>
    refine ⟨rfl, rfl, ?_⟩
    rw [TransactionStart.write_eq]
    exact Codec.writes_bytes _
  | more flags => exact ⟨rfl, rfl, Codec.writes_bytes bs⟩

/-- The signer reads what the host writes. What it can read is told by the header and the length of
the payload; what it reads is the number at each place and the rest; so every request, once written,
is read as the event with its fields, and a request that concerns a transaction is the one with the
fields of its event. -/
theorem parse_agrees_with_requests :
    (∀ ins p1 p2 bs, (∃ e, parse ins p1 p2 bs = .ok e) ↔ IsReadable ins p1 p2 bs) ∧
    (∀ ins p1 p2 bs e, parse ins p1 p2 bs = .ok e ↔ IsRead ins p1 p2 bs e) ∧
    (∀ r : VersionRequest, Request.IsReadAs r .getVersion) ∧
    (∀ r : KeyRequest, Request.IsReadAs r (.getPublicKey r.keyIndex .address)) ∧
    (∀ r : HashRequest, Request.IsReadAs r (.signHash r.keyIndex r.hash)) ∧
    (∀ r : TransactionStart,
      Request.IsReadAs r (.start r.keyIndex r.sigIndex r.changeIndex r.flags r.data)) ∧
    (∀ r : TransactionPart, Request.IsReadAs r (.more r.flags r.data)) ∧
    ∀ p1 p2 bs e, parse 0x08 p1 p2 bs = .ok e → e.Restores p1 p2 bs := by
  refine ⟨fun ins p1 p2 bs => ?_, fun _ _ _ _ _ => parse_eq_ok_iff, VersionRequest.isReadAs,
    KeyRequest.isReadAs, HashRequest.isReadAs, TransactionStart.isReadAs, TransactionPart.isReadAs,
    fun _ _ _ _ h => restores_of_isRead (isRead_of_parse h)⟩
  simp only [parse_eq_ok_iff, exists_isRead_iff]

/-- The start of a signed transaction in the second format, with two bytes of it. -/
def firstTwoBytes : TransactionStart := ⟨⟨true, true⟩, 7, 1, noChange, [2, 0]⟩

/-- Written to fourteen bytes it leaves two of them, and from the other twelve it is read and can be
had back. -/
theorem restores_firstTwoBytes :
    Codec.write firstTwoBytes (List.replicate 14 9) =
        .ok (12, [7, 0, 0, 0, 1, 0, 0xff, 0xff, 0xff, 0xff, 2, 0, 9, 9]) ∧
      parse 0x08 0x00 0x03 [7, 0, 0, 0, 1, 0, 0xff, 0xff, 0xff, 0xff, 2, 0] =
        .ok (.start 7 1 noChange ⟨true, true⟩ [2, 0]) ∧
      Restores 0x00 0x03 [7, 0, 0, 0, 1, 0, 0xff, 0xff, 0xff, 0xff, 2, 0]
        (.start 7 1 noChange ⟨true, true⟩ [2, 0]) := by
  have hwritten : Codec.write firstTwoBytes (List.replicate 14 9) =
      .ok (12, [7, 0, 0, 0, 1, 0, 0xff, 0xff, 0xff, 0xff, 2, 0, 9, 9]) := rfl
  obtain ⟨-, -, -, -, -, hstarts, -, hrestores⟩ := parse_agrees_with_requests
  have hread := (hstarts firstTwoBytes).2 _ _ _ hwritten
  exact ⟨hwritten, hread, hrestores _ _ _ _ hread⟩

end Event

end Countersign
