import Toyos.Boot.Multiboot2
import Mathlib.Algebra.Order.BigOperators.Group.List
import Mathlib.Data.List.Forall2

/-!
# Multiboot2 round trip

The reader is correct on any sequence of records that carry their own type and
size and are padded to eight bytes. The calls of the builder, followed by the
null tag, are such a sequence.
-/

namespace Toyos.Boot

open Toyos.Core Toyos.Util

theorem orderMax_tagAlignment : orderMax tagAlignment = 3 := by decide

/-- A tag in the structure. -/
structure Record where
  type : ℕ
  size : ℕ
  raw : List UInt8

namespace Record

/-- The record starts with its type and size and is padded to eight bytes. -/
structure Valid (r : Record) : Prop where
  type_lt : r.type < 2 ^ 32
  size_ge : 8 ≤ r.size
  size_lt : r.size < 2 ^ 31
  header : r.raw.take 8 = leBytes 4 r.type ++ leBytes 4 r.size
  length_raw : r.raw.length = (r.size + 7) / 8 * 8

/-- The tags a reader finds for records from an address on. -/
def positions : ℕ → List Record → List IteratorTag
  | _, [] => []
  | addr, r :: rs => ⟨r.type, r.size, addr⟩ :: positions (addr + r.raw.length) rs

/-- The bytes of records. -/
def bytes (rs : List Record) : List UInt8 := (rs.map raw).flatten

variable {addr : ℕ} {r : Record} {rs before after : List Record}

theorem bytes_append : bytes (before ++ after) = bytes before ++ bytes after := by
  simp [bytes]

theorem bytes_cons : bytes (r :: rs) = r.raw ++ bytes rs := rfl

theorem positions_append : positions addr (before ++ after) =
    positions addr before ++ positions (addr + (bytes before).length) after := by
  induction before generalizing addr with
  | nil => rfl
  | cons r rs ih =>
    rw [List.cons_append, positions, ih, positions, List.cons_append, bytes_cons,
      List.length_append, Nat.add_assoc]

theorem length_positions : (positions addr rs).length = rs.length := by
  induction rs generalizing addr with
  | nil => rfl
  | cons r rs ih => rw [positions, List.length_cons, List.length_cons, ih]

/-- Records of other types are passed over. -/
theorem find_positions_eq_none {t : ℕ} (h : ∀ r ∈ rs, r.type ≠ t) :
    (positions addr rs).find? (fun tag => tag.type == t) = none := by
  induction rs generalizing addr with
  | nil => rfl
  | cons r rs ih =>
    have hfirst : r.type ≠ t := h r List.mem_cons_self
    rw [positions, List.find?_cons_of_neg (by simp [hfirst])]
    exact ih fun r' hr' => h r' (List.mem_cons_of_mem r hr')

/-- The first record of a type is found. -/
theorem find_positions_eq_some (h : ∀ r' ∈ before, r'.type ≠ r.type) :
    (positions addr (before ++ r :: after)).find? (fun tag => tag.type == r.type) =
      some ⟨r.type, r.size, addr + (bytes before).length⟩ := by
  rw [positions_append, List.find?_append, find_positions_eq_none h, Option.none_or, positions,
    List.find?_cons_of_pos (by exact beq_self_eq_true r.type)]

/-- The tag of a record in a walk. -/
theorem getElem_positions : (positions addr (before ++ r :: after))[before.length]? =
    some ⟨r.type, r.size, addr + (bytes before).length⟩ := by
  rw [positions_append, List.getElem?_append_right (by rw [length_positions]), length_positions,
    Nat.sub_self, positions]
  rfl

theorem Valid.length_ge (h : r.Valid) : 8 ≤ r.raw.length := by
  have hsize := h.size_ge
  rw [h.length_raw]
  omega

/-- Every record takes up space. -/
theorem length_bytes_ge (h : ∀ r ∈ rs, r.Valid) : 8 * rs.length ≤ (bytes rs).length := by
  induction rs with
  | nil => simp [bytes]
  | cons r rs ih =>
    have hfirst := (h r List.mem_cons_self).length_ge
    have hrest := ih fun r' hr' => h r' (List.mem_cons_of_mem r hr')
    rw [bytes_cons, List.length_append, List.length_cons]
    omega

/-- Records keep eight-byte alignment. -/
theorem length_bytes_mod (h : ∀ r ∈ rs, r.Valid) : (bytes rs).length % 8 = 0 := by
  induction rs with
  | nil => simp [bytes]
  | cons r rs ih =>
    have hfirst := (h r List.mem_cons_self).length_raw
    have hrest := ih fun r' hr' => h r' (List.mem_cons_of_mem r hr')
    rw [bytes_cons, List.length_append, hfirst]
    omega

end Record

/-- Reading the beginning of what follows other bytes. -/
theorem readBytes_append (before : List UInt8) {rest : List UInt8} {count : ℕ}
    (h : count ≤ rest.length) :
    readBytes (before ++ rest) before.length count = .ok (rest.take count) := by
  rw [readBytes, ensure_of _ (by rw [List.length_append]; omega), ok_bind, List.drop_left]
  rfl

namespace Mbi2Reader

variable {r : Mbi2Reader} {fixed : List UInt8} {rs before after : List Record} {rec : Record}

/-- At the bytes of two numbers the reader finds them as type and size, in 32 bits. -/
theorem deref_of_readBytes {addr type size : ℕ}
    (h : readBytes r.mem addr 8 = .ok (leBytes 4 type ++ leBytes 4 size)) :
    r.deref addr = .ok ⟨type % 2 ^ 32, size % 2 ^ 32, addr⟩ := by
  have hfirst : (leBytes 4 type ++ leBytes 4 size).take mbi2Layout.typeSize = leBytes 4 type :=
    List.take_left' (length_leBytes 4 _)
  have hsecond : (leBytes 4 size).take 4 = leBytes 4 size := List.take_of_length_le (by simp)
  rw [Mb2Reader.deref, h, ok_bind, hfirst, List.drop_left' (length_leBytes 4 _), hsecond,
    leNat_leBytes, leNat_leBytes]
  rfl

/-- The reader stands before a structure of records. -/
structure Over (r : Mbi2Reader) (fixed : List UInt8) (rs : List Record) : Prop where
  mem_eq : r.mem = fixed ++ Record.bytes rs
  raw_eq : r.raw = 0
  fixed_length : fixed.length = 8
  size_eq : r.size = r.mem.length
  valid : ∀ r ∈ rs, r.Valid

/-- The address behind records. -/
def behind (before : List Record) : ℕ := 8 + (Record.bytes before).length

namespace Over

theorem begin_eq (h : r.Over fixed rs) : r.begin = 8 := by
  rw [Mb2Reader.begin, h.raw_eq]
  rfl

theorem finish_eq (h : r.Over fixed rs) : r.finish = r.mem.length := by
  rw [Mb2Reader.finish, h.raw_eq, h.size_eq, Nat.zero_add]

/-- At a record the reader finds its type and size. -/
theorem deref_eq (h : r.Over fixed (before ++ rec :: after)) :
    r.deref (behind before) = .ok ⟨rec.type, rec.size, behind before⟩ := by
  have hrec : rec.Valid := h.valid rec (by simp)
  have hread : readBytes r.mem (behind before) 8 = .ok (rec.raw.take 8) := by
    have haddr : behind before = (fixed ++ Record.bytes before).length := by
      rw [behind, List.length_append, h.fixed_length]
    rw [h.mem_eq, Record.bytes_append, Record.bytes_cons, ← List.append_assoc, haddr,
      readBytes_append]
    · rw [List.take_append_of_le_length hrec.length_ge]
    · have := hrec.length_ge
      rw [List.length_append]
      omega
  have htype : rec.type % 2 ^ 32 = rec.type := Nat.mod_eq_of_lt hrec.type_lt
  have hsize : rec.size % 2 ^ 32 = rec.size := Nat.mod_eq_of_lt (hrec.size_lt.trans (by decide))
  rw [hrec.header] at hread
  rw [deref_of_readBytes hread, htype, hsize]

/-- From a record the reader moves on to the next one. -/
theorem advance_eq (h : r.Over fixed (before ++ rec :: after)) :
    r.advance (behind before) = .ok (behind (before ++ [rec])) := by
  have hrec : rec.Valid := h.valid rec (by simp)
  have hlt := hrec.size_lt
  have hlength := hrec.length_raw
  have halign : alignUp rec.size 3 % 2 ^ 32 = rec.raw.length := by
    rw [alignUp_eq (by decide) (by omega), hlength]
    omega
  rw [Mb2Reader.advance, h.deref_eq, ok_bind, orderMax_tagAlignment, halign, behind, behind,
    Record.bytes_append, List.length_append, Nat.add_assoc]
  simp [Record.bytes]

/-- The end comes after the last record and not before. -/
theorem behind_eq_finish_iff (h : r.Over fixed (before ++ after)) :
    behind before = r.finish ↔ after = [] := by
  have hge := Record.length_bytes_ge fun r hr => h.valid r (List.mem_append_right before hr)
  rw [behind, h.finish_eq, h.mem_eq, Record.bytes_append, List.length_append,
    List.length_append, h.fixed_length]
  constructor
  · intro heq
    exact List.length_eq_zero_iff.mp (by omega)
  · rintro rfl
    simp [Record.bytes]

/-- The walk fits into the bound. -/
theorem length_lt (h : r.Over fixed rs) : rs.length < r.mem.length + 1 := by
  have hge := Record.length_bytes_ge h.valid
  rw [h.mem_eq, List.length_append]
  omega

/-- A record is not behind the end. -/
theorem behind_ne_finish {rec : Record} (h : r.Over fixed (before ++ rec :: after)) :
    behind before ≠ r.finish :=
  mt h.behind_eq_finish_iff.mp (List.cons_ne_nil _ _)

/-- The reader finds every record once and in order. -/
theorem tags_eq (h : r.Over fixed rs) : r.tags = .ok (Record.positions 8 rs) := by
  obtain ⟨found, hloop, rfl⟩ : ∃ found, loop r.walkRound .endless (r.mem.length + 1)
      (8, []) = .ok found ∧ found = Record.positions 8 rs := by
    apply loop_rounds (fun m s => ∃ before after, rs = before ++ after ∧ m = after.length ∧
      s = (behind before, Record.positions 8 before)) _ _ ⟨[], rs, rfl, rfl, rfl⟩ h.length_lt
    rintro _ _ ⟨before, after, rfl, rfl, rfl⟩
    cases after with
    | nil =>
      refine .inl ⟨Record.positions 8 before, ?_, by rw [List.append_nil]⟩
      simp [Mb2Reader.walkRound, h.behind_eq_finish_iff]
    | cons rec after =>
      refine .inr ⟨_, after.length, ?_,
        ⟨before ++ [rec], after, by simp, rfl, rfl⟩, Nat.lt_succ_self _⟩
      rw [Mb2Reader.walkRound, if_neg h.behind_ne_finish, h.deref_eq, ok_bind, h.advance_eq,
        ok_bind, Record.positions_append]
      rfl
  rwa [tags, Mb2Reader.walk, h.begin_eq]

/-- Looking for a type finds the first record of that type. -/
theorem findTag_eq (h : r.Over fixed rs) (t : ℕ) :
    r.findTag t = .ok ((Record.positions 8 rs).find? fun tag => tag.type == t) := by
  obtain ⟨it, hloop, hfound⟩ : ∃ it, loop (r.findRound t) .endless (r.mem.length + 1) 8 =
      .ok it ∧ ∃ before after, rs = before ++ after ∧ it = behind before ∧
        (∀ rec ∈ before, rec.type ≠ t) ∧ ∀ rec rest, after = rec :: rest → rec.type = t := by
    apply loop_rounds (fun m addr => ∃ before after, rs = before ++ after ∧ m = after.length ∧
      addr = behind before ∧ ∀ rec ∈ before, rec.type ≠ t) _ _
      ⟨[], rs, rfl, rfl, rfl, by simp⟩ h.length_lt
    rintro _ _ ⟨before, after, rfl, rfl, rfl, hbefore⟩
    cases after with
    | nil =>
      refine .inl ⟨behind before, ?_, before, [], rfl, rfl, hbefore, by simp⟩
      simp [Mb2Reader.findRound, h.behind_eq_finish_iff]
    | cons rec after =>
      by_cases htype : rec.type = t
      · refine .inl ⟨behind before, ?_, before, rec :: after, rfl, rfl, hbefore, ?_⟩
        · rw [Mb2Reader.findRound, if_neg h.behind_ne_finish, h.deref_eq, ok_bind, if_pos htype]
          rfl
        · rintro _ _ ⟨⟩
          exact htype
      · refine .inr ⟨_, after.length, ?_,
          ⟨before ++ [rec], after, by simp, rfl, rfl, ?_⟩, Nat.lt_succ_self _⟩
        · rw [Mb2Reader.findRound, if_neg h.behind_ne_finish, h.deref_eq, ok_bind, if_neg htype,
            h.advance_eq, ok_bind]
          rfl
        · intro rec' hrec'
          rcases List.mem_append.mp hrec' with hold | hnew
          · exact hbefore rec' hold
          · rw [List.mem_singleton.mp hnew]
            exact htype
  obtain ⟨before, after, rfl, rfl, hbefore, hafter⟩ := hfound
  rw [findTag, Mb2Reader.findTag, h.begin_eq, hloop, ok_bind, Record.positions_append,
    List.find?_append, Record.find_positions_eq_none hbefore, Option.none_or]
  cases after with
  | nil =>
    rw [if_neg (by simp [h.behind_eq_finish_iff])]
    rfl
  | cons rec after =>
    rw [if_pos h.behind_ne_finish, h.deref_eq, ok_bind, Record.positions]
    simp [hafter rec after rfl, behind]

end Over

end Mbi2Reader

@[simp] theorem length_resize (raw : List UInt8) (size : ℕ) : (resize raw size).length = size := by
  rw [resize, List.length_append, List.length_take, List.length_replicate]
  omega

/-- Resizing keeps the beginning. -/
theorem take_resize {raw : List UInt8} {size count : ℕ} (hsize : count ≤ size)
    (hraw : count ≤ raw.length) : (resize raw size).take count = raw.take count := by
  rw [resize, List.take_append_of_le_length (by rw [List.length_take]; omega), List.take_take,
    min_eq_left hsize]

namespace AddCall

/-- The type that the tag of a call is to have. -/
def type : AddCall → ℕ
  | .bootCmdline _ => 1
  | .rsdp _ => 15
  | .memory _ => 6
  | .bootModule _ _ _ => 3
  | .systemTable _ => 12
  | .imageLoadBase _ => 21

/-- The size that the tag of a call is to have: header, fields and payload without padding. -/
def size : AddCall → ℕ
  | .bootCmdline cmdline => 8 + (cmdline.length + 1)
  | .rsdp _ => 8 + 36
  | .memory entries => 16 + 24 * entries.length
  | .bootModule _ _ cmdline => 16 + (cmdline.length + 1)
  | .systemTable _ => 16
  | .imageLoadBase _ => 12

/-- The bytes that a call is to put behind type and size. -/
def content : AddCall → List UInt8
  | .bootCmdline cmdline => cmdline ++ [0]
  | .rsdp table => table.toList
  | .memory entries => leBytes 4 24 ++ leBytes 4 0 ++ entries.flatMap fun e =>
      leBytes 8 e.base.toNat ++ leBytes 8 e.length.toNat ++ leBytes 4 e.type.toNat ++
        leBytes 4 e.reserved.toNat
  | .bootModule start stop cmdline =>
      leBytes 4 start.toNat ++ leBytes 4 stop.toNat ++ cmdline ++ [0]
  | .systemTable address => leBytes 8 address.toNat
  | .imageLoadBase loadBase => leBytes 4 loadBase.toNat

/-- The size with padding. -/
def paddedSize (call : AddCall) : ℕ := (call.size + 7) / 8 * 8

/-- The tags that a reader is to find for calls from an address on. -/
def tagsFrom : ℕ → List AddCall → List IteratorTag
  | _, [] => []
  | addr, call :: calls => ⟨call.type, call.size, addr⟩ :: tagsFrom (addr + call.paddedSize) calls

/-- The record of a call. -/
def record (call : AddCall) : Record := ⟨call.type, call.size, call.raw⟩

variable {call : AddCall}

theorem toNat_type_tag (call : AddCall) : call.tag.type.toNat = call.type := by
  cases call <;> rfl

theorem length_payload (call : AddCall) : call.tag.sizeOf + call.payload.length = call.size := by
  cases call with
  | bootCmdline cmdline => simp [tag, payload, size, Mbi2Tag.sizeOf, Mbi2Tag.fields]
  | rsdp table => simp [tag, payload, size, Mbi2Tag.sizeOf, Mbi2Tag.fields]
  | memory entries =>
    have himage : ∀ e : MmapEntry, e.image.length = 24 := by simp [MmapEntry.image]
    simp [tag, payload, size, Mbi2Tag.sizeOf, Mbi2Tag.fields, himage, List.length_flatten,
      List.map_map, Function.comp_def, Nat.mul_comm]
  | bootModule start stop cmdline => simp [tag, payload, size, Mbi2Tag.sizeOf, Mbi2Tag.fields]
  | systemTable address => simp [tag, payload, size, Mbi2Tag.sizeOf, Mbi2Tag.fields]
  | imageLoadBase loadBase => simp [tag, payload, size, Mbi2Tag.sizeOf, Mbi2Tag.fields]

/-- The fields of the tag and the payload are the content. -/
theorem fields_append_payload (call : AddCall) :
    call.tag.fields ++ call.payload = call.content := by
  cases call with
  | bootModule start stop cmdline => simp [tag, payload, content, Mbi2Tag.fields]
  | memory entries => rfl
  | _ => simp [tag, payload, content, Mbi2Tag.fields]

theorem size_le_paddedSize (call : AddCall) : call.size ≤ call.paddedSize := by
  unfold paddedSize
  omega

theorem size_ge (call : AddCall) : 8 ≤ call.size := by
  cases call <;> simp only [size] <;> omega

theorem type_lt (call : AddCall) : call.type < 2 ^ 32 := by
  cases call <;> simp [type]

/-- Header, fields and payload make up the size. -/
theorem length_header_content (call : AddCall) :
    (leBytes 4 call.type ++ leBytes 4 call.size ++ call.content).length = call.size := by
  rw [← fields_append_payload, List.length_append, List.length_append, List.length_append,
    length_leBytes, length_leBytes, ← length_payload, Mbi2Tag.sizeOf]
  omega

theorem raw_eq_resize (call : AddCall) :
    call.raw = resize (leBytes 4 call.type ++ leBytes 4 call.size ++ call.content)
      (alignUp call.size 3) := by
  rw [raw, addTag, length_payload, orderMax_tagAlignment, Mbi2Tag.image, toNat_type_tag,
    List.append_assoc _ call.tag.fields, fields_append_payload]

/-- The bytes of a call are type, size, content and the padding. -/
theorem raw_eq (h : call.size + 8 ≤ 2 ^ 64) :
    call.raw = leBytes 4 call.type ++ leBytes 4 call.size ++ call.content ++
      List.replicate (call.paddedSize - call.size) 0 := by
  have haligned : alignUp call.size 3 = call.paddedSize := alignUp_eq (by decide) h
  have hlength := call.length_header_content
  have hle := call.size_le_paddedSize
  rw [raw_eq_resize, haligned, resize, hlength, List.take_of_length_le (by omega)]

theorem length_raw (h : call.size + 8 ≤ 2 ^ 64) : call.raw.length = call.paddedSize := by
  have hle := call.size_le_paddedSize
  rw [raw_eq h, List.length_append, length_header_content, List.length_replicate]
  omega

/-- Calls make valid records. -/
theorem record_valid (h : call.size < 2 ^ 31) : call.record.Valid where
  type_lt := call.type_lt
  size_ge := call.size_ge
  size_lt := h
  header := by
    dsimp only [record]
    rw [raw_eq (by omega), List.append_assoc]
    exact List.take_left' (by simp)
  length_raw := length_raw (by omega)

/-- The records of calls are where the tags are to be. -/
theorem positions_map_record {calls : List AddCall} (h : ∀ call ∈ calls, call.size < 2 ^ 31)
    (addr : ℕ) : Record.positions addr (calls.map record) = tagsFrom addr calls := by
  induction calls generalizing addr with
  | nil => rfl
  | cons call calls ih =>
    have hfirst := h call List.mem_cons_self
    rw [List.map_cons, Record.positions, tagsFrom, record, length_raw (by omega),
      ih fun c hc => h c (List.mem_cons_of_mem call hc)]

end AddCall

/-- The null tag at the end. -/
def nullRecord : Record := ⟨0, 8, Mbi2Tag.null.image 8⟩

theorem nullRecord_valid : nullRecord.Valid :=
  ⟨by decide, by decide, by decide, by decide, by decide⟩

namespace Mbi2Builder

/-- The total size of the structure the calls describe. -/
def totalSize (calls : List AddCall) : ℕ := 16 + (calls.map AddCall.paddedSize).sum

theorem rawData_foldl (b : Mbi2Builder) (calls : List AddCall) :
    (calls.foldl add b).rawData = b.rawData ++ calls.map AddCall.raw := by
  induction calls generalizing b with
  | nil => simp
  | cons call calls ih => simp [ih, add]

/-- Below the bound the sum of the sizes is exact. -/
theorem foldl_sizes (items : List (List UInt8)) (sum : ℕ)
    (h : sum + items.flatten.length < 2 ^ 32) :
    items.foldl (fun sum item => (sum + item.length) % 2 ^ 32) sum =
      sum + items.flatten.length := by
  induction items generalizing sum with
  | nil => simp
  | cons item items ih =>
    rw [List.flatten_cons, List.length_append] at h ⊢
    rw [List.foldl_cons, Nat.mod_eq_of_lt (by omega), ih _ (by omega), Nat.add_assoc]

/-- No call is larger than the structure. -/
theorem size_lt {calls : List AddCall} (h : totalSize calls < 2 ^ 31) {call : AddCall}
    (hcall : call ∈ calls) : call.size < 2 ^ 31 := by
  have hle : call.paddedSize ≤ (calls.map AddCall.paddedSize).sum :=
    List.le_sum_of_mem (List.mem_map_of_mem hcall)
  have hpadded : call.size ≤ call.paddedSize := call.size_le_paddedSize
  unfold totalSize at h
  omega

/-- The records of the structure. -/
def records (calls : List AddCall) : List Record := calls.map AddCall.record ++ [nullRecord]

theorem records_valid {calls : List AddCall} (h : totalSize calls < 2 ^ 31) :
    ∀ r ∈ records calls, r.Valid := by
  intro r hr
  rcases List.mem_append.mp hr with hcall | hnull
  · obtain ⟨call, hmem, rfl⟩ := List.mem_map.mp hcall
    exact AddCall.record_valid (size_lt h hmem)
  · rw [List.mem_singleton.mp hnull]
    exact nullRecord_valid

/-- The fixed part. -/
def fixedPart (calls : List AddCall) : List UInt8 := leBytes 4 (totalSize calls) ++ leBytes 4 0

theorem length_flatten_raw {calls : List AddCall} (h : totalSize calls < 2 ^ 31) :
    (calls.map AddCall.raw).flatten.length = (calls.map AddCall.paddedSize).sum := by
  rw [List.length_flatten, List.map_map]
  congr 1
  refine List.map_congr_left fun call hcall => ?_
  have := size_lt h hcall
  exact AddCall.length_raw (by omega)

/-- The bytes of the records are the bytes that the calls add. -/
theorem bytes_map_record (calls : List AddCall) :
    Record.bytes (calls.map AddCall.record) = (calls.map AddCall.raw).flatten := by
  rw [Record.bytes, List.map_map]
  rfl

/-- The structure is the fixed part followed by the records. -/
theorem build_eq {calls : List AddCall} (h : totalSize calls < 2 ^ 31) :
    (calls.foldl add ⟨[]⟩).build = fixedPart calls ++ Record.bytes (records calls) := by
  have hraw : (calls.foldl add ⟨[]⟩).rawData = calls.map AddCall.raw := by simp [rawData_foldl]
  have hlength := length_flatten_raw h
  have hsum : (calls.foldl add ⟨[]⟩).tagsSize = (calls.map AddCall.paddedSize).sum := by
    unfold totalSize at h
    rw [tagsSize, hraw, foldl_sizes _ _ (by omega), hlength, Nat.zero_add]
  have htotal : (8 + (calls.map AddCall.paddedSize).sum + 8) % 2 ^ 32 = totalSize calls := by
    unfold totalSize at *
    omega
  rw [build, hsum, htotal, hraw, records, Record.bytes_append, fixedPart, bytes_map_record]
  simp [Record.bytes, nullRecord]

theorem length_build {calls : List AddCall} (h : totalSize calls < 2 ^ 31) :
    (calls.foldl add ⟨[]⟩).build.length = totalSize calls := by
  have hnull : (Record.bytes [nullRecord]).length = 8 := by decide
  rw [build_eq h, List.length_append, records, Record.bytes_append, List.length_append, hnull,
    bytes_map_record, length_flatten_raw h, totalSize, fixedPart, List.length_append,
    length_leBytes, length_leBytes]
  omega

/-- The reader of a structure the builder made. -/
theorem new_build {calls : List AddCall} (h : totalSize calls < 2 ^ 31) :
    ∃ r, Mbi2Reader.new (calls.foldl add ⟨[]⟩).build = .ok r ∧
      r.mem = (calls.foldl add ⟨[]⟩).build ∧ r.Over (fixedPart calls) (records calls) := by
  have hfixed : (fixedPart calls).length = 8 := by simp [fixedPart]
  have hread : readBytes (calls.foldl add ⟨[]⟩).build 0 mbi2Layout.fixedSize =
      .ok (fixedPart calls) := by
    have hlength : 8 ≤ (fixedPart calls ++ Record.bytes (records calls)).length := by
      rw [List.length_append, hfixed]
      omega
    have happend := readBytes_append [] hlength
    rwa [List.take_left' hfixed, List.nil_append, ← build_eq h] at happend
  refine ⟨⟨(calls.foldl add ⟨[]⟩).build, 0, totalSize calls⟩, ?_, rfl, ?_⟩
  · have hsize : leNat (((fixedPart calls).drop mbi2Layout.totalSizeAt).take 4) =
        totalSize calls := by
      rw [fixedPart, show mbi2Layout.totalSizeAt = 0 from rfl, List.drop_zero,
        List.take_left' (length_leBytes 4 _), leNat_leBytes]
      exact Nat.mod_eq_of_lt (h.trans (by decide))
    rw [Mbi2Reader.new, Mb2Reader.new, hread, ok_bind, hsize]
    rfl
  · exact ⟨build_eq h, rfl, hfixed, (length_build h).symm, records_valid h⟩

end Mbi2Builder

/-- What a tag says and the bytes at its address are those of a call. -/
structure AddCall.Describes (bytes : List UInt8) (call : AddCall) (tag : IteratorTag) : Prop where
  type_eq : tag.type = call.type
  size_eq : tag.size = call.size
  content_eq : (bytes.drop tag.addr).take tag.size =
    leBytes 4 call.type ++ leBytes 4 call.size ++ call.content
  aligned : tag.addr % 8 = 0

/-- The bytes of calls hold what each of them describes. -/
theorem describes_tagsFrom {calls : List AddCall} (h : ∀ call ∈ calls, call.size < 2 ^ 31)
    (before after : List UInt8) (haligned : before.length % 8 = 0) :
    List.Forall₂
      (AddCall.Describes (before ++ Record.bytes (calls.map AddCall.record) ++ after)) calls
      (AddCall.tagsFrom before.length calls) := by
  induction calls generalizing before with
  | nil => exact .nil
  | cons call calls ih =>
    have hsize : call.size + 8 ≤ 2 ^ 64 := by
      have := h call List.mem_cons_self
      omega
    have hraw := AddCall.length_raw hsize
    refine .cons ⟨rfl, rfl, ?_, haligned⟩ ?_
    · have hfirst : before ++ Record.bytes ((call :: calls).map AddCall.record) ++ after =
          before ++ (leBytes 4 call.type ++ leBytes 4 call.size ++ call.content ++
            (List.replicate (call.paddedSize - call.size) 0 ++
              Record.bytes (calls.map AddCall.record) ++ after)) := by
        rw [List.map_cons, Record.bytes_cons, AddCall.record, AddCall.raw_eq hsize]
        simp
      rw [hfirst, List.drop_left]
      exact List.take_left' call.length_header_content
    · have hnext : (before ++ call.raw).length % 8 = 0 := by
        rw [List.length_append, hraw, AddCall.paddedSize]
        omega
      have hrest := ih (fun c hc => h c (List.mem_cons_of_mem call hc)) (before ++ call.raw) hnext
      rw [List.length_append, hraw] at hrest
      simpa [Record.bytes_cons, AddCall.record] using hrest

namespace Mbi2Builder

/-- What the builder writes is what the reader finds: one tag for each call, in order and with the
bytes that the call describes, and the null tag. Looking for a type finds the first call of that
type. -/
theorem round_trip {calls : List AddCall} (hsize : totalSize calls < 2 ^ 31) :
    ∃ r, Mbi2Reader.new (calls.foldl add ⟨[]⟩).build = .ok r ∧
      r.size = (calls.foldl add ⟨[]⟩).build.length ∧ r.size = totalSize calls ∧
      r.tags = .ok (AddCall.tagsFrom 8 calls ++ [⟨0, 8, r.size - 8⟩]) ∧ (r.size - 8) % 8 = 0 ∧
      List.Forall₂ (AddCall.Describes (calls.foldl add ⟨[]⟩).build) calls
        (AddCall.tagsFrom 8 calls) ∧
      (∀ before call after, calls = before ++ call :: after →
        (∀ c ∈ before, c.type ≠ call.type) →
        ∃ tag, (AddCall.tagsFrom 8 calls)[before.length]? = some tag ∧
          r.findTag call.type = .ok (some tag)) ∧
      ∀ t ≠ 0, (∀ call ∈ calls, call.type ≠ t) → r.findTag t = .ok none := by
  obtain ⟨r, hnew, hmem, hover⟩ := new_build hsize
  have hsmall : ∀ call ∈ calls, call.size < 2 ^ 31 := fun _ => size_lt hsize
  have hlength := length_build hsize
  have hfixed := hover.fixed_length
  have hnull : 8 + (Record.bytes (calls.map AddCall.record)).length = r.size - 8 := by
    have hlast : (Record.bytes [nullRecord]).length = 8 := by decide
    rw [hover.size_eq, hmem, build_eq hsize, records, Record.bytes_append, List.length_append,
      List.length_append, hlast, hfixed]
    omega
  refine ⟨r, hnew, ?_, ?_, ?_, ?_, ?_, ?_, ?_⟩
  · rw [hover.size_eq, hmem]
  · rw [hover.size_eq, hmem, hlength]
  · rw [hover.tags_eq, records, Record.positions_append, hnull,
      AddCall.positions_map_record hsmall]
    rfl
  · have hmod := Record.length_bytes_mod fun r hr =>
      records_valid hsize r (List.mem_append_left _ hr)
    omega
  · have hall := describes_tagsFrom hsmall (fixedPart calls) (Record.bytes [nullRecord])
      (by rw [hfixed])
    rw [hfixed] at hall
    rwa [build_eq hsize, records, Record.bytes_append, ← List.append_assoc]
  · rintro before call after rfl hbefore
    have hothers : ∀ rec ∈ before.map AddCall.record, rec.type ≠ call.record.type := by
      intro rec hrec
      obtain ⟨c, hc, rfl⟩ := List.mem_map.mp hrec
      exact hbefore c hc
    have hfind := hover.findTag_eq call.record.type
    rw [records, List.map_append, List.map_cons, List.append_assoc, List.cons_append,
      Record.find_positions_eq_some hothers] at hfind
    refine ⟨_, ?_, hfind⟩
    rw [← AddCall.positions_map_record hsmall, List.map_append, List.map_cons,
      ← List.length_map AddCall.record, Record.getElem_positions]
  · intro t ht hnone
    rw [hover.findTag_eq, Record.find_positions_eq_none]
    intro rec hrec
    rcases List.mem_append.mp hrec with hcall | hlast
    · obtain ⟨call, hmem, rfl⟩ := List.mem_map.mp hcall
      exact hnone call hmem
    · rw [List.mem_singleton.mp hlast]
      exact ht.symm

/-- One call of each kind. -/
def oneOfEach : List AddCall :=
  [.bootCmdline [97], .rsdp (Vector.replicate 36 5), .memory [⟨0x1000, 0x203, 1, 0⟩],
    .bootModule 0x300 0x401 [98, 99], .systemTable 0x7ffe0018, .imageLoadBase 0x200000]

/-- One tag of each kind comes back in order and with its bytes. -/
theorem round_trip_oneOfEach :
    (oneOfEach.foldl add ⟨[]⟩).build = [176, 0, 0, 0, 0, 0, 0, 0] ++
      [1, 0, 0, 0, 10, 0, 0, 0, 97, 0] ++ List.replicate 6 0 ++
      [15, 0, 0, 0, 44, 0, 0, 0] ++ List.replicate 36 5 ++ List.replicate 4 0 ++
      [6, 0, 0, 0, 40, 0, 0, 0, 24, 0, 0, 0, 0, 0, 0, 0] ++
        [0, 16, 0, 0, 0, 0, 0, 0, 3, 2, 0, 0, 0, 0, 0, 0, 1, 0, 0, 0, 0, 0, 0, 0] ++
      [3, 0, 0, 0, 19, 0, 0, 0, 0, 3, 0, 0, 1, 4, 0, 0, 98, 99, 0] ++ List.replicate 5 0 ++
      [12, 0, 0, 0, 16, 0, 0, 0, 24, 0, 254, 127, 0, 0, 0, 0] ++
      [21, 0, 0, 0, 12, 0, 0, 0, 0, 0, 32, 0] ++ List.replicate 4 0 ++
      [0, 0, 0, 0, 8, 0, 0, 0] ∧
    ∃ r, Mbi2Reader.new (oneOfEach.foldl add ⟨[]⟩).build = .ok r ∧ r.size = 176 ∧
      r.tags = .ok [⟨1, 10, 8⟩, ⟨15, 44, 24⟩, ⟨6, 40, 72⟩, ⟨3, 19, 112⟩, ⟨12, 16, 136⟩,
        ⟨21, 12, 152⟩, ⟨0, 8, 168⟩] ∧
      r.findTag 6 = .ok (some ⟨6, 40, 72⟩) ∧ r.findTag 4 = .ok none := by
  have htotal : totalSize oneOfEach = 176 := by decide
  obtain ⟨r, hnew, -, hsize, htags, -, -, hfirst, hnone⟩ :=
    round_trip (show totalSize oneOfEach < 2 ^ 31 by decide)
  rw [htotal] at hsize
  rw [hsize] at htags
  obtain ⟨tag, htag, hfind⟩ := hfirst (oneOfEach.take 2) (.memory [⟨0x1000, 0x203, 1, 0⟩])
    (oneOfEach.drop 3) rfl (by decide)
  obtain rfl := Option.some.inj htag
  exact ⟨by decide +kernel, r, hnew, hsize, htags, hfind, hnone 4 (by decide) (by decide)⟩

end Mbi2Builder

end Toyos.Boot
