import Toyos.Core.Checked
import Toyos.Core.LittleEndian
import Toyos.Core.Memory
import Toyos.X86.Segmentation

/-!
# Segments in a VMCS

A `cached_segment_descriptor` takes base, limit and access rights of a segment from
a GDT entry. The access rights keep their bits in another layout, with a gap where
the entry holds a part of the limit and a bit for unusable segments. The privilege
level is read back as one bit, and the base address is the lower half of it.
-/

namespace Toyos.X86

open Toyos.Core Toyos.Util

/-- The access rights of a segment in a VMCS. -/
structure AccessRights where
  /-- The word written to the VMCS. -/
  raw : BitVec 32
  deriving DecidableEq, Repr

namespace AccessRights

/-- Take the access rights from the lower half of a descriptor. -/
def ofGdte (gdte : BitVec 64) : AccessRights :=
  let raw := (gdte >>> 40 &&& maskBits (8 + 4 + 4) 0).setWidth 32
  let raw := (raw.setWidth 64 &&& ~~~(maskBits 4 0 <<< 8)).setWidth 32
  ⟨(raw.setWidth 64 &&& ~~~(maskBits 14 0 <<< 17)).setWidth 32⟩

/-- Set some bits. -/
def setBits (a : AccessRights) (bits : BitVec 32) (shift width : ℕ) : AccessRights :=
  ⟨((a.raw.setWidth 64 &&& ~~~(maskBits width 0 <<< shift)) |||
    (bits <<< shift).setWidth 64).setWidth 32⟩

/-- Get some bits. -/
def getBits (a : AccessRights) (shift width : ℕ) : BitVec 32 :=
  ((a.raw >>> shift).setWidth 64 &&& maskBits width 0).setWidth 32

/-- The type. -/
def getType (a : AccessRights) : BitVec 8 := (a.getBits 0 4).setWidth 8

/-- The privilege level. -/
def getDpl (a : AccessRights) : BitVec 8 := (a.getBits 5 1).setWidth 8

/-- Make the segment unusable or not. -/
def setUnusable (a : AccessRights) (v : Bool) : AccessRights :=
  a.setBits ((BitVec.ofBool v).setWidth 32) 16 1

end AccessRights

/-- A segment selector. -/
structure SegmentSelector where
  /-- The value in the register. -/
  raw : BitVec 16
  deriving DecidableEq, Repr

/-- The index of the descriptor. -/
def SegmentSelector.index (s : SegmentSelector) : BitVec 16 :=
  ((s.raw >>> 3).setWidth 64 &&& maskBits 13 0).setWidth 16

/-- A register that points to a descriptor table. -/
structure DescriptorPtr where
  /-- Offset of the last byte. -/
  limit : BitVec 16
  /-- Address of the table. -/
  base : BitVec 64
  deriving DecidableEq, Repr

namespace Vmcs

/-- Reasons for stopping. -/
inductive Fault where
  /-- A failed assertion. -/
  | assertion
  deriving DecidableEq, Repr

/-- The address of the GDT entry that a selector names. -/
def getGdtEntry (gdtr : DescriptorPtr) (s : SegmentSelector) : Except Fault (BitVec 64) := do
  ensure (s.index.toNat < gdtr.limit.toNat) Fault.assertion
  return gdtr.base + 8#64 * s.index.setWidth 64

/-- A word in memory. -/
def word (m : Memory) (addr : BitVec 64) : BitVec 64 := .ofNat 64 (leNat (m.load addr.toNat 8))

/-- The GDT entry at an address. -/
def entryAt (m : Memory) (addr : BitVec 64) : GdtEntry := ⟨word m addr, word m (addr + 8#64)⟩

/-- Reads of memory, by address and size. -/
abbrev Reads := List (BitVec 64 × ℕ)

/-- Read the lower half of a GDT entry. -/
def readRaw (m : Memory) (gdte : BitVec 64) (reads : Reads) : BitVec 64 × Reads :=
  (word m gdte, reads ++ [(gdte, 8)])

/-- A GDT entry of which only the lower half is read. -/
def lowerHalf (raw : BitVec 64) : GdtEntry := ⟨raw, 0⟩

/-- A segment in the format of a VMCS. -/
structure CachedSegmentDescriptor where
  /-- The selector. -/
  selector : BitVec 16
  /-- The base address. -/
  base : BitVec 64
  /-- The limit in bytes. -/
  limit : BitVec 32
  /-- The access rights. -/
  ar : AccessRights
  deriving DecidableEq, Repr

/-- Take a segment from the GDT, with the reads of the GDT. -/
def cachedSegmentDescriptor (m : Memory) (gdtr : DescriptorPtr) (selector : BitVec 16) :
    Except Fault (CachedSegmentDescriptor × Reads) := do
  ensure (selector.toNat < gdtr.limit.toNat) Fault.assertion
  let gdte ← getGdtEntry gdtr ⟨selector⟩
  let (raw, reads) := readRaw m gdte []
  let base := (lowerHalf raw).base32.setWidth 64
  let (raw, reads) := readRaw m gdte reads
  let limit := (lowerHalf raw).limit
  let (raw, reads) := readRaw m gdte reads
  let ar := AccessRights.ofGdte raw
  let ar := if selector = 0 then ar.setUnusable true else ar
  return (⟨selector, base, limit, ar⟩, reads)

/-- The descriptor that bits 15 to 3 of a selector name. -/
def descriptor (m : Memory) (gdtr : DescriptorPtr) (selector : BitVec 16) : GdtEntry :=
  entryAt m (gdtr.base + 8#64 * (selector >>> 3).setWidth 64)

/-- The layout of access rights in a VMCS, from the highest bit down: a reserved part, the
unusable bit, G, D/B, L, AVL, a reserved part, P, DPL, S and the type. -/
def layout (e : GdtEntry) (unusable : Bool) : BitVec 32 :=
  0#15 ++ BitVec.ofBool unusable ++ BitVec.ofBool e.g ++ BitVec.ofBool e.db ++
    e.raw.extractLsb' 53 1 ++ e.raw.extractLsb' 52 1 ++ 0#4 ++ BitVec.ofBool e.present ++
    e.raw.extractLsb' 45 2 ++ BitVec.ofBool (!e.system) ++ e.type.toUnderlying

/-- The 64-bit base address of a system descriptor, whatever its granularity bit. -/
def systemBase (e : GdtEntry) : BitVec 64 := e.rawHigh.setWidth 32 ++ e.base32

/-- A segment in the format of a VMCS is the descriptor that the selector names, and was taken from
the table. -/
structure Faithful (m : Memory) (gdtr : DescriptorPtr) (selector : BitVec 16)
    (d : CachedSegmentDescriptor) (reads : Reads) : Prop where
  /-- All bytes read are inside the table. -/
  inside : ∀ r ∈ reads, ∀ k < r.2,
    (r.1 + BitVec.ofNat 64 k - gdtr.base).toNat ≤ gdtr.limit.toNat
  /-- The base address is that of the descriptor. -/
  base : d.base = (descriptor m gdtr selector).base
  /-- The limit is that of the descriptor. -/
  limit : d.limit = (descriptor m gdtr selector).limit
  /-- The access rights have their layout, and are unusable for the null selector. -/
  ar : d.ar.raw = layout (descriptor m gdtr selector) (selector == 0)
  /-- The privilege level reads as that of the descriptor. -/
  dpl : d.ar.getDpl = (descriptor m gdtr selector).dpl
  /-- The type reads as that of the descriptor. -/
  type : d.ar.getType = (descriptor m gdtr selector).type.toUnderlying.setWidth 8

section Bits

variable {a : AccessRights} {e : GdtEntry} {gdte : BitVec 64} {unusable : Bool} {i : ℕ}

theorem getLsbD_getBits {shift width : ℕ} (hwidth : width ≤ 32) :
    (a.getBits shift width).getLsbD i = (decide (i < width) && a.raw.getLsbD (shift + i)) := by
  rw [AccessRights.getBits, BitVec.getLsbD_setWidth, BitVec.getLsbD_and, BitVec.getLsbD_setWidth,
    BitVec.getLsbD_ushiftRight, getLsbD_maskBits (by omega)]
  grind

/-- The access rights take the bits of the descriptor from bit 40 on, without the limit. -/
theorem getLsbD_ofGdte : (AccessRights.ofGdte gdte).raw.getLsbD i =
    if i < 8 then gdte.getLsbD (40 + i)
    else if 12 ≤ i ∧ i < 16 then gdte.getLsbD (40 + i)
    else false := by
  simp only [AccessRights.ofGdte, BitVec.getLsbD_setWidth, BitVec.getLsbD_and, BitVec.getLsbD_not,
    BitVec.getLsbD_shiftLeft, BitVec.getLsbD_ushiftRight,
    getLsbD_maskBits (show 8 + 4 + 4 ≤ 64 by decide), getLsbD_maskBits (show 4 ≤ 64 by decide),
    getLsbD_maskBits (show 14 ≤ 64 by decide)]
  grind

/-- Making a segment unusable changes one bit. -/
theorem getLsbD_setUnusable (hi : i < 32) :
    (a.setUnusable true).raw.getLsbD i = if i = 16 then true else a.raw.getLsbD i := by
  simp only [AccessRights.setUnusable, AccessRights.setBits, BitVec.getLsbD_setWidth,
    BitVec.getLsbD_or, BitVec.getLsbD_and, BitVec.getLsbD_not, BitVec.getLsbD_shiftLeft,
    getLsbD_maskBits (show 1 ≤ 64 by decide), BitVec.getLsbD_ofBool]
  grind

theorem getLsbD_layout : (layout e unusable).getLsbD i =
    if i < 8 then e.raw.getLsbD (40 + i)
    else if 12 ≤ i ∧ i < 16 then e.raw.getLsbD (40 + i)
    else decide (i = 16) && unusable := by
  simp only [layout, BitVec.getLsbD_append, BitVec.getLsbD_ofBool, BitVec.getLsbD_extractLsb',
    BitVec.getLsbD_zero, GdtEntry.g_eq, GdtEntry.db_eq, GdtEntry.present_eq, GdtEntry.system_eq,
    Bool.not_not]
  by_cases hi : i < 4
  · rw [if_pos hi, GdtEntry.getLsbD_type hi, if_pos (by omega)]
  · by_cases hlow : i < 12
    · grind
    · by_cases hmid : i < 16
      · grind
      · obtain rfl | hhigh := (Nat.not_lt.mp hmid).eq_or_lt
        · rfl
        · grind

/-- The privilege level reads as one bit. -/
theorem getDpl_eq_iff (ha : ∀ i < 8, a.raw.getLsbD i = e.raw.getLsbD (40 + i)) :
    a.getDpl = e.dpl ↔ e.raw.getLsbD 46 = false := by
  have hbits {i : ℕ} (hi : i < 8) : a.getDpl.getLsbD i =
      (decide (i < 1) && e.raw.getLsbD (45 + i)) := by
    rw [AccessRights.getDpl, BitVec.getLsbD_setWidth, getLsbD_getBits (by decide)]
    grind
  constructor
  · intro h
    have hbit := hbits (i := 1) (by decide)
    rw [h, GdtEntry.getLsbD_dpl] at hbit
    exact hbit
  · intro h
    apply BitVec.eq_of_getLsbD_eq
    intro i hi
    rw [hbits hi, GdtEntry.getLsbD_dpl]
    grind

theorem getType_eq (ha : ∀ i < 8, a.raw.getLsbD i = e.raw.getLsbD (40 + i)) :
    a.getType = e.type.toUnderlying.setWidth 8 := by
  apply BitVec.eq_of_getLsbD_eq
  intro i hi
  rw [AccessRights.getType, BitVec.getLsbD_setWidth, getLsbD_getBits (by decide),
    BitVec.getLsbD_setWidth]
  by_cases hfield : i < 4
  · rw [GdtEntry.getLsbD_type hfield]
    grind
  · rw [BitVec.getLsbD_of_ge _ i (by omega)]
    grind

/-- The lower half is the base address unless there is something in the upper one. -/
theorem base32_eq_iff : e.base32.setWidth 64 = e.base ↔
    (e.g = true → e.system = true → e.rawHigh.setWidth 32 = 0) := by
  rw [BitVec.eq_of_getLsbD_eq_iff, BitVec.eq_of_getLsbD_eq_iff]
  simp only [BitVec.getLsbD_setWidth, GdtEntry.getLsbD_base32, GdtEntry.getLsbD_base]
  constructor
  · intro h hg hsystem i hi
    have hbit := h (32 + i) (by omega)
    rw [hg, hsystem] at hbit
    grind
  · intro h i hi
    grind

/-- The lower half is the 64-bit base address only if the upper half is zero. -/
theorem base32_eq_systemBase_iff :
    e.base32.setWidth 64 = systemBase e ↔ e.rawHigh.setWidth 32 = 0 := by
  rw [BitVec.eq_of_getLsbD_eq_iff, BitVec.eq_of_getLsbD_eq_iff]
  simp only [systemBase, BitVec.getLsbD_append, BitVec.getLsbD_setWidth]
  constructor
  · intro h i hi
    have hbit := h (32 + i) (by omega)
    rw [BitVec.getLsbD_of_ge e.base32 (32 + i) (by omega)] at hbit
    grind
  · intro h i hi
    by_cases hlow : i < 32
    · simp [hlow, hi]
    · have hbit := h (i - 32) (by omega)
      rw [BitVec.getLsbD_of_ge e.base32 i (by omega)]
      grind

end Bits

section Table

variable {m : Memory} {gdtr : DescriptorPtr} {selector : BitVec 16}

theorem index_eq : (SegmentSelector.mk selector).index = selector >>> 3 := by
  apply BitVec.eq_of_getLsbD_eq
  intro i hi
  rw [SegmentSelector.index, BitVec.getLsbD_setWidth, BitVec.getLsbD_and, BitVec.getLsbD_setWidth,
    getLsbD_maskBits (by decide), BitVec.getLsbD_ushiftRight]
  grind

theorem toNat_index : (selector >>> 3).toNat = selector.toNat / 8 := by
  rw [BitVec.toNat_ushiftRight, Nat.shiftRight_eq_div_pow]

/-- A selector that passes the first assertion passes the second. -/
theorem getGdtEntry_eq (h : selector.toNat < gdtr.limit.toNat) :
    getGdtEntry gdtr ⟨selector⟩ = .ok (gdtr.base + 8#64 * (selector >>> 3).setWidth 64) := by
  have hindex : (SegmentSelector.mk selector).index.toNat < gdtr.limit.toNat := by
    rw [index_eq, toNat_index]
    omega
  rw [getGdtEntry, ensure_of _ hindex, ok_bind, index_eq]
  rfl

theorem base32_lowerHalf (e : GdtEntry) : (lowerHalf e.raw).base32 = e.base32 := rfl

theorem limit_lowerHalf (e : GdtEntry) : (lowerHalf e.raw).limit = e.limit := rfl

/-- The access rights that are taken from a descriptor. -/
def convertAr (selector : BitVec 16) (e : GdtEntry) : AccessRights :=
  if selector = 0 then (AccessRights.ofGdte e.raw).setUnusable true else AccessRights.ofGdte e.raw

/-- The segment that is taken from a descriptor. -/
def convert (selector : BitVec 16) (e : GdtEntry) : CachedSegmentDescriptor :=
  ⟨selector, e.base32.setWidth 64, e.limit, convertAr selector e⟩

/-- The three reads of the descriptor that a selector names. -/
def convertReads (gdtr : DescriptorPtr) (selector : BitVec 16) : Reads :=
  List.replicate 3 (gdtr.base + 8#64 * (selector >>> 3).setWidth 64, 8)

/-- The segment that is taken from the table. -/
theorem cachedSegmentDescriptor_eq (h : selector.toNat < gdtr.limit.toNat) :
    cachedSegmentDescriptor m gdtr selector =
      .ok (convert selector (descriptor m gdtr selector), convertReads gdtr selector) := by
  rw [cachedSegmentDescriptor, ensure_of _ h, ok_bind, getGdtEntry_eq h, convert,
    ← base32_lowerHalf, ← limit_lowerHalf]
  rfl

/-- The descriptor of a selector below the limit ends inside a table of whole descriptors. -/
theorem inside_table {n : ℕ} (hlimit : gdtr.limit.toNat + 1 = 8 * n)
    (h : selector.toNat < gdtr.limit.toNat) {k : ℕ} (hk : k < 8) :
    (gdtr.base + 8#64 * (selector >>> 3).setWidth 64 + BitVec.ofNat 64 k - gdtr.base).toNat ≤
      gdtr.limit.toNat := by
  have hoffset : gdtr.base + 8#64 * (selector >>> 3).setWidth 64 + BitVec.ofNat 64 k - gdtr.base =
      8#64 * (selector >>> 3).setWidth 64 + BitVec.ofNat 64 k := by
    rw [BitVec.add_assoc, add_sub_cancel_left]
  have hselector := selector.isLt
  rw [hoffset, BitVec.toNat_add, BitVec.toNat_mul, BitVec.toNat_setWidth, toNat_index,
    BitVec.toNat_ofNat, BitVec.toNat_ofNat]
  omega

/-- The access rights have their layout. -/
theorem convertAr_eq_layout {e : GdtEntry} :
    (convertAr selector e).raw = layout e (selector == 0) := by
  apply BitVec.eq_of_getLsbD_eq
  intro i hi
  rw [getLsbD_layout, convertAr]
  by_cases hnull : selector = 0
  · rw [if_pos hnull, getLsbD_setUnusable hi, getLsbD_ofGdte, hnull]
    grind
  · rw [if_neg hnull, getLsbD_ofGdte, beq_false_of_ne hnull]
    grind

/-- When the segment taken from the table is faithful. -/
theorem faithful_iff {n : ℕ} (hlimit : gdtr.limit.toNat + 1 = 8 * n)
    (h : selector.toNat < gdtr.limit.toNat) :
    Faithful m gdtr selector (convert selector (descriptor m gdtr selector))
        (convertReads gdtr selector) ↔
      (descriptor m gdtr selector).raw.getLsbD 46 = false ∧
        ((descriptor m gdtr selector).g = true → (descriptor m gdtr selector).system = true →
          (descriptor m gdtr selector).rawHigh.setWidth 32 = 0) := by
  have hlow (i : ℕ) (hi : i < 8) : (convertAr selector (descriptor m gdtr selector)).raw.getLsbD i =
      (descriptor m gdtr selector).raw.getLsbD (40 + i) := by
    rw [convertAr_eq_layout, getLsbD_layout, if_pos hi]
  constructor
  · intro hfaithful
    exact ⟨(getDpl_eq_iff hlow).mp hfaithful.dpl, base32_eq_iff.mp hfaithful.base⟩
  · rintro ⟨hdpl, hbase⟩
    refine ⟨?_, base32_eq_iff.mpr hbase, rfl, convertAr_eq_layout, (getDpl_eq_iff hlow).mpr hdpl,
      getType_eq hlow⟩
    intro r hr k hk
    obtain rfl := List.eq_of_mem_replicate hr
    exact inside_table hlimit h hk

end Table

/-- For every table of whole descriptors and every selector below its limit the conversion returns,
and it is faithful when, and only when, the upper bit of the privilege level is not set and no
upper half of a base address is lost. The second equivalence is for a base address of 64 bits for
all system descriptors, where `base` itself wants the granularity bit. -/
theorem conversion_faithful_iff (m : Memory) (gdtr : DescriptorPtr) (selector : BitVec 16) (n : ℕ)
    (hlimit : gdtr.limit.toNat + 1 = 8 * n) (h : selector.toNat < gdtr.limit.toNat) :
    ∃ d reads, cachedSegmentDescriptor m gdtr selector = .ok (d, reads) ∧
      (Faithful m gdtr selector d reads ↔
        (descriptor m gdtr selector).raw.getLsbD 46 = false ∧
          ((descriptor m gdtr selector).g = true → (descriptor m gdtr selector).system = true →
            (descriptor m gdtr selector).rawHigh.setWidth 32 = 0)) ∧
      (Faithful m gdtr selector d reads ∧ ((descriptor m gdtr selector).system = true →
          d.base = systemBase (descriptor m gdtr selector)) ↔
        (descriptor m gdtr selector).raw.getLsbD 46 = false ∧
          ((descriptor m gdtr selector).system = true →
            (descriptor m gdtr selector).rawHigh.setWidth 32 = 0)) := by
  refine ⟨_, _, cachedSegmentDescriptor_eq h, ?_⟩
  have hiff := faithful_iff (m := m) hlimit h
  refine ⟨hiff, ?_⟩
  rw [hiff, convert, base32_eq_systemBase_iff]
  tauto

/-- The kernel code segment of a GDT converts faithfully. -/
theorem conversion_faithful_kernel_code : ∃ d reads,
    cachedSegmentDescriptor (Memory.store (fun _ => 0) 8 (leBytes 8 0x00af9b000000ffff))
      ⟨15#16, 0#64⟩ 8#16 = .ok (d, reads) ∧
    Faithful (Memory.store (fun _ => 0) 8 (leBytes 8 0x00af9b000000ffff)) ⟨15#16, 0#64⟩ 8#16 d
      reads := by
  obtain ⟨d, reads, hconvert, hiff, -⟩ := conversion_faithful_iff
    (Memory.store (fun _ => 0) 8 (leBytes 8 0x00af9b000000ffff)) ⟨15#16, 0#64⟩ 8#16 2 (by decide)
    (by decide)
  exact ⟨d, reads, hconvert, hiff.mpr ⟨by decide +kernel, by decide +kernel⟩⟩

/-- A GDT with the null descriptor, a code segment for user programs and a task-state segment above
four gigabytes, at address zero. -/
def smallGdt : Memory := Memory.store (fun _ => 0) 8 (leBytes 8 0x00affb000000ffff ++
  leBytes 8 0x0080890000000067 ++ leBytes 8 1)

/-- The privilege level of user code reads as 1 instead of 3, and the task-state segment loses the
upper half of its base address. -/
theorem conversion_loses_bits :
    (∃ d reads, cachedSegmentDescriptor smallGdt ⟨31#16, 0#64⟩ 8#16 = .ok (d, reads) ∧
      d.ar.getDpl = 1#8 ∧ (descriptor smallGdt ⟨31#16, 0#64⟩ 8#16).dpl = 3#8 ∧
      ¬Faithful smallGdt ⟨31#16, 0#64⟩ 8#16 d reads) ∧
    ∃ d reads, cachedSegmentDescriptor smallGdt ⟨31#16, 0#64⟩ 16#16 = .ok (d, reads) ∧
      d.base = 0#64 ∧ (descriptor smallGdt ⟨31#16, 0#64⟩ 16#16).base = 0x100000000#64 ∧
      ¬Faithful smallGdt ⟨31#16, 0#64⟩ 16#16 d reads := by
  refine ⟨⟨_, _, rfl, by decide +kernel, by decide +kernel, fun h => ?_⟩,
    ⟨_, _, rfl, by decide +kernel, by decide +kernel, fun h => ?_⟩⟩
  · exact absurd h.dpl (by decide +kernel)
  · exact absurd h.base (by decide +kernel)

end Vmcs

end Toyos.X86
