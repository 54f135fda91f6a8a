import Toyos.Core.BitField
import Toyos.Util.Math

/-!
# Sizing of base address registers

A base address register pair is two 32-bit registers some of whose bits are
read-only. `bar_size` writes all ones through `address`, finds the size in the
bits that stick, and writes the old address back. The code tests the width in
the same two bits for every kind of register and clears four low address bits.
-/

namespace Toyos.Pci

open Toyos.Core Toyos.Util

/-- A 32-bit register together with the bits of it that can be written. -/
@[ext]
structure Register where
  /-- Current content. -/
  value : BitVec 32
  /-- Bits that follow a write; the others are read-only. -/
  writable : BitVec 32
  deriving DecidableEq, Repr

/-- Write a register: only its writable bits follow. -/
def Register.write (r : Register) (v : BitVec 32) : Register :=
  { r with value := writeBits r.value r.writable v }

/-- The two registers that `bar_t` accesses. -/
@[ext]
structure Bar where
  /-- The base address register itself. -/
  raw : Register
  /-- The register behind it, the upper half of a 64-bit address. -/
  rawHi : Register
  deriving DecidableEq, Repr

namespace Bar

/-- Mask for getting the actual address. -/
def addressMask : BitVec 64 := ~~~maskBits 4 0

/-- Whether the width bits say that the address has 64 bits. -/
def is64bit (b : Bar) : Bool :=
  (b.raw.value >>> 1).setWidth 64 &&& maskBits 2 0 == 2#64

/-- Whether the type bit says that the addresses are I/O ports. -/
def isPio (b : Bar) : Bool := b.raw.value &&& 1#32 == 1#32

/-- The complete address. -/
def address (b : Bar) : BitVec 64 :=
  b.raw.value.setWidth 64 &&& addressMask |||
    if b.is64bit then b.rawHi.value.setWidth 64 <<< 32 else 0

/-- Write the lower half of an address, together with the low bits as they are. -/
def setRaw (b : Bar) (val : BitVec 64) : Bar :=
  let newRaw := b.raw.value.setWidth 64 &&& ~~~addressMask |||
    (val.setWidth 32).setWidth 64 &&& addressMask
  { b with raw := b.raw.write (newRaw.setWidth 32) }

/-- Set the address; the upper half is written when the lower one, read back, has 64 bits. -/
def setAddress (b : Bar) (val : BitVec 64) : Bar :=
  if (b.setRaw val).is64bit then
    { b.setRaw val with rawHi := b.rawHi.write ((val >>> 32).setWidth 32) }
  else b.setRaw val

/-- Size of the region, and the registers after it has been determined. -/
def barSize (b : Bar) : BitVec 64 × Bar :=
  let origVal := b.address
  let b := b.setAddress (maskBits 64 0)
  let newVal := b.address
  let size := (~~~newVal + 1) &&& newVal
  (size, b.setAddress origVal)

section Bits

variable {b : Bar} {val : BitVec 64} {i : ℕ}

theorem getLsbD_addressMask : addressMask.getLsbD i = (decide (i < 64) && decide (4 ≤ i)) := by
  rw [addressMask, BitVec.getLsbD_not, getLsbD_maskBits (by decide)]
  by_cases hi : i < 64
  · by_cases hlow : i < 4
    · simp [hi, hlow]
    · simp [hi, hlow, show 4 ≤ i by omega]
  · simp [hi]

/-- The width test looks at bits one and two. -/
theorem is64bit_eq (b : Bar) : b.is64bit = (!b.raw.value.getLsbD 1 && b.raw.value.getLsbD 2) := by
  have hfield : (b.raw.value >>> 1).setWidth 64 &&& maskBits 2 0 =
      BitVec.ofNat 64 (b.raw.value.toNat / 2 % 4) := by
    apply BitVec.eq_of_toNat_eq
    simp only [BitVec.toNat_and, BitVec.toNat_setWidth, BitVec.toNat_ushiftRight, maskBits,
      BitVec.toNat_ofNat]
    rw [Nat.mod_eq_of_lt (show mask 2 0 < 2 ^ 64 by decide), and_mask_eq_mod (by decide),
      Nat.shiftRight_eq_div_pow]
    omega
  rw [is64bit, hfield, Bool.eq_iff_iff]
  simp only [beq_iff_eq, BitVec.getLsbD, Nat.testBit_eq_decide_div_mod_eq, Bool.and_eq_true,
    Bool.not_eq_true', decide_eq_true_eq, decide_eq_false_iff_not, ← BitVec.toNat_inj,
    BitVec.toNat_ofNat]
  omega

/-- The type test looks at the lowest bit. -/
theorem isPio_eq (b : Bar) : b.isPio = b.raw.value.getLsbD 0 := by
  rw [isPio, Bool.eq_iff_iff, beq_iff_eq, ← BitVec.toNat_inj, BitVec.toNat_and,
    show (1#32).toNat = 1 from rfl, Nat.and_one_is_mod, BitVec.getLsbD, Nat.testBit_zero,
    decide_eq_true_eq]

/-- The address consists of the address bits of the two registers. -/
theorem getLsbD_address (hi : i < 64) : b.address.getLsbD i =
    if i < 32 then decide (4 ≤ i) && b.raw.value.getLsbD i
    else b.is64bit && b.rawHi.value.getLsbD (i - 32) := by
  rw [address, BitVec.getLsbD_or, BitVec.getLsbD_and, getLsbD_addressMask, BitVec.getLsbD_setWidth]
  by_cases hlow : i < 32
  · have hhigh : (if b.is64bit then b.rawHi.value.setWidth 64 <<< 32 else 0).getLsbD i = false := by
      split <;> simp [hlow]
    rw [hhigh, if_pos hlow]
    simp [hi, Bool.and_comm]
  · have hraw : b.raw.value.getLsbD i = false := BitVec.getLsbD_of_ge _ _ (by omega)
    rw [if_neg hlow, hraw]
    cases b.is64bit with
    | false => simp
    | true => simp [hi, hlow]

/-- Writing the lower half changes its writable address bits. -/
theorem getLsbD_raw_setRaw : (b.setRaw val).raw.value.getLsbD i =
    if 4 ≤ i ∧ b.raw.writable.getLsbD i = true then val.getLsbD i else b.raw.value.getLsbD i := by
  rw [setRaw, Register.write, getLsbD_writeBits]
  by_cases hi : i < 32
  · simp only [BitVec.getLsbD_setWidth, BitVec.getLsbD_or, BitVec.getLsbD_and, BitVec.getLsbD_not,
      getLsbD_addressMask, hi, show i < 64 by omega, decide_true, Bool.true_and]
    by_cases hlow : 4 ≤ i
    · simp [hlow]
    · simp [hlow]
  · have hwritable : b.raw.writable.getLsbD i = false := BitVec.getLsbD_of_ge _ _ (by omega)
    simp [hwritable]

/-- The width bits are written back as they are. -/
theorem is64bit_setRaw : (b.setRaw val).is64bit = b.is64bit := by
  rw [is64bit_eq, is64bit_eq, getLsbD_raw_setRaw, getLsbD_raw_setRaw]
  simp

/-- The upper register is written exactly when the address has 64 bits. -/
theorem setAddress_eq (b : Bar) (val : BitVec 64) : b.setAddress val =
    { raw := (b.setRaw val).raw
      rawHi := if b.is64bit then b.rawHi.write ((val >>> 32).setWidth 32) else b.rawHi } := by
  rw [setAddress, is64bit_setRaw]
  split <;> rfl

theorem getLsbD_raw_setAddress : (b.setAddress val).raw.value.getLsbD i =
    if 4 ≤ i ∧ b.raw.writable.getLsbD i = true then val.getLsbD i else b.raw.value.getLsbD i := by
  rw [setAddress_eq, getLsbD_raw_setRaw]

theorem is64bit_setAddress : (b.setAddress val).is64bit = b.is64bit := by
  rw [setAddress_eq]
  exact is64bit_setRaw

theorem getLsbD_rawHi_setAddress : (b.setAddress val).rawHi.value.getLsbD i =
    if b.is64bit = true ∧ b.rawHi.writable.getLsbD i = true then val.getLsbD (32 + i)
    else b.rawHi.value.getLsbD i := by
  rw [setAddress_eq]
  by_cases hwidth : b.is64bit = true
  · simp only [hwidth, if_true, Register.write, getLsbD_writeBits]
    by_cases hi : i < 32
    · simp [hi]
    · have hwritable : b.rawHi.writable.getLsbD i = false := BitVec.getLsbD_of_ge _ _ (by omega)
      simp [hwritable]
  · simp [hwidth]

/-- Which bits can be written is not affected by a write. -/
theorem writable_setAddress (b : Bar) (val : BitVec 64) :
    (b.setAddress val).raw.writable = b.raw.writable ∧
      (b.setAddress val).rawHi.writable = b.rawHi.writable := by
  rw [setAddress_eq]
  refine ⟨rfl, ?_⟩
  dsimp only
  split <;> rfl

/-- Setting the address read before undoes any other setting in between. -/
theorem setAddress_restores : (b.setAddress val).setAddress b.address = b := by
  obtain ⟨hwritable, hwritableHi⟩ := writable_setAddress b val
  obtain ⟨hwritable', hwritableHi'⟩ := writable_setAddress (b.setAddress val) b.address
  refine Bar.ext (Register.ext ?_ (hwritable'.trans hwritable))
    (Register.ext ?_ (hwritableHi'.trans hwritableHi))
  · apply BitVec.eq_of_getLsbD_eq
    intro i hi
    rw [getLsbD_raw_setAddress, getLsbD_raw_setAddress, hwritable, getLsbD_address (by omega),
      if_pos hi]
    by_cases hbit : 4 ≤ i ∧ b.raw.writable.getLsbD i = true
    · simp [hbit]
    · simp [hbit]
  · apply BitVec.eq_of_getLsbD_eq
    intro i hi
    rw [getLsbD_rawHi_setAddress, getLsbD_rawHi_setAddress, is64bit_setAddress, hwritableHi,
      getLsbD_address (by omega)]
    by_cases hbit : b.is64bit = true ∧ b.rawHi.writable.getLsbD i = true
    · simp [hbit]
    · simp [hbit]

end Bits

/-- What a base address register decodes. -/
inductive Kind where
  /-- A memory region with a 32-bit address. -/
  | mem32 (prefetchable : Bool)
  /-- A memory region with a 64-bit address. -/
  | mem64 (prefetchable : Bool)
  /-- A range of I/O ports. -/
  | io
  deriving DecidableEq, Repr

namespace Kind

/-- The read-only bits that tell the kind. -/
def typeBits : Kind → BitVec 32
  | mem32 prefetchable => if prefetchable then 0b1000#32 else 0b0000#32
  | mem64 prefetchable => if prefetchable then 0b1100#32 else 0b0100#32
  | io => 0b0001#32

/-- Number of address bits. -/
def width : Kind → ℕ
  | mem32 _ => 32
  | mem64 _ => 64
  | io => 32

/-- The smallest region that can be requested, as a power of two. -/
def minOrder : Kind → ℕ
  | mem32 _ => 4
  | mem64 _ => 4
  | io => 2

theorem width_eq_or (kind : Kind) : kind.width = 32 ∨ kind.width = 64 := by
  cases kind with
  | mem32 _ => exact .inl rfl
  | mem64 _ => exact .inr rfl
  | io => exact .inl rfl

/-- All type bits are among the four lowest. -/
theorem getLsbD_typeBits_of_ge (kind : Kind) {i : ℕ} (hi : 4 ≤ i) :
    kind.typeBits.getLsbD i = false := by
  have hlt : kind.typeBits.toNat < 2 ^ 4 := by
    cases kind with
    | mem32 prefetchable => cases prefetchable <;> decide
    | mem64 prefetchable => cases prefetchable <;> decide
    | io => decide
  exact getLsbD_of_toNat_lt hlt hi

end Kind

/-- The registers decode a region of `2 ^ k` bytes at a base address in the way PCI specifies:
the type bits and the address bits below `k` are read-only, the other address bits can be
written. The second register belongs to the region only if the address has 64 bits. -/
structure Decodes (b : Bar) (kind : Kind) (k : ℕ) (base : BitVec 64) : Prop where
  /-- The region is not smaller than its kind allows. -/
  minOrder_le : kind.minOrder ≤ k
  /-- The region fits into the address space of its kind. -/
  lt_width : k < kind.width
  /-- The base address lies in the address space of its kind. -/
  base_lt : base.toNat < 2 ^ kind.width
  /-- The base address is a multiple of the size. -/
  aligned : 2 ^ k ∣ base.toNat
  /-- The lower register holds the low address bits and the type bits. -/
  raw_value : b.raw.value = base.setWidth 32 ||| kind.typeBits
  /-- The lower register has the address bits from `k` on writable. -/
  raw_writable : b.raw.writable = BitVec.allOnes 32 <<< k
  /-- The upper register holds the high address bits. -/
  rawHi_value : kind.width = 64 → b.rawHi.value = (base >>> 32).setWidth 32
  /-- The upper register has the remaining address bits from `k` on writable. -/
  rawHi_writable : kind.width = 64 → b.rawHi.writable = BitVec.allOnes 32 <<< (k - 32)

namespace Decodes

variable {b : Bar} {kind : Kind} {k : ℕ} {base : BitVec 64} {i : ℕ}

theorem base_low (h : Decodes b kind k base) (hi : i < k) : base.getLsbD i = false :=
  two_pow_dvd_iff_testBit.mp h.aligned i hi

theorem base_high (h : Decodes b kind k base) (hi : kind.width ≤ i) : base.getLsbD i = false :=
  getLsbD_of_toNat_lt h.base_lt hi

theorem getLsbD_raw (h : Decodes b kind k base) (hi : i < 32) :
    b.raw.value.getLsbD i = (base.getLsbD i || kind.typeBits.getLsbD i) := by
  rw [h.raw_value, BitVec.getLsbD_or, BitVec.getLsbD_setWidth]
  simp [hi]

theorem getLsbD_raw_writable (h : Decodes b kind k base) (hi : i < 32) :
    b.raw.writable.getLsbD i = decide (k ≤ i) := by
  rw [h.raw_writable, getLsbD_allOnes_shiftLeft]
  simp [hi]

theorem getLsbD_rawHi (h : Decodes b kind k base) (hwidth : kind.width = 64) (hi : i < 32) :
    b.rawHi.value.getLsbD i = base.getLsbD (32 + i) := by
  rw [h.rawHi_value hwidth, BitVec.getLsbD_setWidth, BitVec.getLsbD_ushiftRight]
  simp [hi]

theorem getLsbD_rawHi_writable (h : Decodes b kind k base) (hwidth : kind.width = 64)
    (hi : i < 32) : b.rawHi.writable.getLsbD i = decide (k ≤ 32 + i) := by
  rw [h.rawHi_writable hwidth, getLsbD_allOnes_shiftLeft, decide_eq_true hi, Bool.true_and,
    decide_eq_decide]
  omega

/-- Regions of at least sixteen bytes are told apart by the width bits. -/
theorem is64bit_eq (h : Decodes b kind k base) (hk : 4 ≤ k) :
    b.is64bit = decide (kind.width = 64) := by
  rw [Bar.is64bit_eq, h.getLsbD_raw (by decide), h.getLsbD_raw (by decide),
    h.base_low (show 1 < k by omega), h.base_low (show 2 < k by omega)]
  cases kind with
  | mem32 prefetchable => cases prefetchable <;> rfl
  | mem64 prefetchable => cases prefetchable <;> rfl
  | io => rfl

theorem order_lt (h : Decodes b kind k base) : k < 64 := by
  have hlt := h.lt_width
  rcases kind.width_eq_or with hwidth | hwidth <;> omega

/-- A region beyond the lower register has a 64-bit address. -/
theorem width_eq (h : Decodes b kind k base) (hk : 32 ≤ k) : kind.width = 64 := by
  have hlt := h.lt_width
  rcases kind.width_eq_or with hwidth | hwidth <;> omega

/-- The address is the base address for regions of at least sixteen bytes. -/
theorem address_eq (h : Decodes b kind k base) (hk : 4 ≤ k) : b.address = base := by
  apply BitVec.eq_of_getLsbD_eq
  intro i hi
  rw [getLsbD_address hi, h.is64bit_eq hk]
  by_cases hlow : i < 32
  · rw [if_pos hlow, h.getLsbD_raw hlow]
    by_cases hfour : 4 ≤ i
    · simp [hfour, kind.getLsbD_typeBits_of_ge hfour]
    · simp [hfour, h.base_low (show i < k by omega)]
  · rw [if_neg hlow]
    by_cases hwidth : kind.width = 64
    · simp [hwidth, h.getLsbD_rawHi hwidth (show i - 32 < 32 by omega),
        show 32 + (i - 32) = i by omega]
    · have hnarrow : kind.width = 32 := kind.width_eq_or.resolve_right hwidth
      simp [hwidth, h.base_high (show kind.width ≤ i by omega)]

/-- After all ones have been written, the address reads as zero below the region's order and
below the four cleared bits. -/
theorem probe_low (h : Decodes b kind k base) (hi : i < max k 4) :
    (b.setAddress (maskBits 64 0)).address.getLsbD i = false := by
  have hk := h.order_lt
  rw [getLsbD_address (by omega)]
  split
  · rename_i hlow
    by_cases hfour : 4 ≤ i
    · rw [getLsbD_raw_setAddress, h.getLsbD_raw_writable hlow, h.getLsbD_raw hlow,
        h.base_low (show i < k by omega), kind.getLsbD_typeBits_of_ge hfour]
      simp [show ¬k ≤ i by omega]
    · simp [hfour]
  · rename_i hlow
    have hwidth := h.width_eq (show 32 ≤ k by omega)
    rw [getLsbD_rawHi_setAddress, h.getLsbD_rawHi_writable hwidth (by omega),
      h.getLsbD_rawHi hwidth (by omega), h.base_low (by omega)]
    simp [show ¬k ≤ 32 + (i - 32) by omega]

/-- The lowest address bit that sticks is the one of the region's order, or the lowest bit that
is not cleared. -/
theorem probe_order (h : Decodes b kind k base) :
    (b.setAddress (maskBits 64 0)).address.getLsbD (max k 4) = true := by
  have hk := h.order_lt
  have hones : (maskBits 64 0).getLsbD (max k 4) = true := by
    rw [getLsbD_maskBits (by decide)]
    simp [show max k 4 < 64 by omega]
  rw [getLsbD_address (by omega)]
  split
  · rename_i hlow
    rw [getLsbD_raw_setAddress, h.getLsbD_raw_writable hlow, hones]
    simp
  · rename_i hlow
    have hwidth := h.width_eq (show 32 ≤ k by omega)
    rw [getLsbD_rawHi_setAddress, is64bit_setAddress, h.is64bit_eq (by omega),
      h.getLsbD_rawHi_writable hwidth (by omega), show 32 + (max k 4 - 32) = max k 4 by omega,
      hones]
    simp [hwidth]

/-- The size found is the size of the region, but never less than sixteen. -/
theorem barSize_eq (h : Decodes b kind k base) :
    b.barSize = (BitVec.twoPow 64 (max k 4), b) := by
  have hsize : ~~~(b.setAddress (maskBits 64 0)).address + 1#64 &&&
      (b.setAddress (maskBits 64 0)).address = BitVec.twoPow 64 (max k 4) := by
    rw [← BitVec.neg_eq_not_add]
    exact neg_and_self h.probe_order fun j hj => h.probe_low hj
  exact Prod.ext hsize setAddress_restores

end Decodes

/-- The sizing is right for every kind of region and every base address when, and only when, the
region has at least sixteen bytes. -/
theorem sizing_iff {b : Bar} {kind : Kind} {k : ℕ} {base : BitVec 64}
    (h : Decodes b kind k base) :
    (b.address = base ∧ b.barSize.1.toNat = 2 ^ k ∧ b.barSize.2 = b) ↔ 4 ≤ k := by
  have hk := h.order_lt
  have hsize : (BitVec.twoPow 64 (max k 4)).toNat = 2 ^ max k 4 := by
    rw [BitVec.toNat_twoPow, Nat.mod_eq_of_lt (Nat.pow_lt_pow_right (by decide) (by omega))]
  rw [h.barSize_eq, hsize]
  constructor
  · rintro ⟨-, horder, -⟩
    have := Nat.pow_right_injective (le_refl 2) horder
    omega
  · intro hfour
    exact ⟨h.address_eq hfour, by rw [Nat.max_eq_left hfour], rfl⟩

/-- A 64-bit memory region of eight gibibytes, whose size bit is in the upper register. -/
def largeRegion : Bar :=
  { raw := ⟨0x0000000c#32, 0x00000000#32⟩
    rawHi := ⟨0x00000006#32, 0xfffffffe#32⟩ }

theorem largeRegion_decodes : Decodes largeRegion (.mem64 true) 33 0x600000000#64 where
  minOrder_le := by decide
  lt_width := by decide
  base_lt := by decide
  aligned := by decide
  raw_value := by decide
  raw_writable := by decide
  rawHi_value := fun _ => by decide
  rawHi_writable := fun _ => by decide

/-- Its address and size are found and its registers restored. -/
theorem sizing_iff_large : largeRegion.address = 0x600000000#64 ∧
    largeRegion.barSize.1.toNat = 2 ^ 33 ∧ largeRegion.barSize.2 = largeRegion :=
  (sizing_iff largeRegion_decodes).mpr (by decide)

/-- Eight I/O ports at a base address whose bit three is set. -/
def smallPorts : Bar :=
  { raw := ⟨0x0000c009#32, 0xfffffff8#32⟩
    rawHi := ⟨0x00000000#32, 0x00000000#32⟩ }

theorem smallPorts_decodes : Decodes smallPorts .io 3 0xc008#64 where
  minOrder_le := by decide
  lt_width := by decide
  base_lt := by decide
  aligned := by decide
  raw_value := by decide
  raw_writable := by decide
  rawHi_value := fun h => absurd h (by decide)
  rawHi_writable := fun h => absurd h (by decide)

/-- For a range of eight I/O ports both the address and the size are wrong. -/
theorem small_ports_missized : Decodes smallPorts .io 3 0xc008#64 ∧
    smallPorts.address = 0xc000#64 ∧ smallPorts.barSize.1 = 16#64 :=
  ⟨smallPorts_decodes, by decide, by decide⟩

end Bar

end Toyos.Pci
