import Toyos.Core.Checked
import Toyos.Paging.Fields

/-!
# Translation of linear addresses

`lin_to_phys` walks the identity-mapped paging structures; the accessor of every
level begins again at CR3. The walk is compared with the architectural
translation, which is stated by division and remainder over natural numbers.
-/

namespace Toyos.Paging

open Toyos.Core Toyos.Util

/-- The 64-bit words of the identity-mapped memory, by address. -/
abbrev TableMemory := ℕ → BitVec 64

/-- Level of a paging entry that maps a page. -/
inductive PagingLevel where
  | pte
  | pde
  | pdpte
  deriving DecidableEq, Repr

/-- Reason for stopping a walk. -/
inductive WalkFault where
  /-- A paging structure has been asked of an entry that maps a page. -/
  | panic
  /-- Undefined behaviour on the way. -/
  | access (fault : Fault)
  deriving DecidableEq, Repr

namespace MemoryManager

/-- Address bits of CR3. -/
def pml4Mask : BitVec 64 := maskBits 40 12

/-- The index into the structure whose index bits begin at a position. -/
def offsetIn (shift : ℕ) (linAddr : BitVec 64) : BitVec 64 :=
  (linAddr &&& maskBits 9 shift) >>> shift

/-- Index into the PML4. -/
def pml4Offset (linAddr : BitVec 64) : BitVec 64 := offsetIn 39 linAddr

/-- Index into a PDPT. -/
def pdptOffset (linAddr : BitVec 64) : BitVec 64 := offsetIn 30 linAddr

/-- Index into a PD. -/
def pdOffset (linAddr : BitVec 64) : BitVec 64 := offsetIn 21 linAddr

/-- Index into a PT. -/
def ptOffset (linAddr : BitVec 64) : BitVec 64 := offsetIn 12 linAddr

/-- Number of offset bits of a page at a level. -/
def offsetBits : PagingLevel → ℕ
  | .pdpte => 9 + 9 + 12
  | .pde => 9 + 12
  | .pte => 12

/-- Offset into a page. -/
def physOffset (linAddr : BitVec 64) (level : PagingLevel) : BitVec 64 :=
  (linAddr &&& maskBits (offsetBits level) 0) >>> 0

/-- Address of the PDPT that an entry of the PML4 refers to. -/
def getPdpt (raw : BitVec 64) : Option (BitVec 64) :=
  if isPresent raw then some (raw &&& addrMask) else none

/-- The entry of a structure at an index. -/
def entryAt (mem : TableMemory) (table index : BitVec 64) : BitVec 64 :=
  mem (table + index * 8).toNat

/-- Access to the value of an optional in a walk. -/
def value {α : Type} (o : Option α) : Except WalkFault α := (deref o).mapError .access

section Accessors

variable (mem : TableMemory) (cr3 linAddr : BitVec 64)

/-- The PML4. -/
def pml4 : BitVec 64 := phyToLin (cr3 &&& pml4Mask)

/-- The entry of the PML4. -/
def pml4Entry : BitVec 64 := entryAt mem (pml4 cr3) (pml4Offset linAddr)

/-- The PDPT. -/
def pdpt : Except WalkFault (BitVec 64) := do
  return phyToLin (← value (getPdpt (pml4Entry mem cr3 linAddr)))

/-- The entry of the PDPT. -/
def pdptEntry : Except WalkFault (BitVec 64) := do
  return entryAt mem (← pdpt mem cr3 linAddr) (pdptOffset linAddr)

/-- The PD. -/
def pd : Except WalkFault (BitVec 64) := do
  let pdpte ← pdptEntry mem cr3 linAddr
  ensure (Directory.isLarge pdpte = false) .panic
  return phyToLin (← value (Directory.getTable pdpte))

/-- The entry of the PD. -/
def pdEntry : Except WalkFault (BitVec 64) := do
  return entryAt mem (← pd mem cr3 linAddr) (pdOffset linAddr)

/-- The PT. -/
def pt : Except WalkFault (BitVec 64) := do
  let pde ← pdEntry mem cr3 linAddr
  ensure (Directory.isLarge pde = false) .panic
  return phyToLin (← value (Directory.getTable pde))

/-- The entry of the PT. -/
def ptEntry : Except WalkFault (BitVec 64) := do
  return entryAt mem (← pt mem cr3 linAddr) (ptOffset linAddr)

/-- The physical address that a linear one is mapped to. -/
def linToPhys : Except WalkFault (BitVec 64) := do
  let pdpte ← pdptEntry mem cr3 linAddr
  if Directory.isLarge pdpte then
    return (← value (Directory.getPage .pdpte pdpte)) ||| physOffset linAddr .pdpte
  let pde ← pdEntry mem cr3 linAddr
  if Directory.isLarge pde then
    return (← value (Directory.getPage .pde pde)) ||| physOffset linAddr .pde
  let pte ← ptEntry mem cr3 linAddr
  return (← value (Pte.getPhysAddr pte)) ||| physOffset linAddr .pte

end Accessors

end MemoryManager

/-! ### The architectural translation -/

namespace Arch

/-- Whether an entry is present. -/
def Present (e : ℕ) : Prop := e % 2 = 1

/-- Whether an entry of a directory maps a page. -/
def PageSize (e : ℕ) : Prop := e / 2 ^ 7 % 2 = 1

instance : DecidablePred Present := fun e => inferInstanceAs (Decidable (e % 2 = 1))

instance : DecidablePred PageSize := fun e => inferInstanceAs (Decidable (e / 2 ^ 7 % 2 = 1))

/-- The address in an entry or in CR3, aligned to `2 ^ k`, within 52 bits. -/
def frame (k e : ℕ) : ℕ := e % 2 ^ 52 / 2 ^ k * 2 ^ k

/-- The entry of a table for a linear address whose index bits begin at a position. -/
def entry (mem : TableMemory) (table shift lin : ℕ) : ℕ :=
  (mem (table + 8 * (lin / 2 ^ shift % 512))).toNat

/-- The physical address, if all needed entries are present. -/
def translate (mem : TableMemory) (cr3 lin : ℕ) : Option ℕ := do
  let pml4e := entry mem (frame 12 cr3) 39 lin
  guard (Present pml4e)
  let pdpte := entry mem (frame 12 pml4e) 30 lin
  guard (Present pdpte)
  if PageSize pdpte then
    return frame 30 pdpte + lin % 2 ^ 30
  let pde := entry mem (frame 12 pdpte) 21 lin
  guard (Present pde)
  if PageSize pde then
    return frame 21 pde + lin % 2 ^ 21
  let pte := entry mem (frame 12 pde) 12 lin
  guard (Present pte)
  return frame 12 pte + lin % 2 ^ 12

end Arch

namespace MemoryManager

variable {mem : TableMemory} {cr3 linAddr raw table : BitVec 64}

theorem frame_lt (k e : ℕ) : Arch.frame k e < 2 ^ 52 :=
  lt_of_le_of_lt (Nat.div_mul_le_self _ _) (Nat.mod_lt _ (by decide))

/-- The address bits from a position on are the aligned address. -/
theorem toNat_and_maskBits {k : ℕ} (hk : k ≤ 52) :
    (raw &&& maskBits (52 - k) k).toNat = Arch.frame k raw.toNat := by
  have hframe : raw.toNat / 2 ^ k % 2 ^ (52 - k) * 2 ^ k = Arch.frame k raw.toNat := by
    rw [Arch.frame, ← Nat.mod_mul_right_div_self, ← Nat.pow_add, Nat.add_sub_of_le hk]
  have hlt := frame_lt k raw.toNat
  rw [and_maskBits raw (by omega), hframe, BitVec.toNat_ofNat, Nat.mod_eq_of_lt (by omega)]

/-- The address of a table in an entry. -/
theorem toNat_and_addrMask (raw : BitVec 64) :
    (raw &&& addrMask).toNat = Arch.frame 12 raw.toNat := by
  have hmask : addrMask = maskBits (52 - 12) 12 := rfl
  rw [hmask, toNat_and_maskBits (by decide)]

/-- An index is a digit of the linear address. -/
theorem toNat_offsetIn {shift : ℕ} (h : shift + 9 ≤ 64) :
    (offsetIn shift linAddr).toNat = linAddr.toNat / 2 ^ shift % 512 := by
  have hle : linAddr.toNat / 2 ^ shift % 2 ^ 9 * 2 ^ shift ≤ linAddr.toNat :=
    (Nat.mul_le_mul_right _ (Nat.mod_le _ _)).trans (Nat.div_mul_le_self _ _)
  rw [offsetIn, and_maskBits linAddr h, BitVec.toNat_ushiftRight, BitVec.toNat_ofNat,
    Nat.mod_eq_of_lt (hle.trans_lt linAddr.isLt), Nat.shiftRight_eq_div_pow,
    Nat.mul_div_cancel _ (Nat.two_pow_pos shift), show 2 ^ 9 = 512 from rfl]

/-- The entry of a table is the one of the architectural walk. -/
theorem toNat_entryAt {shift t : ℕ} (hshift : shift + 9 ≤ 64)
    (htable : table.toNat = Arch.frame 12 t) :
    (entryAt mem table (offsetIn shift linAddr)).toNat =
      Arch.entry mem (Arch.frame 12 t) shift linAddr.toNat := by
  have hlt := frame_lt 12 t
  have haddress : (table + offsetIn shift linAddr * 8).toNat =
      Arch.frame 12 t + 8 * (linAddr.toNat / 2 ^ shift % 512) := by
    rw [BitVec.toNat_add, BitVec.toNat_mul, toNat_offsetIn hshift, htable,
      show (8 : BitVec 64).toNat = 8 from rfl]
    omega
  rw [entryAt, haddress, Arch.entry]

theorem isPresent_iff : isPresent raw = true ↔ Arch.Present raw.toNat := by
  rw [isPresent_eq, BitVec.getLsbD, Nat.testBit_zero, decide_eq_true_eq]
  rfl

/-- Of a present entry the page-size bit tells whether it maps a page. -/
theorem isLarge_iff (h : Arch.Present raw.toNat) :
    Directory.isLarge raw = true ↔ Arch.PageSize raw.toNat := by
  rw [Directory.isLarge_eq, ← isPresent_eq, isPresent_iff.mpr h, Bool.true_and, BitVec.getLsbD,
    Nat.testBit_eq_decide_div_mod_eq, decide_eq_true_eq]
  rfl

/-- The page address and the offset are put together without overlap. -/
theorem toNat_or_physOffset (level : PagingLevel) :
    (raw &&& maskBits (52 - offsetBits level) (offsetBits level) |||
      physOffset linAddr level).toNat =
        Arch.frame (offsetBits level) raw.toNat + linAddr.toNat % 2 ^ offsetBits level := by
  have hbits : offsetBits level ≤ 52 := by cases level <;> decide
  have hoffset : (physOffset linAddr level).toNat = linAddr.toNat % 2 ^ offsetBits level := by
    have hlt := Nat.mod_lt linAddr.toNat (Nat.two_pow_pos (offsetBits level))
    have hpow : 2 ^ offsetBits level < 2 ^ 64 := Nat.pow_lt_pow_right (by decide) (by omega)
    rw [physOffset, and_maskBits linAddr (by omega), BitVec.ushiftRight_zero, BitVec.toNat_ofNat,
      Nat.pow_zero, Nat.div_one, Nat.mul_one, Nat.mod_eq_of_lt (by omega)]
  rw [BitVec.toNat_or, toNat_and_maskBits hbits, hoffset, Arch.frame, Nat.mul_comm,
    Nat.two_pow_add_eq_or_of_lt (Nat.mod_lt _ (Nat.two_pow_pos _))]

/-- Below a present entry of the PML4 the entry of the PDPT is the one of the walk. -/
theorem pdptEntry_spec
    (h : Arch.Present (Arch.entry mem (Arch.frame 12 cr3.toNat) 39 linAddr.toNat)) :
    ∃ pdpte, pdptEntry mem cr3 linAddr = .ok pdpte ∧ pdpte.toNat = Arch.entry mem
      (Arch.frame 12 (Arch.entry mem (Arch.frame 12 cr3.toNat) 39 linAddr.toNat)) 30
      linAddr.toNat := by
  have hpml4e : (pml4Entry mem cr3 linAddr).toNat =
      Arch.entry mem (Arch.frame 12 cr3.toNat) 39 linAddr.toNat :=
    toNat_entryAt (by decide) (toNat_and_addrMask cr3)
  rw [← hpml4e] at h ⊢
  refine ⟨entryAt mem (pml4Entry mem cr3 linAddr &&& addrMask) (pdptOffset linAddr), ?_,
    toNat_entryAt (by decide) (toNat_and_addrMask _)⟩
  rw [pdptEntry, pdpt, getPdpt, if_pos (isPresent_iff.mpr h)]
  rfl

/-- The structure that a present entry without the page-size bit refers to. -/
theorem getTable_eq (hpresent : Arch.Present raw.toNat) (hsmall : ¬Arch.PageSize raw.toNat) :
    Directory.isLarge raw = false ∧ Directory.getTable raw = some (raw &&& addrMask) := by
  have hlarge : Directory.isLarge raw = false :=
    Bool.eq_false_iff.mpr (mt (isLarge_iff hpresent).mp hsmall)
  rw [Directory.getTable, hlarge, isPresent_iff.mpr hpresent]
  exact ⟨rfl, rfl⟩

/-- The page that a present entry with the page-size bit refers to. -/
theorem getPage_eq (level : Directory.Level) (hpresent : Arch.Present raw.toNat)
    (hlarge : Arch.PageSize raw.toNat) :
    Directory.isLarge raw = true ∧
      Directory.getPage level raw = some (raw &&& Directory.lpageMask level) := by
  rw [Directory.getPage, (isLarge_iff hpresent).mpr hlarge, isPresent_iff.mpr hpresent]
  exact ⟨rfl, rfl⟩

/-- Below a present entry of the PDPT that does not map a page the entry of the PD is the one of
the walk. -/
theorem pdEntry_spec {pdpte : BitVec 64} (h : pdptEntry mem cr3 linAddr = .ok pdpte)
    (hpresent : Arch.Present pdpte.toNat) (hsmall : ¬Arch.PageSize pdpte.toNat) :
    ∃ pde, pdEntry mem cr3 linAddr = .ok pde ∧
      pde.toNat = Arch.entry mem (Arch.frame 12 pdpte.toNat) 21 linAddr.toNat := by
  obtain ⟨hlarge, htable⟩ := getTable_eq hpresent hsmall
  refine ⟨entryAt mem (pdpte &&& addrMask) (pdOffset linAddr), ?_,
    toNat_entryAt (by decide) (toNat_and_addrMask _)⟩
  rw [pdEntry, pd, h, ok_bind, ensure_of _ hlarge, ok_bind, htable]
  rfl

/-- Below a present entry of the PD that does not map a page the entry of the PT is the one of
the walk. -/
theorem ptEntry_spec {pde : BitVec 64} (h : pdEntry mem cr3 linAddr = .ok pde)
    (hpresent : Arch.Present pde.toNat) (hsmall : ¬Arch.PageSize pde.toNat) :
    ∃ pte, ptEntry mem cr3 linAddr = .ok pte ∧
      pte.toNat = Arch.entry mem (Arch.frame 12 pde.toNat) 12 linAddr.toNat := by
  obtain ⟨hlarge, htable⟩ := getTable_eq hpresent hsmall
  refine ⟨entryAt mem (pde &&& addrMask) (ptOffset linAddr), ?_,
    toNat_entryAt (by decide) (toNat_and_addrMask _)⟩
  rw [ptEntry, pt, h, ok_bind, ensure_of _ hlarge, ok_bind, htable]
  rfl

/-- Wherever the architectural walk finds all needed entries present, the translation runs without
panic and without access to an empty optional, and returns the result of that walk. -/
theorem linToPhys_eq_translate (mem : TableMemory) (cr3 linAddr : BitVec 64) (phys : ℕ)
    (h : Arch.translate mem cr3.toNat linAddr.toNat = some phys) :
    ∃ r, linToPhys mem cr3 linAddr = .ok r ∧ r.toNat = phys := by
  rw [Arch.translate, guard_bind_eq_some] at h
  obtain ⟨hpml4e, h⟩ := h
  obtain ⟨pdpte, hpdpte, hpdpte'⟩ := pdptEntry_spec hpml4e
  rw [guard_bind_eq_some, ← hpdpte'] at h
  obtain ⟨hpresent, h⟩ := h
  rw [linToPhys, hpdpte, ok_bind]
  by_cases hlarge : Arch.PageSize pdpte.toNat
  · obtain ⟨hisLarge, hpage⟩ := getPage_eq .pdpte hpresent hlarge
    rw [if_pos hlarge] at h
    cases h
    rw [if_pos hisLarge, hpage]
    exact ⟨_, rfl, toNat_or_physOffset .pdpte⟩
  rw [if_neg hlarge] at h
  obtain ⟨pde, hpde, hpde'⟩ := pdEntry_spec hpdpte hpresent hlarge
  rw [if_neg (Bool.eq_false_iff.mp (getTable_eq hpresent hlarge).1), hpde, ok_bind]
  rw [guard_bind_eq_some, ← hpde'] at h
  obtain ⟨hpresent', h⟩ := h
  by_cases hlarge' : Arch.PageSize pde.toNat
  · obtain ⟨hisLarge, hpage⟩ := getPage_eq .pde hpresent' hlarge'
    rw [if_pos hlarge'] at h
    cases h
    rw [if_pos hisLarge, hpage]
    exact ⟨_, rfl, toNat_or_physOffset .pde⟩
  rw [if_neg hlarge'] at h
  obtain ⟨pte, hpte, hpte'⟩ := ptEntry_spec hpde hpresent' hlarge'
  rw [if_neg (Bool.eq_false_iff.mp (getTable_eq hpresent' hlarge').1), hpte, ok_bind]
  rw [guard_bind_eq_some, ← hpte'] at h
  obtain ⟨hpresent'', h⟩ := h
  cases h
  rw [Pte.getPhysAddr, if_pos (isPresent_iff.mpr hpresent'')]
  exact ⟨_, rfl, toNat_or_physOffset .pte⟩

/-- A PML4 at 0x1000, a PDPT at 0x2000 whose first entry maps a 1-GiB page and whose second one
refers to a PD at 0x3000, which has a 2-MiB page and a PT at 0x4000 with a single page. -/
def fourLevels : TableMemory := fun address =>
  if address = 0x1000 then 0x2001#64
  else if address = 0x2000 then 0x0000000140000181#64
  else if address = 0x2008 then 0x3001#64
  else if address = 0x3000 then 0x0000000000a00081#64
  else if address = 0x3008 then 0x4001#64
  else if address = 0x4018 then 0x8000000000007001#64
  else 0#64

theorem linToPhys_eq_translate_page :
    ∃ r, linToPhys fourLevels 0x1018#64 0x40203456#64 = .ok r ∧ r.toNat = 0x7456 :=
  linToPhys_eq_translate fourLevels 0x1018#64 0x40203456#64 0x7456 (by decide +kernel)

end MemoryManager

end Toyos.Paging
