import Toyos.Core.Flag
import Toyos.Core.Loop
import Toyos.Util.Math

/-!
# Masking the I/O APIC pins at boot

The registers of the I/O APIC are reached through a window: an index is written to
the select register before the data register is read or written. The accesses are
the same for every device behind such a window. At boot
`init_interrupt_controllers` masks redirection entries one after another, up to
but without the last one, whose index is what `max_irt` reports.
-/

namespace Toyos.Boot

open Toyos.Core Toyos.Util

/-- The I/O APIC, with registers that behave as plain storage. -/
structure IoApic where
  /-- The register select. -/
  select : ℕ
  /-- The registers behind the window. -/
  regs : ℕ → BitVec 32

namespace IoApic

/-- Index of the version register. -/
def versionReg : ℕ := 0x01

/-- Index of the first register of the redirection table. -/
def irt0 : ℕ := 0x10

/-- Position of the maximum redirection entry index within the version register. -/
def maxIrtShift : ℕ := 16

/-- Position of the mask bit of a redirection entry. -/
def maskedBit : ℕ := 16

end IoApic

/-- A device behind the window. -/
class Window (δ : Type) where
  /-- A store to the select register. -/
  setSelect : ℕ → δ → δ
  /-- The contents of the data register. -/
  data : δ → BitVec 32
  /-- A store to the data register. -/
  setData : BitVec 32 → δ → δ

instance : Window IoApic where
  setSelect r d := { d with select := r }
  data d := d.regs d.select
  setData val d := { d with regs := Function.update d.regs d.select val }

namespace IoApic

variable {δ : Type} [Window δ]

/-- Store to the select register. -/
def setSelect (r : ℕ) : StateM δ Unit := modify (Window.setSelect r)

/-- Load from the data register. -/
def getData : StateM δ (BitVec 32) := do
  let d ← get
  return Window.data d

/-- Store to the data register. -/
def setData (val : BitVec 32) : StateM δ Unit := modify (Window.setData val)

/-- Read a register from a bit position on. -/
def read (r shift : ℕ) : StateM δ (BitVec 32) := do
  setSelect r
  return (← getData) >>> shift

/-- Write a register. -/
def write (r : ℕ) (val : BitVec 32) : StateM δ Unit := do
  setSelect r
  setData val

/-- The maximum redirection entry, a byte of the version register. -/
def maxIrt : StateM δ ℕ := do
  return ((← read versionReg maxIrtShift).setWidth 8).toNat

/-- A copy of a redirection entry. -/
structure RedirectionEntry where
  /-- The redirection entry index. -/
  index : ℕ
  /-- The raw value of the entry. -/
  raw : BitVec 64
  deriving DecidableEq, Repr

/-- Whether the entry is masked. -/
def RedirectionEntry.masked (e : RedirectionEntry) : Bool := hasFlag e.raw maskedBit

/-- Mask the entry. -/
def RedirectionEntry.mask (e : RedirectionEntry) : RedirectionEntry :=
  { e with raw := e.raw ||| flag 64 maskedBit }

/-- A redirection entry from the contents of its two registers. -/
def pack (hi lo : BitVec 32) : BitVec 64 := hi.setWidth 64 <<< 32 ||| lo.setWidth 64

/-- A copy of the redirection entry at an index. -/
def getIrt (idx : ℕ) : StateM δ RedirectionEntry := do
  let lo ← read (irt0 + idx * 2) 0
  let hi ← read (irt0 + idx * 2 + 1) 0
  return ⟨idx, pack hi lo⟩

/-- Update a redirection entry: it is masked first, and its low part is written last. -/
def setIrt (entry : RedirectionEntry) : StateM δ Unit := do
  let regLo := irt0 + entry.index * 2
  let regHi := irt0 + entry.index * 2 + 1
  write regLo ((← read regLo 0) ||| flag 32 maskedBit)
  write regHi ((entry.raw >>> 32).setWidth 32)
  write regLo ((entry.raw &&& maskBits 32 0).setWidth 32)

/-- The body of the masking loop. -/
def maskIrt (idx : ℕ) : StateM IoApic Unit := do
  let irt ← getIrt idx
  if !irt.masked then
    setIrt irt.mask

/-- Reason for stopping. -/
inductive Fault where
  /-- More rounds than a byte can count. -/
  | unfinished
  deriving DecidableEq, Repr

/-- A round of the masking loop. -/
def maskRound (s : ℕ × IoApic) : Except Fault ((ℕ × IoApic) ⊕ IoApic) :=
  let (max, d) := maxIrt.run s.2
  if s.1 < max then
    .ok (.inl ((s.1 + 1) % 2 ^ 8, ((maskIrt s.1).run d).2))
  else .ok (.inr d)

/-- The I/O APIC after the initialization; the other interrupt controllers that
`init_interrupt_controllers` sets up are separate devices. -/
def initInterruptControllers (d : IoApic) : Except Fault IoApic :=
  loop maskRound .unfinished (2 ^ 8) (0, d)

/-- The redirection entry at an index. -/
def entry (d : IoApic) (i : ℕ) : BitVec 64 :=
  pack (d.regs (irt0 + i * 2 + 1)) (d.regs (irt0 + i * 2))

/-- The maximum redirection entry index that the version register holds. -/
def lastIndex (d : IoApic) : ℕ := ((d.regs versionReg >>> maxIrtShift).setWidth 8).toNat

variable {d : IoApic} {i n r : ℕ} {hi lo : BitVec 32}

theorem run_maxIrt : maxIrt.run d = (d.lastIndex, { d with select := versionReg }) := rfl

theorem run_getIrt :
    (getIrt i).run d = (⟨i, d.entry i⟩, { d with select := irt0 + i * 2 + 1 }) := by
  have hrun : (getIrt i).run d =
      (⟨i, pack (d.regs (irt0 + i * 2 + 1) >>> 0) (d.regs (irt0 + i * 2) >>> 0)⟩,
        { d with select := irt0 + i * 2 + 1 }) := rfl
  rw [hrun, BitVec.ushiftRight_zero, BitVec.ushiftRight_zero]
  rfl

theorem getLsbD_pack : (pack hi lo).getLsbD i =
    if i < 32 then lo.getLsbD i else hi.getLsbD (i - 32) := by
  rw [pack, BitVec.getLsbD_or, BitVec.getLsbD_shiftLeft, BitVec.getLsbD_setWidth,
    BitVec.getLsbD_setWidth]
  by_cases h : i < 32
  · simp [h, show i < 64 by omega]
  · by_cases h' : i < 64
    · simp [h, h', BitVec.getLsbD_of_ge lo i (by omega), show i - 32 < 64 by omega]
    · simp [h, h', BitVec.getLsbD_of_ge hi (i - 32) (by omega)]

/-- Masking an entry masks its low part. -/
theorem pack_or_masked : pack hi lo ||| flag 64 maskedBit = pack hi (lo ||| flag 32 maskedBit) := by
  apply BitVec.eq_of_getLsbD_eq
  intro i _
  rw [BitVec.getLsbD_or, getLsbD_pack, getLsbD_pack, BitVec.getLsbD_or, getLsbD_flag (by decide),
    getLsbD_flag (by decide)]
  by_cases h : i < 32
  · simp [h]
  · simp [h, maskedBit, show i ≠ 16 by omega]

theorem pack_high : ((pack hi lo) >>> 32).setWidth 32 = hi := by
  apply BitVec.eq_of_getLsbD_eq
  intro i hi'
  rw [BitVec.getLsbD_setWidth, BitVec.getLsbD_ushiftRight, getLsbD_pack]
  simp [hi']

theorem pack_low : (pack hi lo &&& maskBits 32 0).setWidth 32 = lo := by
  apply BitVec.eq_of_getLsbD_eq
  intro i hi'
  rw [BitVec.getLsbD_setWidth, BitVec.getLsbD_and, getLsbD_pack, getLsbD_maskBits (by decide)]
  simp [hi', show i < 64 by omega]

theorem hasFlag_pack : hasFlag (pack hi lo) maskedBit = hasFlag lo maskedBit := by
  rw [hasFlag_eq, hasFlag_eq, getLsbD_pack, if_pos (by decide)]

/-- Writing an entry back with its mask bit raised changes the mask bit only. -/
theorem regs_setIrt : ((setIrt ⟨i, d.entry i ||| flag 64 maskedBit⟩).run d).2.regs =
    Function.update d.regs (irt0 + i * 2) (d.regs (irt0 + i * 2) ||| flag 32 maskedBit) := by
  have hrun (raw : BitVec 64) : ((setIrt ⟨i, raw⟩).run d).2.regs =
      Function.update (Function.update (Function.update d.regs (irt0 + i * 2)
        (d.regs (irt0 + i * 2) >>> 0 ||| flag 32 maskedBit)) (irt0 + i * 2 + 1)
        ((raw >>> 32).setWidth 32)) (irt0 + i * 2) ((raw &&& maskBits 32 0).setWidth 32) := rfl
  rw [hrun, entry, pack_or_masked, pack_high, pack_low]
  ext1 r
  by_cases hlo : r = irt0 + i * 2
  · simp [hlo]
  · by_cases hhi : r = irt0 + i * 2 + 1
    · simp [hhi]
    · simp [hlo, hhi]

/-- The body of the loop masks the entry and changes nothing else. -/
theorem regs_maskIrt : ((maskIrt i).run d).2.regs = Function.update d.regs (irt0 + i * 2)
    (d.regs (irt0 + i * 2) ||| flag 32 maskedBit) := by
  have hrun : (maskIrt i).run d = StateT.run (if !hasFlag (d.entry i) maskedBit then
      setIrt ⟨i, d.entry i ||| flag 64 maskedBit⟩ else pure ())
        { d with select := irt0 + i * 2 + 1 } := by
    rw [maskIrt, StateT.run_bind, run_getIrt]
    rfl
  rw [hrun, entry, hasFlag_pack]
  by_cases hmasked : hasFlag (d.regs (irt0 + i * 2)) maskedBit = true
  · rw [hmasked, if_neg (by decide), (or_flag_eq_self_iff (by decide)).mpr hmasked,
      Function.update_eq_self]
    rfl
  · rw [if_pos (by simpa using hmasked)]
    exact regs_setIrt

/-- The registers with the first entries masked. -/
def maskedRegs (regs : ℕ → BitVec 32) : ℕ → ℕ → BitVec 32
  | 0 => regs
  | n + 1 => Function.update (maskedRegs regs n) (irt0 + n * 2)
    (regs (irt0 + n * 2) ||| flag 32 maskedBit)

section MaskedRegs

variable {regs : ℕ → BitVec 32}

/-- Only the low parts of the first entries are affected. -/
theorem maskedRegs_of_ne (h : ∀ j < n, r ≠ irt0 + j * 2) : maskedRegs regs n r = regs r := by
  induction n with
  | zero => rfl
  | succ n ih =>
    rw [maskedRegs, Function.update_of_ne (h n (by omega)), ih fun j hj => h j (by omega)]

theorem maskedRegs_of_lt (h : i < n) :
    maskedRegs regs n (irt0 + i * 2) = regs (irt0 + i * 2) ||| flag 32 maskedBit := by
  induction n with
  | zero => omega
  | succ n ih =>
    rw [maskedRegs]
    by_cases hi : i = n
    · rw [hi, Function.update_self]
    · rw [Function.update_of_ne (by omega), ih (by omega)]

end MaskedRegs

/-- The loop masks the entries in front of the last one. -/
theorem initInterruptControllers_eq (d : IoApic) :
    ∃ d', initInterruptControllers d = .ok d' ∧ d'.regs = maskedRegs d.regs d.lastIndex := by
  have hlast : d.lastIndex < 2 ^ 8 := BitVec.isLt _
  refine loop_spec (fun s : ℕ × IoApic => s.1 ≤ d.lastIndex ∧ s.2.regs = maskedRegs d.regs s.1)
    (fun d' : IoApic => d'.regs = maskedRegs d.regs d.lastIndex)
    (fun s : ℕ × IoApic => d.lastIndex - s.1) ?_ ⟨Nat.zero_le _, rfl⟩ (by dsimp only; omega)
  rintro ⟨idx, e⟩ ⟨hidx, hregs⟩
  dsimp only at hidx hregs
  have hversion : e.lastIndex = d.lastIndex := by
    rw [lastIndex, lastIndex, hregs, maskedRegs_of_ne]
    intro j _
    unfold versionReg irt0
    omega
  rw [maskRound, run_maxIrt, hversion]
  dsimp only
  by_cases hlt : idx < d.lastIndex
  · rw [if_pos hlt, Nat.mod_eq_of_lt (by omega)]
    refine .inr ⟨_, rfl, ⟨hlt, ?_⟩, by dsimp only; omega⟩
    rw [regs_maskIrt, hregs, maskedRegs_of_ne fun j hj => by omega]
    rfl
  · rw [if_neg hlt]
    refine .inl ⟨_, rfl, ?_⟩
    rw [hregs, show idx = d.lastIndex by omega]

/-- After the initialization all entries up to the reported index have their mask bit raised and
are otherwise unchanged exactly if the last one was masked before. -/
theorem pins_masked_iff (d : IoApic) :
    ∃ d', initInterruptControllers d = .ok d' ∧
      ((∀ i ≤ d.lastIndex, d'.entry i = d.entry i ||| flag 64 maskedBit) ↔
        hasFlag (d.entry d.lastIndex) maskedBit = true) := by
  obtain ⟨d', hrun, hregs⟩ := initInterruptControllers_eq d
  have hhigh (i : ℕ) : d'.regs (irt0 + i * 2 + 1) = d.regs (irt0 + i * 2 + 1) := by
    rw [hregs, maskedRegs_of_ne fun j _ => by omega]
  have hlast : d'.entry d.lastIndex = d.entry d.lastIndex := by
    rw [entry, entry, hhigh, hregs, maskedRegs_of_ne fun j hj => by omega]
  refine ⟨d', hrun, ?_⟩
  constructor
  · intro h
    have hmasked := h d.lastIndex (Nat.le_refl _)
    rw [hlast] at hmasked
    exact (or_flag_eq_self_iff (by decide)).mp hmasked.symm
  · intro hmasked i hi
    rcases Nat.eq_or_lt_of_le hi with rfl | hlt
    · rw [hlast, (or_flag_eq_self_iff (by decide)).mpr hmasked]
    · rw [entry, hhigh, hregs, maskedRegs_of_lt hlt, ← pack_or_masked]
      rfl

/-- An I/O APIC with two redirection entries, both of them unmasked. -/
def twoPins : IoApic :=
  { select := 0
    regs := fun r => if r = versionReg then 0x00010011#32 else 0x00000000#32 }

/-- The second pin stays unmasked. -/
theorem last_pin_unmasked : twoPins.lastIndex = 1 ∧
    (initInterruptControllers twoPins).toOption.map (fun d => (d.entry 0, d.entry 1)) =
      some (0x10000#64, 0x0#64) := by
  decide +kernel

end IoApic

end Toyos.Boot
