import Toyos.Core.Flag
import Toyos.Util.Math

/-!
# Transfer request blocks

The sixteen-byte work items of the host controller. The control word holds the
cycle bit, the toggle bit of Link items and the type. Every setter changes its
own part of the control word only.
-/

namespace Toyos.Xhci

open Toyos.Core Toyos.Util

/-- A transfer request block. -/
structure Trb where
  /-- Address or immediate data. -/
  buffer : BitVec 64
  /-- Length and completion information. -/
  status : BitVec 32
  /-- Flags and type. -/
  control : BitVec 32
  deriving DecidableEq, Repr

namespace Trb

/-- A cleared item. -/
def zero : Trb := ⟨0, 0, 0⟩

/-- `sizeof(trb)`. -/
def size : ℕ := 16

/-- Position of the flag `CYCLE`. -/
def cycleBit : ℕ := 0

/-- Position of the flag `TOGGLE`. -/
def toggleBit : ℕ := 1

/-- `TYPE_BITS`. -/
def typeBits : ℕ := 6

/-- `TYPE_SHIFT`. -/
def typeShift : ℕ := 10

/-- The type of a Link item. -/
def linkType : BitVec 8 := 6

/-- The type of a normal transfer. -/
def normalType : BitVec 8 := 1

/-- Position of the flag `ISP`. -/
def ispBit : ℕ := 2

/-- Position of the flag `IOC`. -/
def iocBit : ℕ := 5

/-- `type()`. -/
def type (t : Trb) : BitVec 8 :=
  ((t.control >>> typeShift) &&& BitVec.ofNat 32 (mask typeBits 0)).setWidth 8

/-- `type(val)`. -/
def setType (t : Trb) (val : BitVec 8) : Trb :=
  let cleared := t.control &&& ~~~BitVec.ofNat 32 (mask typeBits typeShift)
  { t with control :=
      cleared ||| ((val.setWidth 32 &&& BitVec.ofNat 32 (mask typeBits 0)) <<< typeShift) }

/-- `cycle()`. -/
def cycle (t : Trb) : Bool := hasFlag t.control cycleBit

/-- `cycle(set)`. -/
def setCycle (t : Trb) (set : Bool) : Trb := { t with control := putFlag t.control cycleBit set }

/-- The first store of `cycle(set)`. -/
def clearCycle (t : Trb) : Trb := { t with control := t.control &&& ~~~flag 32 cycleBit }

/-- The second store of `cycle(set)`. -/
def raiseCycle (t : Trb) (set : Bool) : Trb :=
  { t with control := t.control ||| (if set then flag 32 cycleBit else 0) }

/-- `commit()` toggles the cycle bit. -/
def commit (t : Trb) : Trb := t.setCycle (!t.cycle)

/-- `toggle()`. -/
def toggle (t : Trb) : Bool := hasFlag t.control toggleBit

/-- `toggle(set)`. -/
def setToggle (t : Trb) (set : Bool) : Trb :=
  { t with control := putFlag t.control toggleBit set }

/-- `length()`. -/
def length (t : Trb) : BitVec 16 := t.status.setWidth 16

/-- `length(len)`. -/
def setLength (t : Trb) (len : BitVec 16) : Trb := { t with status := len.setWidth 32 }

/-- `set_ioc()`. -/
def setIoc (t : Trb) : Trb := { t with control := t.control ||| flag 32 iocBit }

/-- `set_isp()`. -/
def setIsp (t : Trb) : Trb := { t with control := t.control ||| flag 32 ispBit }

variable {t : Trb} {set : Bool} {val : BitVec 8}

/-- The type is the field of six bits from the shift on. -/
theorem getLsbD_type {i : ℕ} (hi : i < 8) :
    t.type.getLsbD i = (decide (i < typeBits) && t.control.getLsbD (typeShift + i)) := by
  have hmask : BitVec.ofNat 32 (mask typeBits 0) = 63#32 := by decide
  rw [type, hmask, BitVec.getLsbD_setWidth, BitVec.getLsbD_and, BitVec.getLsbD_ushiftRight]
  have hbit : ∀ i < 8, (63#32).getLsbD i = decide (i < typeBits) := by decide
  rw [hbit i hi]
  simp [hi, Bool.and_comm]

/-- Control words with the same bits of the type field give the same type. -/
theorem type_congr {u : Trb}
    (h : ∀ i < typeBits, u.control.getLsbD (typeShift + i) = t.control.getLsbD (typeShift + i)) :
    u.type = t.type := by
  apply BitVec.eq_of_getLsbD_eq
  intro i hi
  rw [getLsbD_type hi, getLsbD_type hi]
  by_cases hlt : i < typeBits
  · rw [h i hlt]
  · simp [hlt]

/-- Setting the type keeps its six low bits. -/
theorem type_setType : (t.setType val).type = val &&& 63#8 := by
  have hclear : BitVec.ofNat 32 (mask typeBits typeShift) = 64512#32 := by decide
  have hmask : BitVec.ofNat 32 (mask typeBits 0) = 63#32 := by decide
  have hfield : ∀ i < 8, (64512#32).getLsbD (typeShift + i) = decide (i < typeBits) := by decide
  have hlow : ∀ i < 8, (63#32).getLsbD i = decide (i < typeBits) := by decide
  have hlow8 : ∀ i < 8, (63#8).getLsbD i = decide (i < typeBits) := by decide
  apply BitVec.eq_of_getLsbD_eq
  intro i hi
  have hlt : typeShift + i < 32 := by
    unfold typeShift
    omega
  rw [getLsbD_type hi, setType, hclear, hmask, BitVec.getLsbD_and, hlow8 i hi, BitVec.getLsbD_or,
    BitVec.getLsbD_and, BitVec.getLsbD_not, hfield i hi, BitVec.getLsbD_shiftLeft,
    Nat.add_sub_cancel_left, BitVec.getLsbD_and, hlow i hi, BitVec.getLsbD_setWidth]
  by_cases hbits : i < typeBits
  · simp [hbits, hlt, show i < 32 by omega]
  · simp [hbits]

/-- Raising a flag outside the type field keeps the type. -/
theorem type_or_flag {k : ℕ} (hk : k < typeShift) :
    ({ t with control := t.control ||| flag 32 k } : Trb).type = t.type := by
  apply type_congr
  intro i hi
  have hlt : k < 32 := by
    unfold typeShift at hk
    omega
  simp only [BitVec.getLsbD_or, getLsbD_flag hlt]
  simp [show typeShift + i ≠ k by omega]

@[simp] theorem type_setIoc : t.setIoc.type = t.type := type_or_flag (by decide)

@[simp] theorem type_setIsp : t.setIsp.type = t.type := type_or_flag (by decide)

@[simp] theorem type_setLength {len : BitVec 16} : (t.setLength len).type = t.type := rfl

@[simp] theorem length_setLength {len : BitVec 16} : (t.setLength len).length = len := by
  simp [setLength, length]

@[simp] theorem cycle_setCycle : (t.setCycle set).cycle = set := hasFlag_putFlag (by decide)

@[simp] theorem toggle_setCycle : (t.setCycle set).toggle = t.toggle :=
  hasFlag_putFlag_of_ne (by decide) (by decide)

@[simp] theorem type_setCycle : (t.setCycle set).type = t.type := by
  apply type_congr
  intro i _
  rw [setCycle, getLsbD_putFlag (by decide), if_neg (by unfold typeShift cycleBit; omega)]

/-- The two stores in sequence are `cycle(set)`. -/
theorem raiseCycle_clearCycle : t.clearCycle.raiseCycle set = t.setCycle set := rfl

theorem clearCycle_eq : t.clearCycle = t.setCycle false := by
  rw [setCycle, putFlag_false, clearCycle]

@[simp] theorem cycle_clearCycle : t.clearCycle.cycle = false := by
  rw [clearCycle_eq, cycle_setCycle]

@[simp] theorem type_clearCycle : t.clearCycle.type = t.type := by
  rw [clearCycle_eq, type_setCycle]

@[simp] theorem toggle_clearCycle : t.clearCycle.toggle = t.toggle := by
  rw [clearCycle_eq, toggle_setCycle]

@[simp] theorem raiseCycle_false : t.raiseCycle false = t := by simp [raiseCycle]

theorem raiseCycle_true : t.raiseCycle true = t.setCycle true := by
  rw [setCycle, putFlag_true (by decide), raiseCycle, if_pos rfl]

@[simp] theorem cycle_raiseCycle : (t.raiseCycle set).cycle = (t.cycle || set) := by
  cases set with
  | false => simp
  | true => rw [raiseCycle_true, cycle_setCycle, Bool.or_true]

@[simp] theorem type_raiseCycle : (t.raiseCycle set).type = t.type := by
  cases set with
  | false => simp
  | true => rw [raiseCycle_true, type_setCycle]

@[simp] theorem toggle_raiseCycle : (t.raiseCycle set).toggle = t.toggle := by
  cases set with
  | false => simp
  | true => rw [raiseCycle_true, toggle_setCycle]

@[simp] theorem cycle_commit : t.commit.cycle = !t.cycle := cycle_setCycle

@[simp] theorem toggle_commit : t.commit.toggle = t.toggle := toggle_setCycle

@[simp] theorem type_commit : t.commit.type = t.type := type_setCycle

end Trb

end Toyos.Xhci
