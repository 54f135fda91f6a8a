import Toyos.Boot.IoApic
import Toyos.Core.BitField
import Toyos.Core.Overwrite

/-!
# Redirection entries

A redirection entry is a 64-bit word with seven fields that software sets. Each
setter replaces one field and leaves all other bits as they are; the complement of
a single-bit mask is taken as an `int`, so its sign extension keeps the upper half.
The getters read the fields back, except that `delivery_mode` masks the three bits
of its field with their number instead of with three ones.
-/

namespace Toyos.Boot.IoApic

open Toyos.Core Toyos.Util

/-- The trigger mode of an interrupt. -/
inductive TriggerMode where
  | edge
  | level
  deriving DecidableEq, Repr

/-- The delivery mode. -/
inductive DlvMode where
  | fixed
  | nmi
  | extint
  deriving DecidableEq, Repr

/-- The polarity of a pin. -/
inductive PinPolarity where
  | activeHigh
  | activeLow
  deriving DecidableEq, Repr

/-- The interpretation of the destination. -/
inductive DstMode where
  | physical
  | logical
  deriving DecidableEq, Repr

/-- The underlying value of a trigger mode. -/
def TriggerMode.toUnderlying : TriggerMode → BitVec 8
  | .edge => 0
  | .level => 1

/-- The underlying value of a delivery mode. -/
def DlvMode.toUnderlying : DlvMode → BitVec 8
  | .fixed => 0
  | .nmi => 4
  | .extint => 7

/-- The underlying value of a polarity. -/
def PinPolarity.toUnderlying : PinPolarity → BitVec 8
  | .activeHigh => 0
  | .activeLow => 1

/-- The underlying value of a destination mode. -/
def DstMode.toUnderlying : DstMode → BitVec 8
  | .physical => 0
  | .logical => 1

namespace RedirectionEntry

/-- Number of bits of the vector. -/
def vectorBits : ℕ := 8

/-- Position of the vector. -/
def vectorShift : ℕ := 0

/-- Number of bits of the delivery mode. -/
def dlvModeBits : ℕ := 3

/-- Position of the delivery mode. -/
def dlvModeShift : ℕ := 8

/-- Position of the destination mode bit. -/
def destModeBit : ℕ := 11

/-- Position of the polarity bit. -/
def pinPolarityBit : ℕ := 13

/-- Position of the trigger mode bit. -/
def triggerModeBit : ℕ := 15

/-- Number of bits of the destination. -/
def destBits : ℕ := 8

/-- Position of the destination. -/
def destShift : ℕ := 56

section Getters

variable (e : RedirectionEntry)

/-- The underlying value of the delivery mode. -/
def deliveryMode : BitVec 8 := (e.raw >>> dlvModeShift &&& BitVec.ofNat 64 dlvModeBits).setWidth 8

/-- The interrupt vector. -/
def vector : BitVec 8 := e.raw.setWidth 8

/-- Whether the polarity is active low. -/
def activeLow : Bool := hasFlag e.raw pinPolarityBit

/-- The destination. -/
def dest : BitVec 8 := (e.raw >>> destShift).setWidth 8

end Getters

/-- Clear a bit with the complement of its mask, an `int` extended to the width of the word. -/
def clearBit (raw : BitVec 64) (k : ℕ) : BitVec 64 := raw &&& (~~~flag 32 k).signExtend 64

/-- Clear a bit and add the product of a value and the mask of the bit. -/
def replaceBit (raw : BitVec 64) (k : ℕ) (value : BitVec 8) : BitVec 64 :=
  clearBit raw k ||| (value.setWidth 32 * flag 32 k).signExtend 64

section Setters

variable (e : RedirectionEntry)

/-- Set the vector. -/
def setVector (vec : BitVec 8) : RedirectionEntry :=
  { e with raw := e.raw &&& ~~~maskBits vectorBits vectorShift |||
    vec.setWidth 64 <<< vectorShift }

/-- Set the delivery mode. -/
def setDeliveryMode (dlv : DlvMode) : RedirectionEntry :=
  { e with raw := e.raw &&& ~~~maskBits dlvModeBits dlvModeShift |||
    (dlv.toUnderlying.setWidth 64 &&& maskBits dlvModeBits 0) <<< dlvModeShift }

/-- Set the destination. -/
def setDest (dst : BitVec 8) : RedirectionEntry :=
  { e with raw := e.raw &&& ~~~maskBits destBits destShift ||| dst.setWidth 64 <<< destShift }

/-- Set the trigger mode. -/
def setTriggerMode (trg : TriggerMode) : RedirectionEntry :=
  { e with raw := replaceBit e.raw triggerModeBit trg.toUnderlying }

/-- Set the destination mode. -/
def setDstMode (mode : DstMode) : RedirectionEntry :=
  { e with raw := replaceBit e.raw destModeBit mode.toUnderlying }

/-- Set the polarity. -/
def setPinPolarity (polarity : PinPolarity) : RedirectionEntry :=
  { e with raw := replaceBit e.raw pinPolarityBit polarity.toUnderlying }

/-- Unmask the entry. -/
def unmask : RedirectionEntry := { e with raw := clearBit e.raw maskedBit }

/-- Set the polarity to active low. -/
def setActiveLow : RedirectionEntry := { e with raw := e.raw ||| flag 64 pinPolarityBit }

/-- Set the polarity to active high. -/
def setActiveHigh : RedirectionEntry := { e with raw := clearBit e.raw pinPolarityBit }

end Setters

/-- The arguments of the constructor. -/
structure Args where
  /-- The pin, also the index of the entry. -/
  pin : BitVec 8
  /-- The interrupt vector. -/
  vec : BitVec 8
  /-- The destination. -/
  dst : BitVec 8
  /-- The delivery mode. -/
  dlvMode : DlvMode
  /-- The trigger mode. -/
  triggerMode : TriggerMode
  /-- The polarity. -/
  pinPolarity : PinPolarity := .activeHigh
  /-- The interpretation of the destination. -/
  dstMode : DstMode := .physical
  deriving DecidableEq, Repr

/-- The calls of setters. -/
inductive Call where
  | setVector (vec : BitVec 8)
  | setDeliveryMode (dlv : DlvMode)
  | setDest (dst : BitVec 8)
  | setTriggerMode (trg : TriggerMode)
  | setDstMode (mode : DstMode)
  | setPinPolarity (polarity : PinPolarity)
  | mask
  | unmask
  | setActiveLow
  | setActiveHigh
  deriving DecidableEq, Repr

/-- A call of a setter. -/
def exec (e : RedirectionEntry) : Call → RedirectionEntry
  | .setVector vec => e.setVector vec
  | .setDeliveryMode dlv => e.setDeliveryMode dlv
  | .setDest dst => e.setDest dst
  | .setTriggerMode trg => e.setTriggerMode trg
  | .setDstMode mode => e.setDstMode mode
  | .setPinPolarity polarity => e.setPinPolarity polarity
  | .mask => e.mask
  | .unmask => e.unmask
  | .setActiveLow => e.setActiveLow
  | .setActiveHigh => e.setActiveHigh

/-- A sequence of calls. -/
def execAll (e : RedirectionEntry) (calls : List Call) : RedirectionEntry := calls.foldl exec e

/-- The setters that the constructor calls. -/
def Args.calls (a : Args) : List Call :=
  [.setVector a.vec, .setDeliveryMode a.dlvMode, .setDest a.dst, .setTriggerMode a.triggerMode,
    .setDstMode a.dstMode, .setPinPolarity a.pinPolarity, .unmask]

/-- The constructed entry. -/
def ofArgs (a : Args) : RedirectionEntry := execAll ⟨a.pin.toNat, 0⟩ a.calls

/-- The fields that the setters name. -/
inductive Field where
  | vector
  | dlvMode
  | dstMode
  | pinPolarity
  | triggerMode
  | masked
  | dest
  deriving DecidableEq, Repr

/-- The lowest bit of a field. -/
def Field.shift : Field → ℕ
  | .vector => 0
  | .dlvMode => 8
  | .dstMode => 11
  | .pinPolarity => 13
  | .triggerMode => 15
  | .masked => 16
  | .dest => 56

/-- The number of bits of a field. -/
def Field.width : Field → ℕ
  | .vector | .dest => 8
  | .dlvMode => 3
  | .dstMode | .pinPolarity | .triggerMode | .masked => 1

/-- The field that a call names. -/
def Call.field : Call → Field
  | .setVector _ => .vector
  | .setDeliveryMode _ => .dlvMode
  | .setDest _ => .dest
  | .setTriggerMode _ => .triggerMode
  | .setDstMode _ => .dstMode
  | .setPinPolarity _ | .setActiveLow | .setActiveHigh => .pinPolarity
  | .mask | .unmask => .masked

/-- The value that a call gives to its field. -/
def Call.value : Call → BitVec 8
  | .setVector vec => vec
  | .setDeliveryMode dlv => dlv.toUnderlying
  | .setDest dst => dst
  | .setTriggerMode trg => trg.toUnderlying
  | .setDstMode mode => mode.toUnderlying
  | .setPinPolarity polarity => polarity.toUnderlying
  | .mask | .setActiveLow => 1
  | .unmask | .setActiveHigh => 0

/-- Whether a bit belongs to a field. -/
def Field.Covers (f : Field) (i : ℕ) : Prop := f.shift ≤ i ∧ i < f.shift + f.width

instance (f : Field) (i : ℕ) : Decidable (f.Covers i) :=
  inferInstanceAs (Decidable (_ ∧ _))

/-- The value of a field. -/
def field (e : RedirectionEntry) (f : Field) : BitVec 8 :=
  (e.raw.extractLsb' f.shift f.width).setWidth 8

/-- The value that a call writes to a field. -/
def Call.writes (f : Field) (c : Call) : Option (BitVec 8) :=
  if c.field = f then some c.value else none

section Bits

variable {e : RedirectionEntry} {raw : BitVec 64} {k i : ℕ} {value : BitVec 8} {c : Call}
  {f : Field} {calls : List Call}

theorem getLsbD_clearBit (hk : k < 31) :
    (clearBit raw k).getLsbD i = (raw.getLsbD i && decide (i ≠ k)) := by
  rw [clearBit, BitVec.getLsbD_and, BitVec.getLsbD_signExtend, BitVec.msb_eq_getLsbD_last,
    BitVec.getLsbD_not, BitVec.getLsbD_not, getLsbD_flag (by omega), getLsbD_flag (by omega)]
  by_cases hi : i < 64
  · grind
  · simp [BitVec.getLsbD_of_ge raw i (by omega)]

/-- The product of a bit and the mask of a position. -/
theorem mul_flag (hk : k < 31) (hvalue : value = 0#8 ∨ value = 1#8) :
    (value.setWidth 32 * flag 32 k).signExtend 64 = if value = 1#8 then flag 64 k else 0 := by
  rcases hvalue with rfl | rfl
  · rw [if_neg (by decide)]
    simp
  · rw [if_pos rfl]
    apply BitVec.eq_of_getLsbD_eq
    intro i hi
    have hone : BitVec.setWidth 32 1#8 * flag 32 k = flag 32 k := by
      rw [show BitVec.setWidth 32 1#8 = 1#32 by decide, BitVec.one_mul]
    rw [hone, BitVec.getLsbD_signExtend, BitVec.msb_eq_getLsbD_last, getLsbD_flag (by omega),
      getLsbD_flag (by omega), getLsbD_flag (by omega)]
    grind

/-- Replacing a bit changes no other. -/
theorem getLsbD_replaceBit (hk : k < 31) (hvalue : value = 0#8 ∨ value = 1#8) :
    (replaceBit raw k value).getLsbD i =
      if i = k then value.getLsbD 0 else raw.getLsbD i := by
  rw [replaceBit, BitVec.getLsbD_or, getLsbD_clearBit hk, mul_flag hk hvalue]
  rcases hvalue with rfl | rfl
  · grind
  · rw [if_pos rfl, getLsbD_flag (by omega)]
    grind

/-- A call writes the bits of its field and keeps all others. -/
theorem getLsbD_exec : (e.exec c).raw.getLsbD i =
    if c.field.Covers i then c.value.getLsbD (i - c.field.shift) else e.raw.getLsbD i := by
  cases c with
  | setVector vec =>
    rw [exec, setVector, BitVec.getLsbD_or, BitVec.getLsbD_and, BitVec.getLsbD_not,
      getLsbD_maskBits (by decide), BitVec.getLsbD_shiftLeft, BitVec.getLsbD_setWidth]
    simp only [Call.field, Call.value, Field.Covers, Field.shift, Field.width, vectorBits,
      vectorShift]
    grind
  | setDeliveryMode dlv =>
    rw [exec, setDeliveryMode, BitVec.getLsbD_or, BitVec.getLsbD_and, BitVec.getLsbD_not,
      getLsbD_maskBits (by decide), BitVec.getLsbD_shiftLeft, BitVec.getLsbD_and,
      BitVec.getLsbD_setWidth, getLsbD_maskBits (by decide)]
    simp only [Call.field, Call.value, Field.Covers, Field.shift, Field.width, dlvModeBits,
      dlvModeShift]
    grind
  | setDest dst =>
    rw [exec, setDest, BitVec.getLsbD_or, BitVec.getLsbD_and, BitVec.getLsbD_not,
      getLsbD_maskBits (by decide), BitVec.getLsbD_shiftLeft, BitVec.getLsbD_setWidth]
    simp only [Call.field, Call.value, Field.Covers, Field.shift, Field.width, destBits,
      destShift]
    grind
  | setTriggerMode trg =>
    rw [exec, setTriggerMode, getLsbD_replaceBit (by decide) (by cases trg <;> decide)]
    grind [Call.field, Call.value, Field.Covers, Field.shift, Field.width, triggerModeBit]
  | setDstMode mode =>
    rw [exec, setDstMode, getLsbD_replaceBit (by decide) (by cases mode <;> decide)]
    grind [Call.field, Call.value, Field.Covers, Field.shift, Field.width, destModeBit]
  | setPinPolarity polarity =>
    rw [exec, setPinPolarity, getLsbD_replaceBit (by decide) (by cases polarity <;> decide)]
    grind [Call.field, Call.value, Field.Covers, Field.shift, Field.width, pinPolarityBit]
  | mask =>
    rw [exec, RedirectionEntry.mask, BitVec.getLsbD_or, getLsbD_flag (by decide)]
    grind [Call.field, Call.value, Field.Covers, Field.shift, Field.width, maskedBit]
  | unmask =>
    rw [exec, RedirectionEntry.unmask, getLsbD_clearBit (by decide)]
    grind [Call.field, Call.value, Field.Covers, Field.shift, Field.width, maskedBit]
  | setActiveLow =>
    rw [exec, RedirectionEntry.setActiveLow, BitVec.getLsbD_or, getLsbD_flag (by decide)]
    grind [Call.field, Call.value, Field.Covers, Field.shift, Field.width, pinPolarityBit]
  | setActiveHigh =>
    rw [exec, RedirectionEntry.setActiveHigh, getLsbD_clearBit (by decide)]
    grind [Call.field, Call.value, Field.Covers, Field.shift, Field.width, pinPolarityBit]

theorem getLsbD_field :
    (e.field f).getLsbD i = (decide (i < f.width) && e.raw.getLsbD (f.shift + i)) := by
  rw [field, BitVec.getLsbD_setWidth, BitVec.getLsbD_extractLsb']
  cases f <;> grind [Field.width]

/-- The value of a call fits into its field. -/
theorem Call.value_lt (c : Call) : c.value.toNat < 2 ^ c.field.width := by
  cases c with
  | setVector vec => exact vec.isLt
  | setDest dst => exact dst.isLt
  | setDeliveryMode dlv => cases dlv <;> decide
  | setTriggerMode trg => cases trg <;> decide
  | setDstMode mode => cases mode <;> decide
  | setPinPolarity polarity => cases polarity <;> decide
  | mask | unmask | setActiveLow | setActiveHigh => decide

theorem getLsbD_value (hi : c.field.width ≤ i) : c.value.getLsbD i = false :=
  getLsbD_of_toNat_lt c.value_lt hi

/-- Fields do not overlap. -/
theorem Field.Covers.unique {g : Field} (hf : f.Covers i) (hg : g.Covers i) : f = g := by
  cases f <;> cases g <;> grind [Field.Covers, Field.shift, Field.width]

/-- A call replaces its field and keeps the others. -/
theorem overwrites_field (f : Field) :
    Overwrites exec (fun e => e.field f) (Call.writes f) := by
  intro e c
  apply BitVec.eq_of_getLsbD_eq
  intro i hi
  rw [getLsbD_field, getLsbD_exec, Call.writes]
  by_cases hc : c.field = f
  · subst hc
    rw [if_pos rfl, Option.getD_some]
    by_cases hwidth : i < c.field.width
    · rw [if_pos ⟨by omega, by omega⟩]
      simp [hwidth]
    · simp only [hwidth, decide_false, Bool.false_and]
      exact (getLsbD_value (by omega)).symm
  · rw [if_neg hc, Option.getD_none, getLsbD_field]
    by_cases hwidth : i < f.width
    · rw [if_neg fun h => hc (h.unique ⟨by omega, by omega⟩)]
    · simp [hwidth]

/-- A sequence of calls leaves the last value in each field. -/
theorem field_execAll :
    (e.execAll calls).field f = (lastWrite (Call.writes f) calls).getD (e.field f) :=
  (overwrites_field f).foldl_eq

theorem overwrites_bit (i : ℕ) : Overwrites exec (fun e => e.raw.getLsbD i) fun c =>
    if c.field.Covers i then some (c.value.getLsbD (i - c.field.shift)) else none := by
  intro e c
  dsimp only
  rw [getLsbD_exec]
  by_cases hc : c.field.Covers i
  · simp [hc]
  · simp [hc]

/-- A sequence of calls keeps all bits outside the fields it names. -/
theorem getLsbD_execAll (h : ∀ c ∈ calls, ¬c.field.Covers i) :
    (e.execAll calls).raw.getLsbD i = e.raw.getLsbD i :=
  (overwrites_bit i).foldl_of_none fun c hc => if_neg (h c hc)

theorem index_execAll : (e.execAll calls).index = e.index := by
  have hindex : Overwrites exec index fun _ => none := by
    intro e c
    cases c <;> rfl
  exact hindex.foldl_of_none fun _ _ => rfl

theorem vector_eq : e.vector = e.field .vector := by
  apply BitVec.eq_of_getLsbD_eq
  intro i hi
  rw [vector, getLsbD_field, BitVec.getLsbD_setWidth]
  simp [Field.width, Field.shift, hi]

theorem dest_eq : e.dest = e.field .dest := by
  apply BitVec.eq_of_getLsbD_eq
  intro i hi
  rw [dest, getLsbD_field, BitVec.getLsbD_setWidth, BitVec.getLsbD_ushiftRight]
  rfl

/-- Only two of the three bits of the delivery mode are read back. -/
theorem deliveryMode_eq : e.deliveryMode = e.field .dlvMode &&& 3#8 := by
  apply BitVec.eq_of_getLsbD_eq
  intro i hi
  rw [deliveryMode, show BitVec.ofNat 64 dlvModeBits = maskBits 2 0 by decide,
    show 3#8 = (maskBits 2 0).setWidth 8 by decide, BitVec.getLsbD_and, getLsbD_field,
    BitVec.getLsbD_setWidth, BitVec.getLsbD_and, BitVec.getLsbD_ushiftRight,
    BitVec.getLsbD_setWidth, getLsbD_maskBits (by decide)]
  grind [dlvModeShift, Field.shift, Field.width]

theorem activeLow_eq : e.activeLow = (e.field .pinPolarity).getLsbD 0 := by
  rw [activeLow, hasFlag_eq, getLsbD_field]
  rfl

theorem masked_eq : e.masked = (e.field .masked).getLsbD 0 := by
  rw [masked, hasFlag_eq, getLsbD_field]
  rfl

end Bits

/-- The bit layout of a constructed entry, from the destination down to the vector. -/
def Args.layout (a : Args) : BitVec 64 :=
  a.dst ++ 0#39 ++ 0#1 ++ a.triggerMode.toUnderlying.setWidth 1 ++ 0#1 ++
    a.pinPolarity.toUnderlying.setWidth 1 ++ 0#1 ++ a.dstMode.toUnderlying.setWidth 1 ++
    a.dlvMode.toUnderlying.setWidth 3 ++ a.vec

/-- What the constructor promises. -/
structure Constructed (a : Args) : Prop where
  /-- The index is the pin. -/
  index : (ofArgs a).index = a.pin.toNat
  /-- The raw value has the bit layout of the I/O APIC. -/
  layout : (ofArgs a).raw = a.layout
  /-- The vector reads back. -/
  vector : (ofArgs a).vector = a.vec
  /-- The delivery mode reads back. -/
  deliveryMode : (ofArgs a).deliveryMode = a.dlvMode.toUnderlying
  /-- The polarity reads back. -/
  activeLow : (ofArgs a).activeLow = decide (a.pinPolarity = .activeLow)
  /-- The entry is unmasked. -/
  masked : (ofArgs a).masked = false
  /-- The destination reads back. -/
  dest : (ofArgs a).dest = a.dst

/-- What a sequence of setters promises. -/
structure Updated (e : RedirectionEntry) (calls : List Call) : Prop where
  /-- The index is unchanged. -/
  index : (e.execAll calls).index = e.index
  /-- All bits outside the named fields are unchanged. -/
  keeps : ∀ i, (∀ c ∈ calls, ¬c.field.Covers i) →
    (e.execAll calls).raw.getLsbD i = e.raw.getLsbD i
  /-- Each named field holds the last value set. -/
  field : ∀ f v, lastWrite (Call.writes f) calls = some v → (e.execAll calls).field f = v
  /-- The last vector set reads back. -/
  vector : ∀ v, lastWrite (Call.writes .vector) calls = some v → (e.execAll calls).vector = v
  /-- The last delivery mode set reads back. -/
  deliveryMode : ∀ v, lastWrite (Call.writes .dlvMode) calls = some v →
    (e.execAll calls).deliveryMode = v
  /-- The last polarity set reads back. -/
  activeLow : ∀ v, lastWrite (Call.writes .pinPolarity) calls = some v →
    (e.execAll calls).activeLow = decide (v = PinPolarity.activeLow.toUnderlying)
  /-- The last mask state set reads back. -/
  masked : ∀ v, lastWrite (Call.writes .masked) calls = some v →
    (e.execAll calls).masked = decide (v = Call.mask.value)
  /-- The last destination set reads back. -/
  dest : ∀ v, lastWrite (Call.writes .dest) calls = some v → (e.execAll calls).dest = v

section Results

variable {e : RedirectionEntry} {calls : List Call} {a : Args} {f : Field} {v : BitVec 8}

theorem field_of_lastWrite (h : lastWrite (Call.writes f) calls = some v) :
    (e.execAll calls).field f = v := by
  rw [field_execAll, h]
  rfl

/-- A value written to a field is the value of some call that names the field. -/
theorem exists_call (h : lastWrite (Call.writes f) calls = some v) :
    ∃ c : Call, c.field = f ∧ c.value = v := by
  obtain ⟨c, -, hc⟩ := exists_of_lastWrite h
  rw [Call.writes, Option.ite_none_right_eq_some] at hc
  exact ⟨c, hc.1, Option.some.inj hc.2⟩

/-- Reading a delivery mode back loses all but fixed delivery. -/
theorem dlvMode_and_three (dlv : DlvMode) :
    dlv.toUnderlying &&& 3#8 = dlv.toUnderlying ↔ dlv = .fixed := by
  cases dlv <;> decide

/-- The constructed entry has the bit layout of the I/O APIC. -/
theorem raw_ofArgs : (ofArgs a).raw = a.layout := by
  apply BitVec.eq_of_getLsbD_eq
  intro i hi
  simp only [ofArgs, execAll, Args.calls, List.foldl_cons, List.foldl_nil, getLsbD_exec,
    Call.field, Call.value, Field.Covers, Field.shift, Field.width]
  simp only [Args.layout, BitVec.getLsbD_append, BitVec.getLsbD_setWidth, BitVec.getLsbD_zero]
  grind

/-- The constructor keeps its promise exactly for fixed delivery. -/
theorem constructed_iff : Constructed a ↔ a.dlvMode = .fixed := by
  have hmode : (ofArgs a).deliveryMode = a.dlvMode.toUnderlying &&& 3#8 := by
    rw [deliveryMode_eq, ofArgs, field_of_lastWrite (v := a.dlvMode.toUnderlying) rfl]
  constructor
  · intro h
    exact (dlvMode_and_three a.dlvMode).mp (hmode.symm.trans h.deliveryMode)
  · intro h
    refine ⟨index_execAll, raw_ofArgs, ?_, ?_, ?_, ?_, ?_⟩
    · rw [vector_eq, ofArgs, field_of_lastWrite (v := a.vec) rfl]
    · rw [hmode, (dlvMode_and_three a.dlvMode).mpr h]
    · rw [activeLow_eq, ofArgs, field_of_lastWrite (v := a.pinPolarity.toUnderlying) rfl]
      cases a.pinPolarity <;> decide
    · rw [masked_eq, ofArgs, field_of_lastWrite (v := 0) rfl]
      decide
    · rw [dest_eq, ofArgs, field_of_lastWrite (v := a.dst) rfl]

/-- A sequence of setters keeps its promise exactly if the last delivery mode set is fixed. -/
theorem updated_iff : Updated e calls ↔
    ∀ v, lastWrite (Call.writes .dlvMode) calls = some v → v = DlvMode.fixed.toUnderlying := by
  have hmode (v : BitVec 8) (hv : lastWrite (Call.writes .dlvMode) calls = some v) :
      (e.execAll calls).deliveryMode = v ↔ v = DlvMode.fixed.toUnderlying := by
    obtain ⟨c, hfield, rfl⟩ := exists_call hv
    rw [deliveryMode_eq, field_of_lastWrite hv]
    cases c with
    | setDeliveryMode dlv => cases dlv <;> decide
    | _ => cases hfield
  constructor
  · intro h v hv
    exact (hmode v hv).mp (h.deliveryMode v hv)
  · intro h
    refine ⟨index_execAll, fun i => getLsbD_execAll, fun f v => field_of_lastWrite, ?_, ?_, ?_, ?_,
      ?_⟩
    · intro v hv
      rw [vector_eq, field_of_lastWrite hv]
    · intro v hv
      exact (hmode v hv).mpr (h v hv)
    · intro v hv
      obtain ⟨c, hfield, rfl⟩ := exists_call hv
      rw [activeLow_eq, field_of_lastWrite hv]
      cases c with
      | setPinPolarity polarity => cases polarity <;> decide
      | setActiveLow | setActiveHigh => decide
      | _ => cases hfield
    · intro v hv
      obtain ⟨c, hfield, rfl⟩ := exists_call hv
      rw [masked_eq, field_of_lastWrite hv]
      cases c with
      | mask | unmask => decide
      | _ => cases hfield
    · intro v hv
      rw [dest_eq, field_of_lastWrite hv]

end Results

/-- Entries are encoded and decoded consistently, by the constructor and by any sequence of
setters, exactly if the delivery mode is the fixed one. -/
theorem consistent_iff_fixed (a : Args) (e : RedirectionEntry) (calls : List Call) :
    (Constructed a ↔ a.dlvMode = .fixed) ∧
      (Updated e calls ↔ ∀ v, lastWrite (Call.writes .dlvMode) calls = some v →
        v = DlvMode.fixed.toUnderlying) :=
  ⟨constructed_iff, updated_iff⟩

/-- The arguments of an entry for a non-maskable interrupt. -/
def nmiArgs : Args :=
  { pin := 2, vec := 2, dst := 0, dlvMode := .nmi, triggerMode := .edge }

/-- An entry for a non-maskable interrupt reads back as one of fixed delivery. -/
theorem nmi_reads_back_fixed : (ofArgs nmiArgs).raw = 0x402#64 ∧
    nmiArgs.dlvMode.toUnderlying = 4#8 ∧
    (ofArgs nmiArgs).deliveryMode = DlvMode.fixed.toUnderlying := by
  decide +kernel

end RedirectionEntry

end Toyos.Boot.IoApic
