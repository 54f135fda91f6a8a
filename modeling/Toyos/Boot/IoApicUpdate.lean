import Toyos.Boot.IoApic

/-!
# Updates of a redirection entry, write by write

A redirection entry is twice as wide as the window, so an update goes through
intermediate contents of the two registers. The update runs here on a device that
records its state after each store to the select or the data register.
-/

namespace Toyos.Boot.IoApic

open Toyos.Core Toyos.Util

/-- The device together with its states after the stores so far. -/
structure Recorded where
  /-- The device. -/
  device : IoApic
  /-- Its state after each store. -/
  history : List IoApic

/-- Record the state that a store leads to. -/
def Recorded.store (t : Recorded) (effect : IoApic → IoApic) : Recorded :=
  ⟨effect t.device, t.history ++ [effect t.device]⟩

instance : Window Recorded where
  setSelect r t := t.store (Window.setSelect r)
  data t := Window.data t.device
  setData val t := t.store (Window.setData val)

/-- The states of the device after each store of an update. -/
def updateHistory (d : IoApic) (e : RedirectionEntry) : List IoApic :=
  ((setIrt e).run (Recorded.mk d [])).2.history

variable {d : IoApic} {e : RedirectionEntry} {raw : BitVec 64} {hi lo : BitVec 32} {r : ℕ}

/-- The registers once the entry is masked. -/
def maskedFirst (d : IoApic) (i : ℕ) : ℕ → BitVec 32 :=
  Function.update d.regs (irt0 + i * 2) (d.regs (irt0 + i * 2) ||| flag 32 maskedBit)

/-- The registers once the upper half is written. -/
def highWritten (d : IoApic) (e : RedirectionEntry) : ℕ → BitVec 32 :=
  Function.update (maskedFirst d e.index) (irt0 + e.index * 2 + 1) ((e.raw >>> 32).setWidth 32)

/-- The registers once the lower half is written. -/
def lowWritten (d : IoApic) (e : RedirectionEntry) : ℕ → BitVec 32 :=
  Function.update (highWritten d e) (irt0 + e.index * 2)
    ((e.raw &&& maskBits 32 0).setWidth 32)

/-- The states that an update goes through: it makes seven stores, three of them to the data
register. -/
def updateStates (d : IoApic) (e : RedirectionEntry) : List IoApic :=
  [⟨irt0 + e.index * 2, d.regs⟩, ⟨irt0 + e.index * 2, d.regs⟩,
    ⟨irt0 + e.index * 2, maskedFirst d e.index⟩, ⟨irt0 + e.index * 2 + 1, maskedFirst d e.index⟩,
    ⟨irt0 + e.index * 2 + 1, highWritten d e⟩, ⟨irt0 + e.index * 2, highWritten d e⟩,
    ⟨irt0 + e.index * 2, lowWritten d e⟩]

theorem updateHistory_eq : updateHistory d e = updateStates d e := by
  rw [updateStates, lowWritten, highWritten, maskedFirst, ← BitVec.ushiftRight_zero (d.regs _)]
  rfl

/-- The last recorded state is the one in which the update leaves the device. -/
theorem run_setIrt : ((setIrt e).run d).2 = ⟨irt0 + e.index * 2, lowWritten d e⟩ := by
  rw [lowWritten, highWritten, maskedFirst, ← BitVec.ushiftRight_zero (d.regs _)]
  rfl

/-- The two halves of a raw value make up the value. -/
theorem pack_halves :
    pack ((raw >>> 32).setWidth 32) ((raw &&& maskBits 32 0).setWidth 32) = raw := by
  apply BitVec.eq_of_getLsbD_eq
  intro i hi
  rw [getLsbD_pack, BitVec.getLsbD_setWidth, BitVec.getLsbD_setWidth, BitVec.getLsbD_and,
    BitVec.getLsbD_ushiftRight, getLsbD_maskBits (by decide)]
  grind

/-- An entry whose lower half has the mask bit is masked. -/
theorem hasFlag_pack_or : hasFlag (pack hi (lo ||| flag 32 maskedBit)) maskedBit = true := by
  rw [hasFlag_pack, hasFlag_eq, BitVec.getLsbD_or, getLsbD_flag (by decide)]
  simp

/-- The mask bit is raised until the lower half is written. -/
theorem masked_until_low {d' : IoApic}
    (h : d'.regs = maskedFirst d e.index ∨ d'.regs = highWritten d e) :
    hasFlag (d'.entry e.index) maskedBit = true := by
  have hlow : d'.regs (irt0 + e.index * 2) =
      d.regs (irt0 + e.index * 2) ||| flag 32 maskedBit := by
    rcases h with h | h
    · rw [h, maskedFirst, Function.update_self]
    · rw [h, highWritten, Function.update_of_ne (by omega), maskedFirst, Function.update_self]
  rw [entry, hlow, hasFlag_pack_or]

/-- Once the lower half is written, the entry is the new one. -/
theorem entry_lowWritten {d' : IoApic} (h : d'.regs = lowWritten d e) :
    d'.entry e.index = e.raw := by
  rw [entry, h, lowWritten, Function.update_self, Function.update_of_ne (by omega), highWritten,
    Function.update_self, pack_halves]

/-- The registers of other entries and all other registers are never written. -/
theorem lowWritten_of_ne (hlo : r ≠ irt0 + e.index * 2) (hhi : r ≠ irt0 + e.index * 2 + 1) :
    lowWritten d e r = d.regs r := by
  rw [lowWritten, Function.update_of_ne hlo, highWritten, Function.update_of_ne hhi, maskedFirst,
    Function.update_of_ne hlo]

/-- An update goes through seven states, the last of which is the one it returns in. In each of them
the entry is the old one, masked or the new one. In the end it is the new one, and no other register
has changed. -/
theorem update_glitch_free (d : IoApic) (e : RedirectionEntry) :
    updateHistory d e = updateStates d e ∧
    (updateHistory d e).getLast? = some ((setIrt e).run d).2 ∧
    (∀ d' ∈ updateHistory d e, d'.entry e.index = d.entry e.index ∨
      hasFlag (d'.entry e.index) maskedBit = true ∨ d'.entry e.index = e.raw) ∧
    ((getIrt e.index).run ((setIrt e).run d).2).1 = e ∧
    ∀ r, r ≠ irt0 + e.index * 2 → r ≠ irt0 + e.index * 2 + 1 →
      ((setIrt e).run d).2.regs r = d.regs r := by
  refine ⟨updateHistory_eq, ?_, ?_, ?_, ?_⟩
  · rw [updateHistory_eq, run_setIrt]
    rfl
  · intro d' hd'
    rw [updateHistory_eq] at hd'
    simp only [updateStates, List.mem_cons, List.not_mem_nil, or_false] at hd'
    rcases hd' with rfl | rfl | rfl | rfl | rfl | rfl | rfl
    · exact .inl rfl
    · exact .inl rfl
    · exact .inr (.inl (masked_until_low (.inl rfl)))
    · exact .inr (.inl (masked_until_low (.inl rfl)))
    · exact .inr (.inl (masked_until_low (.inr rfl)))
    · exact .inr (.inl (masked_until_low (.inr rfl)))
    · exact .inr (.inr (entry_lowWritten rfl))
  · rw [run_getIrt, run_setIrt, entry_lowWritten rfl]
  · intro r hlo hhi
    rw [run_setIrt]
    exact lowWritten_of_ne hlo hhi

end Toyos.Boot.IoApic
