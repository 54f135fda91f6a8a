import Mathlib.Data.List.Range

/-!
# Byte memory

A memory maps addresses to bytes. Loading what was stored gives the bytes back.
-/

namespace Toyos.Core

/-- Memory by address. -/
abbrev Memory := ℕ → UInt8

namespace Memory

/-- Store bytes from an address on. -/
def store (m : Memory) (addr : ℕ) (bytes : List UInt8) : Memory := fun a =>
  if addr ≤ a then (bytes[a - addr]?).getD (m a) else m a

/-- Load a number of bytes from an address on. -/
def load (m : Memory) (addr len : ℕ) : List UInt8 := (List.range len).map fun i => m (addr + i)

variable {m : Memory} {addr len : ℕ} {bytes : List UInt8}

@[simp] theorem length_load : (m.load addr len).length = len := by simp [load]

/-- Loading no more bytes than were stored gives the first of them. -/
theorem load_store (h : len ≤ bytes.length) :
    (m.store addr bytes).load addr len = bytes.take len := by
  apply List.ext_getElem
  · simp [h]
  · intro i hi _
    rw [length_load] at hi
    simp [load, store, show i < bytes.length by omega]

theorem store_nil : m.store addr [] = m := by
  funext a
  simp [store]

/-- Storing bytes one after the other. -/
theorem store_cons {c : UInt8} :
    m.store addr (c :: bytes) = (m.store addr [c]).store (addr + 1) bytes := by
  funext a
  rcases Nat.lt_trichotomy a addr with hlt | rfl | hgt
  · simp [store, show ¬addr ≤ a by omega, show ¬addr + 1 ≤ a by omega]
  · simp [store]
  · obtain ⟨k, rfl⟩ : ∃ k, a = addr + (k + 1) := ⟨a - addr - 1, by omega⟩
    simp [store, show addr + (k + 1) - (addr + 1) = k by omega]

/-- Other bytes than the stored ones are as before. -/
theorem store_of_outside {a : ℕ} (h : a < addr ∨ addr + bytes.length ≤ a) :
    m.store addr bytes a = m a := by
  rw [store]
  split_ifs with hle
  · rw [List.getElem?_eq_none (by omega), Option.getD_none]
  · rfl

theorem store_of_lt {i : ℕ} (h : i < bytes.length) :
    m.store addr bytes (addr + i) = bytes.get ⟨i, h⟩ := by
  rw [store, if_pos (Nat.le_add_right _ _), Nat.add_sub_cancel_left, List.getElem?_eq_getElem h,
    Option.getD_some, List.get_eq_getElem]

theorem store_singleton_self {c : UInt8} : m.store addr [c] addr = c := by simp [store]

end Memory

end Toyos.Core
