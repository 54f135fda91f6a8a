import Mathlib.Data.BitVec

/-!
# Flags in machine words

A flag is one bit of a word, tested and set through its mask. Both are
determined by the single bit, so flags at different positions are independent.
-/

namespace Toyos.Core

variable {w : ℕ}

/-- The mask of one bit. -/
def flag (w k : ℕ) : BitVec w := 1#w <<< k

/-- Test a flag through its mask. -/
def hasFlag (c : BitVec w) (k : ℕ) : Bool := c &&& flag w k != 0

/-- Clear a flag, then set it if requested. -/
def putFlag (c : BitVec w) (k : ℕ) (set : Bool) : BitVec w :=
  (c &&& ~~~flag w k) ||| (if set then flag w k else 0)

variable {c : BitVec w} {k i : ℕ} {set : Bool}

theorem getLsbD_flag (hk : k < w) : (flag w k).getLsbD i = decide (i = k) := by
  rw [flag, ← BitVec.twoPow_eq, BitVec.getLsbD_twoPow]
  simp [hk, eq_comm]

/-- A flag test reads the bit. -/
theorem hasFlag_eq : hasFlag c k = c.getLsbD k := by
  rw [hasFlag, flag, ← BitVec.twoPow_eq, BitVec.and_twoPow]
  by_cases h : c.getLsbD k = true
  · have hk : k < w := BitVec.lt_of_getLsbD h
    have hne : BitVec.twoPow w k ≠ 0#w := by
      intro h0
      have hbit := congrArg (BitVec.getLsbD · k) h0
      simp [hk] at hbit
    simp [h, hne]
  · simp [h]

/-- Setting a flag changes its bit and no other. -/
theorem getLsbD_putFlag (hk : k < w) :
    (putFlag c k set).getLsbD i = if i = k then set else c.getLsbD i := by
  have hset : (if set = true then flag w k else 0).getLsbD i = (set && decide (i = k)) := by
    cases set with
    | false => simp
    | true => simpa using getLsbD_flag hk
  rw [putFlag, BitVec.getLsbD_or, BitVec.getLsbD_and, BitVec.getLsbD_not, getLsbD_flag hk, hset]
  by_cases hi : i = k
  · simp [hi]
  · by_cases hw : i < w
    · simp [hi, hw]
    · simp [hi, hw, BitVec.getLsbD_of_ge c i (by omega)]

/-- Clearing a flag alone sets it to false. -/
theorem putFlag_false : putFlag c k false = c &&& ~~~flag w k := by
  simp [putFlag]

/-- Clearing a flag that is not set changes nothing. -/
theorem and_not_flag_eq_self (h : c.getLsbD k = false) : c &&& ~~~flag w k = c := by
  apply BitVec.eq_of_getLsbD_eq
  intro i hi
  by_cases hk : k < w
  · rw [BitVec.getLsbD_and, BitVec.getLsbD_not, getLsbD_flag hk]
    by_cases hik : i = k
    · simp [hik, h]
    · simp [hik, hi]
  · rw [flag, BitVec.shiftLeft_eq_zero (by omega)]
    simp

/-- Raising a flag without clearing it first has the same effect. -/
theorem putFlag_true (hk : k < w) : putFlag c k true = c ||| flag w k := by
  apply BitVec.eq_of_getLsbD_eq
  intro i _
  rw [getLsbD_putFlag hk, BitVec.getLsbD_or, getLsbD_flag hk]
  by_cases h : i = k
  · simp [h]
  · simp [h]

/-- Raising a flag changes nothing exactly if it is raised already. -/
theorem or_flag_eq_self_iff (hk : k < w) : c ||| flag w k = c ↔ hasFlag c k = true := by
  rw [hasFlag_eq]
  constructor
  · intro h
    rw [← h, BitVec.getLsbD_or, getLsbD_flag hk]
    simp
  · intro h
    apply BitVec.eq_of_getLsbD_eq
    intro i _
    rw [BitVec.getLsbD_or, getLsbD_flag hk]
    by_cases hi : i = k
    · simp [hi, h]
    · simp [hi]

@[simp] theorem hasFlag_putFlag (hk : k < w) : hasFlag (putFlag c k set) k = set := by
  rw [hasFlag_eq, getLsbD_putFlag hk, if_pos rfl]

theorem hasFlag_putFlag_of_ne (hk : k < w) (h : i ≠ k) :
    hasFlag (putFlag c k set) i = hasFlag c i := by
  rw [hasFlag_eq, hasFlag_eq, getLsbD_putFlag hk, if_neg h]

end Toyos.Core
