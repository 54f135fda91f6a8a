import Mathlib.Algebra.Group.Nat.Defs

/-!
# Sixty-four-bit words

Machine words are natural numbers below `2 ^ 64`; every operation that can leave
that range reduces its result explicitly. An operation that stays in range is
the plain arithmetic one, so the reductions vanish under a bound.
-/

namespace Toyos.Core

/-- Reduction to a 64-bit word. -/
def wrap (n : ℕ) : ℕ := n % 2 ^ 64

/-- Subtraction of words, modulo the word size. -/
def wsub (a b : ℕ) : ℕ := (a + (2 ^ 64 - b % 2 ^ 64)) % 2 ^ 64

@[simp] theorem wrap_lt (n : ℕ) : wrap n < 2 ^ 64 := Nat.mod_lt _ (by decide)

theorem wrap_of_lt {n : ℕ} (h : n < 2 ^ 64) : wrap n = n := Nat.mod_eq_of_lt h

/-- Subtraction that does not borrow is subtraction of natural numbers. -/
theorem wsub_of_le {a b : ℕ} (ha : a < 2 ^ 64) (h : b ≤ a) : wsub a b = a - b := by
  unfold wsub
  omega

/-- A shifted one is a power of two as long as the shift stays inside the word. -/
theorem wrap_one_shiftLeft {k : ℕ} (hk : k < 64) : wrap (1 <<< k) = 2 ^ k := by
  rw [Nat.one_shiftLeft]
  exact wrap_of_lt (Nat.pow_lt_pow_right (by decide) hk)

end Toyos.Core
