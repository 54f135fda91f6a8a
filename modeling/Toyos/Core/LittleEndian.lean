import Mathlib.Data.Nat.ModEq
import Mathlib.Tactic.NormNum

/-!
# Little-endian bytes

A number as a fixed count of bytes, least significant byte first.
-/

namespace Toyos.Core

/-- The `count` low bytes of a number. -/
def leBytes : (count : ℕ) → ℕ → List UInt8
  | 0, _ => []
  | count + 1, n => UInt8.ofNat n :: leBytes count (n / 256)

/-- The number a list of bytes stands for. -/
def leNat : List UInt8 → ℕ
  | [] => 0
  | b :: bs => b.toNat + 256 * leNat bs

@[simp] theorem length_leBytes (count n : ℕ) : (leBytes count n).length = count := by
  induction count generalizing n with
  | zero => rfl
  | succ count ih => rw [leBytes, List.length_cons, ih]

/-- A number of some bytes is below the power for them. -/
theorem leNat_lt (bs : List UInt8) : leNat bs < 256 ^ bs.length := by
  induction bs with
  | nil => simp [leNat]
  | cons b bs ih =>
    have hbyte := b.toNat_lt
    rw [leNat, List.length_cons, pow_succ]
    omega

/-- Reading the bytes of a number gives the number, up to the bytes that were left out. -/
theorem leNat_leBytes (count n : ℕ) : leNat (leBytes count n) = n % 256 ^ count := by
  induction count generalizing n with
  | zero => rw [leBytes, leNat, pow_zero, Nat.mod_one]
  | succ count ih =>
    have hbyte : (UInt8.ofNat n).toNat = n % 256 := UInt8.toNat_ofNat'
    rw [leBytes, leNat, ih, hbyte, pow_succ', Nat.mod_mul]

end Toyos.Core
