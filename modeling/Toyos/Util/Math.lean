import Toyos.Core.Word
import Mathlib.Data.Nat.Bitwise
import Mathlib.Data.Nat.Log
import Mathlib.Data.BitVec

/-!
# Order and alignment arithmetic

The bit scans of `math.hpp` on 64-bit values. `order_max` and `order_envelope`
are the floor and the ceiling of the binary logarithm, `order_min` is the exact
power of two dividing a value, and `is_aligned` is divisibility.
-/

namespace Toyos.Util

open Toyos.Core

/-- The upward scan of `order_min`: `count` bit positions from `i` on are left. -/
def orderMinFrom (num : ℕ) (i : ℕ) : (count : ℕ) → ℕ
  | 0 => 0
  | count + 1 => if num &&& 1 <<< i ≠ 0 then i else orderMinFrom num (i + 1) count

/-- Order of the lowest set bit, zero if there is none. -/
def orderMin (num : ℕ) : ℕ := orderMinFrom num 0 64

/-- The downward scan of `order_max`; position zero is never tested. -/
def orderMaxFrom (num : ℕ) : (i : ℕ) → ℕ
  | 0 => 0
  | i + 1 => if num &&& 1 <<< (i + 1) ≠ 0 then i + 1 else orderMaxFrom num i

/-- Order of the highest set bit, zero if there is none. -/
def orderMax (num : ℕ) : ℕ := orderMaxFrom num 63

/-- Smallest order whose power of two reaches the value. -/
def orderEnvelope (num : ℕ) : ℕ :=
  if num ≤ wrap (1 <<< orderMax num) then orderMax num else orderMax num + 1

/-- A mask of `bits` ones, shifted left by `offset`. -/
def mask (bits offset : ℕ) : ℕ :=
  wrap ((if bits = 64 then 2 ^ 64 - 1 else wrap (1 <<< bits) - 1) <<< offset)

/-- The mask as a machine word. -/
def maskBits (bits offset : ℕ) : BitVec 64 := BitVec.ofNat 64 (mask bits offset)

/-- Whether the low `o` bits of a value are clear. -/
def isAligned (v o : ℕ) : Bool := v &&& mask o 0 == 0

/-- Clear the low `o` bits of a value. -/
def alignDown (v o : ℕ) : ℕ := v &&& ((2 ^ 64 - 1) ^^^ mask o 0)

/-- The least aligned value that is not below the given one. -/
def alignUp (v o : ℕ) : ℕ := alignDown (wrap (v + mask o 0)) o

/-- Testing a shifted one tests a single bit. -/
theorem and_one_shiftLeft_ne_zero {num i : ℕ} : num &&& 1 <<< i ≠ 0 ↔ num.testBit i = true := by
  rw [Nat.one_shiftLeft, Nat.and_two_pow]
  cases num.testBit i <;> simp

/-- A value has no bit at or above its binary logarithm's successor. -/
theorem orderMaxFrom_eq_log {num n : ℕ} (h : num < 2 ^ (n + 1)) :
    orderMaxFrom num n = Nat.log 2 num := by
  induction n with
  | zero =>
    rw [orderMaxFrom, eq_comm, Nat.log_eq_zero_iff]
    exact Or.inl (by simpa using h)
  | succ n ih =>
    rw [orderMaxFrom]
    by_cases hbit : num.testBit (n + 1) = true
    · rw [if_pos (and_one_shiftLeft_ne_zero.mpr hbit), eq_comm,
        Nat.log_eq_iff (Or.inl (Nat.succ_ne_zero n))]
      exact ⟨Nat.ge_two_pow_of_testBit hbit, h⟩
    · rw [if_neg (mt and_one_shiftLeft_ne_zero.mp hbit)]
      apply ih
      by_contra hge
      exact hbit (Nat.testBit_of_two_pow_le_and_two_pow_add_one_gt (by omega) h)

/-- `order_max` is the floor of the binary logarithm. -/
theorem orderMax_eq_log {num : ℕ} (h : num < 2 ^ 64) : orderMax num = Nat.log 2 num :=
  orderMaxFrom_eq_log h

theorem orderMax_lt (num : ℕ) : orderMax num < 64 := by
  have hfrom (n : ℕ) : orderMaxFrom num n ≤ n := by
    induction n with
    | zero => exact le_rfl
    | succ n ih =>
      rw [orderMaxFrom]
      split <;> omega
  exact Nat.lt_succ_of_le (hfrom 63)

/-- On a power of two `order_max` is the exponent. -/
theorem orderMax_two_pow {k : ℕ} (hk : k < 64) : orderMax (2 ^ k) = k := by
  rw [orderMax_eq_log (Nat.pow_lt_pow_right (by decide) hk), Nat.log_pow (by decide)]

/-- `order_envelope` is the ceiling of the binary logarithm. -/
theorem orderEnvelope_eq_clog {num : ℕ} (h : num < 2 ^ 64) :
    orderEnvelope num = Nat.clog 2 num := by
  rw [orderEnvelope, wrap_one_shiftLeft (orderMax_lt num), orderMax_eq_log h]
  have hlt := Nat.lt_pow_succ_log_self (b := 2) (by decide) num
  split
  · rename_i hle
    refine le_antisymm ?_ ((Nat.clog_le_iff_le_pow (by decide)).mpr hle)
    rcases Nat.eq_zero_or_pos num with rfl | hpos
    · simp
    · have hself := Nat.pow_log_le_self 2 (x := num) (by omega)
      have hclog := Nat.le_pow_clog (b := 2) (by decide) num
      exact (Nat.pow_le_pow_iff_right (by decide)).mp (hself.trans hclog)
  · rename_i hgt
    refine le_antisymm ?_ ((Nat.clog_le_iff_le_pow (by decide)).mpr hlt.le)
    by_contra hle
    exact hgt ((Nat.clog_le_iff_le_pow (by decide)).mp (by omega))

/-- On a power of two `order_envelope` is the exponent. -/
theorem orderEnvelope_two_pow {k : ℕ} (hk : k < 64) : orderEnvelope (2 ^ k) = k := by
  rw [orderEnvelope_eq_clog (Nat.pow_lt_pow_right (by decide) hk), Nat.clog_pow _ _ (by decide)]

/-- The upward scan stops at the first set bit of its window. -/
theorem orderMinFrom_spec {num i count : ℕ} (hbit : ∃ j, i ≤ j ∧ j < i + count ∧
    num.testBit j = true) :
    num.testBit (orderMinFrom num i count) = true ∧ orderMinFrom num i count < i + count ∧
      ∀ j, i ≤ j → j < orderMinFrom num i count → num.testBit j = false := by
  induction count generalizing i with
  | zero =>
    obtain ⟨j, hl, hu, -⟩ := hbit
    omega
  | succ count ih =>
    rw [orderMinFrom]
    by_cases hi : num.testBit i = true
    · rw [if_pos (and_one_shiftLeft_ne_zero.mpr hi)]
      exact ⟨hi, by omega, fun j hl hu => by omega⟩
    · rw [if_neg (mt and_one_shiftLeft_ne_zero.mp hi)]
      obtain ⟨j, hl, hu, hj⟩ := hbit
      have hne : j ≠ i := fun he => hi (he ▸ hj)
      obtain ⟨hset, hlt, hclear⟩ := ih (i := i + 1) ⟨j, by omega, by omega, hj⟩
      refine ⟨hset, by omega, fun j' hl' hu' => ?_⟩
      rcases hl'.eq_or_lt with rfl | hlt'
      · simpa using hi
      · exact hclear j' hlt' hu'

/-- Divisibility by a power of two clears exactly the bits below it. -/
theorem two_pow_dvd_iff_testBit {k num : ℕ} :
    2 ^ k ∣ num ↔ ∀ j, j < k → num.testBit j = false := by
  rw [Nat.dvd_iff_mod_eq_zero]
  constructor
  · intro h j hj
    have hb : (num % 2 ^ k).testBit j = false := by rw [h, Nat.zero_testBit]
    simpa [Nat.testBit_mod_two_pow, hj] using hb
  · intro h
    apply Nat.eq_of_testBit_eq
    intro j
    rw [Nat.testBit_mod_two_pow, Nat.zero_testBit]
    by_cases hj : j < k
    · simp [hj, h j hj]
    · simp [hj]

/-- `order_min` is the exact power of two that divides a nonzero word. -/
theorem two_pow_dvd_iff_le_orderMin {k num : ℕ} (h0 : num ≠ 0) (h : num < 2 ^ 64) :
    2 ^ k ∣ num ↔ k ≤ orderMin num := by
  obtain ⟨j, hj⟩ := Nat.exists_testBit_of_ne_zero h0
  have hj64 : j < 64 := by
    by_contra hge
    have hsmall : num < 2 ^ j := h.trans_le (Nat.pow_le_pow_right (by decide) (by omega))
    simp [Nat.testBit_lt_two_pow hsmall] at hj
  obtain ⟨hset, -, hclear⟩ : num.testBit (orderMinFrom num 0 64) = true ∧ _ :=
    orderMinFrom_spec ⟨j, by omega, by omega, hj⟩
  rw [two_pow_dvd_iff_testBit]
  constructor
  · intro hk
    by_contra hlt
    have := hk (orderMin num) (by omega)
    rw [orderMin, hset] at this
    exact absurd this (by decide)
  · intro hk j' hj'
    exact hclear j' (by omega) (by unfold orderMin at hk; omega)

/-- For proper orders the mask is one below the power of two. -/
theorem mask_eq {o : ℕ} (ho : o < 64) : mask o 0 = 2 ^ o - 1 := by
  have hlt : 2 ^ o < 2 ^ 64 := Nat.pow_lt_pow_right (by decide) ho
  rw [mask, if_neg (by omega), wrap_one_shiftLeft ho, Nat.shiftLeft_zero, wrap_of_lt (by omega)]

/-- The bits of a mask. -/
theorem getLsbD_maskBits {bits offset i : ℕ} (hbits : bits ≤ 64) :
    (maskBits bits offset).getLsbD i =
      (decide (i < 64) && decide (offset ≤ i) && decide (i < offset + bits)) := by
  have hones : (if bits = 64 then 2 ^ 64 - 1 else wrap (1 <<< bits) - 1) = 2 ^ bits - 1 := by
    split
    · rename_i h
      rw [h]
    · rw [wrap_one_shiftLeft (by omega)]
  rw [maskBits, BitVec.getLsbD_ofNat, mask, hones, wrap, Nat.testBit_mod_two_pow,
    Nat.testBit_shiftLeft, Nat.testBit_two_pow_sub_one]
  by_cases h : offset ≤ i
  · simp [h, show i - offset < bits ↔ i < offset + bits by omega]
  · simp [h]

/-- The bits of a mask lie between its offset and its end. -/
theorem mem_maskBits {bits offset i : ℕ} (hbits : bits ≤ 64)
    (h : (maskBits bits offset).getLsbD i = true) : offset ≤ i ∧ i < offset + bits := by
  rw [getLsbD_maskBits hbits] at h
  simp only [Bool.and_eq_true, decide_eq_true_eq] at h
  exact ⟨h.1.2, h.2⟩

/-- Bits below the offset of a mask do not belong to it. -/
theorem getLsbD_maskBits_below {bits offset i : ℕ} (hbits : bits ≤ 64) (hi : i < offset) :
    (maskBits bits offset).getLsbD i = false := by
  rw [getLsbD_maskBits hbits]
  simp [show ¬offset ≤ i by omega]

/-- Selecting the bits of a mask rounds down and drops what is above. -/
theorem and_maskBits (v : BitVec 64) {bits offset : ℕ} (h : offset + bits ≤ 64) :
    v &&& maskBits bits offset =
      BitVec.ofNat 64 (v.toNat / 2 ^ offset % 2 ^ bits * 2 ^ offset) := by
  apply BitVec.eq_of_getLsbD_eq
  intro i hi
  rw [BitVec.getLsbD_and, getLsbD_maskBits (by omega), BitVec.getLsbD_ofNat, ← Nat.shiftLeft_eq,
    Nat.testBit_shiftLeft, Nat.testBit_mod_two_pow, ← Nat.shiftRight_eq_div_pow,
    Nat.testBit_shiftRight]
  by_cases hoffset : offset ≤ i
  · by_cases hbits : i < offset + bits
    · simp [hi, hoffset, hbits, show i - offset < bits by omega,
        show offset + (i - offset) = i by omega, BitVec.getLsbD]
    · simp [hbits, show ¬i - offset < bits by omega]
  · simp [hoffset]

/-- Clearing the low bits rounds down to a multiple of the power of two. -/
theorem alignDown_eq {v o : ℕ} (hv : v < 2 ^ 64) (ho : o < 64) :
    alignDown v o = v / 2 ^ o * 2 ^ o := by
  apply Nat.eq_of_testBit_eq
  intro i
  rw [alignDown, mask_eq ho, Nat.testBit_and, Nat.testBit_xor, Nat.testBit_two_pow_sub_one,
    Nat.testBit_two_pow_sub_one, ← Nat.shiftRight_eq_div_pow, ← Nat.shiftLeft_eq,
    Nat.testBit_shiftLeft, Nat.testBit_shiftRight]
  by_cases hlow : i < o
  · simp [hlow, show i < 64 by omega]
  · by_cases hhigh : i < 64
    · simp [hlow, hhigh, show o + (i - o) = i by omega, show o ≤ i by omega]
    · have hzero : v.testBit i = false :=
        Nat.testBit_lt_two_pow (hv.trans_le (Nat.pow_le_pow_right (by decide) (by omega)))
      simp [hzero, show o + (i - o) = i by omega]

/-- Aligning up rounds up to a multiple of the power of two. -/
theorem alignUp_eq {v o : ℕ} (ho : o < 64) (hv : v + 2 ^ o ≤ 2 ^ 64) :
    alignUp v o = (v + (2 ^ o - 1)) / 2 ^ o * 2 ^ o := by
  have hpos := Nat.two_pow_pos o
  rw [alignUp, mask_eq ho, wrap_of_lt (by omega), alignDown_eq (by omega) ho]

/-- For proper orders the mask is the residue modulo the power of two. -/
theorem and_mask_eq_mod {v o : ℕ} (ho : o < 64) : v &&& mask o 0 = v % 2 ^ o := by
  rw [mask_eq ho, Nat.and_two_pow_sub_one_eq_mod]

/-- The alignment test is divisibility by the power of two. -/
theorem isAligned_iff {v o : ℕ} (ho : o < 64) : isAligned v o = true ↔ 2 ^ o ∣ v := by
  rw [isAligned, and_mask_eq_mod ho, beq_iff_eq, Nat.dvd_iff_mod_eq_zero]

section Characterizations

variable {num v o : ℕ}

/-- `order_max` is the greatest order whose power of two is not above a value. -/
theorem isGreatest_orderMax (hpos : 0 < num) (hnum : num < 2 ^ 64) :
    IsGreatest {k | 2 ^ k ≤ num} (orderMax num) := by
  rw [orderMax_eq_log hnum]
  refine ⟨Nat.pow_log_le_self 2 hpos.ne', fun k hk => ?_⟩
  exact (Nat.le_log_iff_pow_le (by decide) hpos.ne').mpr hk

/-- `order_min` is the greatest order whose power of two divides a value. -/
theorem isGreatest_orderMin (hpos : 0 < num) (hnum : num < 2 ^ 64) :
    IsGreatest {k | 2 ^ k ∣ num} (orderMin num) :=
  ⟨(two_pow_dvd_iff_le_orderMin hpos.ne' hnum).mpr le_rfl,
    fun _ hk => (two_pow_dvd_iff_le_orderMin hpos.ne' hnum).mp hk⟩

/-- `order_envelope` is the least order whose power of two is not below a value. -/
theorem isLeast_orderEnvelope (hnum : num < 2 ^ 64) :
    IsLeast {k | num ≤ 2 ^ k} (orderEnvelope num) := by
  rw [orderEnvelope_eq_clog hnum]
  exact ⟨Nat.le_pow_clog (by decide) num, fun _ hk => (Nat.clog_le_iff_le_pow (by decide)).mpr hk⟩

theorem orderEnvelope_of_lt (hlt : 2 ^ 63 < num) (hnum : num < 2 ^ 64) :
    orderEnvelope num = 64 := by
  have hleast := isLeast_orderEnvelope hnum
  refine le_antisymm (hleast.2 hnum.le) ?_
  by_contra hsmall
  have hpow : 2 ^ orderEnvelope num ≤ 2 ^ 63 := Nat.pow_le_pow_right (by decide) (by omega)
  exact absurd (hleast.1.trans hpow) (by omega)

/-- `align_down` is the greatest multiple of the power of two that is not above a value. -/
theorem isGreatest_alignDown (hv : v < 2 ^ 64) (ho : o < 64) :
    IsGreatest {m | 2 ^ o ∣ m ∧ m ≤ v} (alignDown v o) := by
  rw [alignDown_eq hv ho]
  refine ⟨⟨Nat.dvd_mul_left _ _, Nat.div_mul_le_self _ _⟩, ?_⟩
  rintro _ ⟨⟨q, rfl⟩, hle⟩
  have hq : q ≤ v / 2 ^ o := by
    rwa [Nat.le_div_iff_mul_le (Nat.two_pow_pos o), Nat.mul_comm]
  rw [Nat.mul_comm]
  exact Nat.mul_le_mul_right _ hq

/-- `align_up` is the least multiple of the power of two that is not below a value. -/
theorem isLeast_alignUp (ho : o < 64) (hv : v + 2 ^ o - 1 < 2 ^ 64) :
    IsLeast {m | 2 ^ o ∣ m ∧ v ≤ m} (alignUp v o) := by
  have hpos := Nat.two_pow_pos o
  rw [alignUp_eq ho (by omega)]
  refine ⟨⟨Nat.dvd_mul_left _ _, ?_⟩, ?_⟩
  · have hlt := Nat.lt_div_mul_add hpos (a := v + (2 ^ o - 1))
    omega
  · rintro _ ⟨⟨q, rfl⟩, hle⟩
    have hq : (v + (2 ^ o - 1)) / 2 ^ o < q + 1 := by
      rw [Nat.div_lt_iff_lt_mul hpos, Nat.add_mul, Nat.mul_comm q]
      omega
    rw [Nat.mul_comm (2 ^ o)]
    exact Nat.mul_le_mul_right _ (Nat.le_of_lt_succ hq)

end Characterizations

/-- The bit scans find the orders of a word, and the masks round to the multiples of a power of
two. -/
theorem orders_and_alignment (num v o : ℕ) (hpos : 0 < num) (hnum : num < 2 ^ 64)
    (hv : v < 2 ^ 64) (ho : o < 64) :
    IsGreatest {k | 2 ^ k ≤ num} (orderMax num) ∧
      IsGreatest {k | 2 ^ k ∣ num} (orderMin num) ∧
      IsLeast {k | num ≤ 2 ^ k} (orderEnvelope num) ∧
      (2 ^ 63 < num → orderEnvelope num = 64) ∧
      IsGreatest {m | 2 ^ o ∣ m ∧ m ≤ v} (alignDown v o) ∧
      (v + 2 ^ o - 1 < 2 ^ 64 → IsLeast {m | 2 ^ o ∣ m ∧ v ≤ m} (alignUp v o)) :=
  ⟨isGreatest_orderMax hpos hnum, isGreatest_orderMin hpos hnum, isLeast_orderEnvelope hnum,
    fun hlt => orderEnvelope_of_lt hlt hnum, isGreatest_alignDown hv ho, isLeast_alignUp ho⟩

/-- The orders of a word with the top bit, and the pages around an address. -/
theorem orders_and_alignment_top_bit :
    IsGreatest {k | 2 ^ k ≤ 2 ^ 63 + 8} (orderMax (2 ^ 63 + 8)) ∧
      IsGreatest {k | 2 ^ k ∣ 2 ^ 63 + 8} (orderMin (2 ^ 63 + 8)) ∧
      orderEnvelope (2 ^ 63 + 8) = 64 ∧
      IsLeast {m | 2 ^ 12 ∣ m ∧ 4097 ≤ m} (alignUp 4097 12) := by
  obtain ⟨hmax, hmin, -, henvelope, -, hup⟩ := orders_and_alignment (2 ^ 63 + 8) 4097 12 (by decide)
    (by decide) (by decide) (by decide)
  exact ⟨hmax, hmin, henvelope (by decide), hup (by decide)⟩

end Toyos.Util
