import Mathlib.Data.BitVec

/-!
# Fields of machine words

A field is the set of bits of a mask. Replacing a field clears its bits and then
raises those of the new value; a masked write replaces it by the bits of the
value that lie inside. Both are determined bit by bit.
-/

namespace Toyos.Core

variable {w : ℕ} {x clr set mask v : BitVec w} {i k : ℕ}

/-- Clear the bits of one mask, then raise the bits of another. -/
def setBits (x clr set : BitVec w) : BitVec w := (x &&& ~~~clr) ||| set

/-- Replace the bits of a mask by those of a value. -/
def writeBits (x mask v : BitVec w) : BitVec w := setBits x mask (v &&& mask)

theorem getLsbD_setBits : (setBits x clr set).getLsbD i =
    (x.getLsbD i && !clr.getLsbD i || set.getLsbD i) := by
  rw [setBits, BitVec.getLsbD_or, BitVec.getLsbD_and, BitVec.getLsbD_not]
  by_cases hi : i < w
  · simp [hi]
  · simp [hi, BitVec.getLsbD_of_ge x i (by omega)]

theorem getLsbD_writeBits : (writeBits x mask v).getLsbD i =
    if mask.getLsbD i then v.getLsbD i else x.getLsbD i := by
  rw [writeBits, getLsbD_setBits, BitVec.getLsbD_and]
  cases mask.getLsbD i with
  | false => simp
  | true => simp

/-- A value that fits in some low bits has no other bits. -/
theorem getLsbD_of_toNat_lt (h : x.toNat < 2 ^ k) (hi : k ≤ i) : x.getLsbD i = false :=
  Nat.testBit_lt_two_pow (h.trans_le (Nat.pow_le_pow_right (by decide) hi))

/-- Words agree on a field if they agree on each of its bits. -/
theorem and_eq_of_field (h : ∀ i, mask.getLsbD i = true → x.getLsbD i = v.getLsbD i) :
    x &&& mask = v &&& mask := by
  apply BitVec.eq_of_getLsbD_eq
  intro i _
  rw [BitVec.getLsbD_and, BitVec.getLsbD_and]
  cases hi : mask.getLsbD i with
  | false => simp
  | true => rw [h i hi]

/-- Inside the replaced field the new value is read back. -/
theorem setBits_and_clr : setBits x clr set &&& clr = set &&& clr := by
  refine and_eq_of_field fun i hi => ?_
  rw [getLsbD_setBits, hi]
  simp

/-- Another field is read as before. -/
theorem setBits_and_of_disjoint (hclr : clr &&& mask = 0) (hset : set &&& mask = 0) :
    setBits x clr set &&& mask = x &&& mask := by
  refine and_eq_of_field fun i hi => ?_
  have hclr' := congrArg (BitVec.getLsbD · i) hclr
  have hset' := congrArg (BitVec.getLsbD · i) hset
  simp only [BitVec.getLsbD_and, hi, Bool.and_true, BitVec.ofNat_eq_ofNat, BitVec.getLsbD_zero]
    at hclr' hset'
  rw [getLsbD_setBits, hclr', hset']
  simp

/-- Nothing outside the replaced field changes exactly if the new value raises no bit there that
was clear. -/
theorem setBits_frame_iff :
    setBits x clr set &&& ~~~clr = x &&& ~~~clr ↔ set &&& ~~~clr &&& ~~~x = 0 := by
  rw [BitVec.eq_of_getLsbD_eq_iff, BitVec.eq_of_getLsbD_eq_iff]
  refine forall₂_congr fun i hi => ?_
  simp only [BitVec.getLsbD_and, BitVec.getLsbD_not, getLsbD_setBits, hi, decide_true,
    Bool.true_and, BitVec.ofNat_eq_ofNat, BitVec.getLsbD_zero]
  cases x.getLsbD i <;> cases clr.getLsbD i <;> cases set.getLsbD i <;> decide

/-- Bits outside a replaced field stay as they are if the new value raises none of them. -/
theorem getLsbD_setBits_of_clean (h : set &&& ~~~clr &&& ~~~x = 0) (hclr : clr.getLsbD i = false) :
    (setBits x clr set).getLsbD i = x.getLsbD i := by
  by_cases hi : i < w
  · have hbit := congrArg (BitVec.getLsbD · i) (setBits_frame_iff.mpr h)
    simpa only [BitVec.getLsbD_and, BitVec.getLsbD_not, hi, hclr, decide_true, Bool.not_false,
      Bool.and_true] using hbit
  · rw [BitVec.getLsbD_of_ge _ _ (by omega), BitVec.getLsbD_of_ge _ _ (by omega)]

/-- The bits from one position on. -/
theorem getLsbD_allOnes_shiftLeft :
    (BitVec.allOnes w <<< k).getLsbD i = (decide (i < w) && decide (k ≤ i)) := by
  rw [BitVec.getLsbD_shiftLeft, BitVec.getLsbD_allOnes]
  by_cases hi : i < w
  · by_cases hk : k ≤ i
    · simp [hi, hk, show i - k < w by omega]
    · simp [hk]
  · simp [hi]

/-- Clearing the low bits rounds down. -/
theorem toNat_and_not_low (hk : k < w) :
    (x &&& ~~~(BitVec.ofNat w (2 ^ k) - 1#w)).toNat = x.toNat / 2 ^ k * 2 ^ k := by
  have hone : 1 < 2 ^ w := Nat.one_lt_two_pow (by omega)
  have hlow : BitVec.ofNat w (2 ^ k) - 1#w = BitVec.ofNat w (2 ^ k - 1) :=
    BitVec.ofNat_sub_ofNat_of_le _ _ hone (Nat.two_pow_pos k)
  have hbits : x &&& ~~~(BitVec.ofNat w (2 ^ k) - 1#w) = (x >>> k) <<< k := by
    apply BitVec.eq_of_getLsbD_eq
    intro i hi
    rw [hlow, BitVec.getLsbD_and, BitVec.getLsbD_not, BitVec.getLsbD_ofNat,
      Nat.testBit_two_pow_sub_one, BitVec.getLsbD_shiftLeft, BitVec.getLsbD_ushiftRight]
    by_cases hik : i < k
    · simp [hi, hik]
    · simp [hi, hik, show k + (i - k) = i by omega]
  rw [hbits, BitVec.toNat_shiftLeft, BitVec.toNat_ushiftRight, Nat.shiftLeft_eq,
    Nat.shiftRight_eq_div_pow, Nat.mod_eq_of_lt]
  exact lt_of_le_of_lt (Nat.div_mul_le_self _ _) x.isLt

/-- A word and its negative share exactly the lowest raised bit. -/
theorem neg_and_self (hk : x.getLsbD k = true) (hlow : ∀ j < k, x.getLsbD j = false) :
    -x &&& x = BitVec.twoPow w k := by
  apply BitVec.eq_of_getLsbD_eq
  intro i hi
  rw [BitVec.getLsbD_and, BitVec.getLsbD_neg, BitVec.getLsbD_twoPow]
  rcases Nat.lt_trichotomy i k with hlt | rfl | hgt
  · simp [hlow i hlt, show k ≠ i by omega]
  · have hnone : ¬∃ j < i, x.getLsbD j = true := by
      rintro ⟨j, hj, hbit⟩
      rw [hlow j hj] at hbit
      cases hbit
    simp only [hk, hi, hnone, decide_true, decide_false, Bool.true_and, Bool.xor_false]
  · have hsome : ∃ j < i, x.getLsbD j = true := ⟨k, hgt, hk⟩
    simp only [hsome, hi, show k ≠ i by omega, decide_true, decide_false, Bool.and_true,
      Bool.and_false]
    cases x.getLsbD i <;> rfl

end Toyos.Core
