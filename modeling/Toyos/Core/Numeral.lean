import Mathlib.Data.Nat.Digits.Defs
import Mathlib.Data.Nat.ModEq

/-!
# Positional numerals

Digits that are read from the most significant one on, with the value so far kept
modulo some number.
-/

namespace Toyos.Core

/-- Reading digits modulo a number gives what they stand for, modulo that number. -/
theorem foldl_horner_modEq (b m : ℕ) (digits : List ℕ) (n : ℕ) :
    digits.foldl (fun n d => (n * b + d) % m) n ≡
      Nat.ofDigits b digits.reverse + n * b ^ digits.length [MOD m] := by
  induction digits generalizing n with
  | nil => simp [Nat.ModEq.refl]
  | cons d ds ih =>
    rw [List.foldl_cons, Nat.ofDigits_reverse_cons, List.length_cons]
    refine (ih _).trans ?_
    have hround : (n * b + d) % m ≡ n * b + d [MOD m] := Nat.mod_modEq _ _
    calc Nat.ofDigits b ds.reverse + (n * b + d) % m * b ^ ds.length
        ≡ Nat.ofDigits b ds.reverse + (n * b + d) * b ^ ds.length [MOD m] :=
          (hround.mul_right _).add_left _
      _ = Nat.ofDigits b ds.reverse + b ^ ds.length * d + n * b ^ (ds.length + 1) := by ring

theorem foldl_horner_mod {m : ℕ} (hm : 0 < m) (b : ℕ) (digits : List ℕ) :
    digits.foldl (fun n d => (n * b + d) % m) 0 = Nat.ofDigits b digits.reverse % m := by
  have hmod := foldl_horner_modEq b m digits 0
  rw [Nat.zero_mul, Nat.add_zero] at hmod
  have hlt : digits.foldl (fun n d => (n * b + d) % m) 0 < m := by
    rcases List.eq_nil_or_concat digits with rfl | ⟨ds, d, rfl⟩
    · exact hm
    · rw [List.concat_eq_append, List.foldl_append]
      exact Nat.mod_lt _ hm
  exact (Nat.mod_eq_of_lt hlt).symm.trans hmod

/-- The last digits of a number, from the last one on: one at least, and no more than there is room
for. -/
def lowDigits (b : ℕ) : (room : ℕ) → (n : ℕ) → List ℕ
  | 0, _ => []
  | room + 1, n => n % b :: if n / b ≠ 0 then lowDigits b room (n / b) else []

/-- The digits of a number without leading zeros, the most significant one first. -/
def representation (b n : ℕ) : List ℕ := if n = 0 then [0] else (b.digits n).reverse

theorem length_lowDigits_le (b room n : ℕ) : (lowDigits b room n).length ≤ room := by
  induction room generalizing n with
  | zero => exact Nat.le_refl _
  | succ room ih =>
    rw [lowDigits, List.length_cons]
    split_ifs
    · exact Nat.succ_le_succ (ih _)
    · exact Nat.succ_le_succ (Nat.zero_le _)

theorem lt_of_mem_lowDigits {b room n d : ℕ} (hb : 0 < b) (h : d ∈ lowDigits b room n) : d < b := by
  induction room generalizing n with
  | zero => simp [lowDigits] at h
  | succ room ih =>
    rw [lowDigits, List.mem_cons] at h
    rcases h with rfl | h
    · exact Nat.mod_lt _ hb
    · split_ifs at h
      · exact ih h
      · simp at h

/-- The last digits stand for a remainder. -/
theorem ofDigits_lowDigits (b room n : ℕ) :
    Nat.ofDigits b (lowDigits b room n) = n % b ^ room := by
  induction room generalizing n with
  | zero => rw [lowDigits, Nat.ofDigits_nil, pow_zero, Nat.mod_one]
  | succ room ih =>
    have hrest : Nat.ofDigits b (if n / b ≠ 0 then lowDigits b room (n / b) else []) =
        n / b % b ^ room := by
      split_ifs with hdiv
      · exact ih _
      · rw [not_not.mp hdiv, Nat.zero_mod, Nat.ofDigits_nil]
    rw [lowDigits, Nat.ofDigits_cons, hrest, pow_succ', Nat.mod_mul]

/-- With enough room the last digits are all digits. -/
theorem lowDigits_eq_digits {b room n : ℕ} (hb : 1 < b) (hn : n ≠ 0) (h : n < b ^ room) :
    lowDigits b room n = b.digits n := by
  induction room generalizing n with
  | zero =>
    rw [pow_zero] at h
    omega
  | succ room ih =>
    rw [lowDigits, Nat.digits_eq_cons_digits_div hb hn]
    split_ifs with hdiv
    · rw [ih hdiv (Nat.div_lt_of_lt_mul (by rwa [← pow_succ']))]
    · rw [not_not.mp hdiv, Nat.digits_zero]

theorem reverse_lowDigits {b room n : ℕ} (hb : 1 < b) (hroom : room ≠ 0) (h : n < b ^ room) :
    (lowDigits b room n).reverse = representation b n := by
  rw [representation]
  split_ifs with hn
  · obtain ⟨k, rfl⟩ := Nat.exists_eq_succ_of_ne_zero hroom
    simp [hn, lowDigits]
  · rw [lowDigits_eq_digits hb hn h]

theorem length_representation_le {b k n : ℕ} (hb : 1 < b) (hk : k ≠ 0) (h : n < b ^ k) :
    (representation b n).length ≤ k := by
  rw [← reverse_lowDigits hb hk h, List.length_reverse]
  exact length_lowDigits_le b k n

theorem lt_of_mem_representation {b n d : ℕ} (hb : 1 < b) (h : d ∈ representation b n) : d < b := by
  rw [representation] at h
  split_ifs at h
  · rw [List.mem_singleton.mp h]
    omega
  · exact Nat.digits_lt_base hb (List.mem_reverse.mp h)

theorem ofDigits_representation (b n : ℕ) :
    Nat.ofDigits b (representation b n).reverse = n := by
  rw [representation]
  split_ifs with hn
  · rw [hn, List.reverse_singleton, Nat.ofDigits_singleton]
  · rw [List.reverse_reverse, Nat.ofDigits_digits]

end Toyos.Core
