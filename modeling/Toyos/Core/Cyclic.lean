import Mathlib.Data.Nat.ModEq
import Mathlib.Data.List.Range

/-!
# Cyclic positions

Two counters walk over `n` slots: the first `first + count` items were taken and
the first `first` of them given back, so the items in between occupy a cyclic
window. A pointer that has passed the last slot rests behind it and wraps with
the next advance only.
-/

namespace Toyos.Core

/-- Where a pointer rests after `k` advances. -/
def restPos (n : ℕ) : ℕ → ℕ
  | 0 => 0
  | k + 1 => k % n + 1

/-- The slots of `count` consecutive items. -/
def window (n first count : ℕ) : List ℕ := (List.range' first count).map (· % n)

variable {n first count k : ℕ}

@[simp] theorem restPos_zero : restPos n 0 = 0 := rfl

@[simp] theorem restPos_succ : restPos n (k + 1) = k % n + 1 := rfl

theorem restPos_le (hn : 0 < n) : restPos n k ≤ n := by
  cases k with
  | zero => exact hn.le
  | succ k => exact Nat.mod_lt k hn

/-- Before the end, the pointer rests on the slot of the next item. -/
theorem restPos_of_ne (hn : 0 < n) (h : restPos n k ≠ n) : restPos n k = k % n := by
  cases k with
  | zero => simp
  | succ k =>
    have hlt := Nat.mod_lt k hn
    rw [restPos_succ] at h ⊢
    have hone : 1 % n = 1 := Nat.mod_eq_of_lt (by omega)
    rw [Nat.add_mod_of_add_mod_lt (by omega), hone]

/-- Behind the last slot, the next item takes the first one. -/
theorem mod_of_restPos_eq (hn : 0 < n) (h : restPos n k = n) : k % n = 0 := by
  cases k with
  | zero => simp
  | succ k =>
    rw [restPos_succ] at h
    rw [Nat.add_mod, show k % n = n - 1 by omega]
    rcases Nat.lt_or_ge 1 n with hlt | hge
    · rw [Nat.mod_eq_of_lt hlt, Nat.sub_add_cancel hn, Nat.mod_self]
    · rw [show n = 1 by omega]

/-- The last slot is followed by the first one. -/
theorem mod_add_one_eq_iff (hn : 0 < n) : k % n + 1 = n ↔ (k + 1) % n = 0 := by
  constructor
  · exact mod_of_restPos_eq (k := k + 1) hn
  · intro hzero
    by_contra hne
    have hrest := restPos_of_ne (k := k + 1) hn hne
    rw [hzero, restPos_succ] at hrest
    omega

@[simp] theorem window_zero : window n first 0 = [] := rfl

/-- Taking an item extends the window. -/
theorem window_concat :
    window n first (count + 1) = window n first count ++ [(first + count) % n] := by
  rw [window, List.range'_1_concat, List.map_append]
  rfl

/-- Giving back the oldest item shortens the window. -/
theorem window_cons :
    window n first (count + 1) = first % n :: window n (first + 1) count := by
  rw [window, List.range'_succ, List.map_cons]
  rfl

theorem window_eq_nil_iff : window n first count = [] ↔ count = 0 := by
  simp [window]

theorem lt_of_mem_window (hn : 0 < n) (h : k ∈ window n first count) : k < n := by
  obtain ⟨i, -, rfl⟩ := List.mem_map.mp h
  exact Nat.mod_lt i hn

/-- The slot of the next item is in use exactly when all slots are. -/
theorem next_mem_window_iff (hn : 0 < n) :
    (first + count) % n ∈ window n first count ↔ n ≤ count := by
  simp only [window, List.mem_map, List.mem_range'_1]
  constructor
  · rintro ⟨i, ⟨hle, hlt⟩, hmod⟩
    have hdvd : n ∣ first + count - i := (Nat.modEq_iff_dvd' hlt.le).mp hmod
    have := Nat.le_of_dvd (by omega) hdvd
    omega
  · intro h
    refine ⟨first + count - n, by omega, ?_⟩
    conv_rhs => rw [← Nat.sub_add_cancel (show n ≤ first + count by omega)]
    rw [Nat.add_mod_right]

/-- A window is shorter than the slots, or it fills them before anything was given back. -/
def Unlapped (n first count : ℕ) : Prop := count < n ∨ count = n ∧ first = 0

/-- The two pointers meet exactly at an empty window. -/
theorem Unlapped.restPos_eq_iff (h : Unlapped n first count) :
    restPos n (first + count) = restPos n first ↔ count = 0 := by
  constructor
  · intro heq
    cases first with
    | zero =>
      cases count with
      | zero => rfl
      | succ count => simp at heq
    | succ m =>
      have hlt : count < n := by
        rcases h with h | h
        · exact h
        · exact absurd h.2 (Nat.succ_ne_zero m)
      rw [show m + 1 + count = m + count + 1 by omega, restPos_succ, restPos_succ] at heq
      have hmod : m + count ≡ m + 0 [MOD n] := Nat.add_right_cancel heq
      exact Nat.eq_zero_of_dvd_of_lt
        ((Nat.modEq_zero_iff_dvd).mp (Nat.ModEq.add_left_cancel' m hmod)) hlt
  · rintro rfl
    rfl

/-- Where a producer looks for the other pointer: a pointer behind the last slot is taken to
move to the first slot, without the advance. -/
def lookAhead (n p : ℕ) : ℕ := if p = n then 0 else p + 1

theorem add_mod_succ_of_zero (h : k % (count + 1) = 0) : (k + count) % (count + 1) = count := by
  rw [Nat.add_mod, h, zero_add, Nat.mod_mod, Nat.mod_eq_of_lt (Nat.lt_succ_self count)]

theorem add_mod_succ_of_ne (h : k % (count + 1) ≠ 0) :
    (k + count) % (count + 1) = k % (count + 1) - 1 := by
  have hlt : k % (count + 1) < count + 1 := Nat.mod_lt k (Nat.succ_pos count)
  rw [Nat.add_mod, Nat.mod_eq_of_lt (Nat.lt_succ_self count),
    show k % (count + 1) + count = k % (count + 1) - 1 + (count + 1) by omega,
    Nat.add_mod_right, Nat.mod_eq_of_lt (by omega)]

/-- Looking ahead notices the filled slots. -/
theorem Unlapped.lt_of_room (hn : 0 < n) (h : Unlapped n first count)
    (hroom : lookAhead n (restPos n (first + count)) ≠ restPos n first) : count < n := by
  rcases h with hlt | ⟨rfl, rfl⟩
  · exact hlt
  · obtain ⟨k, rfl⟩ := Nat.exists_eq_succ_of_ne_zero hn.ne'
    simp [lookAhead] at hroom

/-- Giving back the oldest item leaves a window that has not lapped. -/
theorem Unlapped.tail (h : Unlapped n first (count + 1)) : Unlapped n (first + 1) count := by
  unfold Unlapped at *
  omega

/-- Away from the case that the pointer behind the last slot meets the other one on slot one,
looking ahead leaves room for one more item. -/
theorem Unlapped.succ (hn : 0 < n) (h : Unlapped n first count)
    (hroom : lookAhead n (restPos n (first + count)) ≠ restPos n first)
    (hlap : ¬(restPos n (first + count) = n ∧ restPos n first = 1)) :
    Unlapped n first (count + 1) := by
  have hlt := h.lt_of_room hn hroom
  cases first with
  | zero =>
    unfold Unlapped
    omega
  | succ m =>
    left
    by_contra hge
    obtain rfl : n = count + 1 := by omega
    rw [show m + 1 + count = m + count + 1 by omega, restPos_succ, restPos_succ] at hroom hlap
    have hmod := Nat.mod_lt m hn
    by_cases hzero : m % (count + 1) = 0
    · rw [add_mod_succ_of_zero hzero, hzero] at hlap
      exact hlap ⟨rfl, rfl⟩
    · rw [add_mod_succ_of_ne hzero, lookAhead, if_neg (by omega)] at hroom
      omega

/-- In that case all slots but one are in use, and one more item makes the pointers meet. -/
theorem Unlapped.lapped (h : Unlapped n first count)
    (hlap : restPos n (first + count) = n ∧ restPos n first = 1) :
    restPos n (first + count + 1) = restPos n first := by
  cases first with
  | zero => simp at hlap
  | succ m =>
    obtain ⟨hend, hone⟩ := hlap
    rw [restPos_succ] at hone
    have hn : 0 < n := by
      rw [← hend, show m + 1 + count = m + count + 1 by omega]
      exact Nat.succ_pos _
    rw [restPos_succ, mod_of_restPos_eq hn hend, restPos_succ]
    omega

/-- The parity that marks the items of a lap, starting with `true`. -/
def lapCycle (l : ℕ) : Bool := l % 2 == 0

@[simp] theorem lapCycle_zero : lapCycle 0 = true := rfl

@[simp] theorem lapCycle_succ (l : ℕ) : lapCycle (l + 1) = !lapCycle l := by
  unfold lapCycle
  rcases Nat.mod_two_eq_zero_or_one l with h | h
  · simp [Nat.add_mod, h]
  · simp [Nat.add_mod, h]

/-- The slot of an item is marked with the other parity one lap later. -/
theorem lapCycle_add_div (hn : 0 < n) : lapCycle ((k + n) / n) = !lapCycle (k / n) := by
  rw [Nat.add_div_right k hn, lapCycle_succ]

/-- The parity changes with the first item of the next lap. -/
theorem lapCycle_succ_div :
    lapCycle ((k + 1) / n) = if (k + 1) % n = 0 then !lapCycle (k / n) else lapCycle (k / n) := by
  rw [Nat.succ_div]
  by_cases h : (k + 1) % n = 0
  · rw [if_pos (Nat.dvd_of_mod_eq_zero h), if_pos h, lapCycle_succ]
  · rw [if_neg (mt Nat.mod_eq_zero_of_dvd h), if_neg h, Nat.add_zero]

/-- How often a pointer has wrapped after `k` advances. -/
def laps (n k : ℕ) : ℕ := (k - 1) / n

@[simp] theorem laps_succ : laps n (k + 1) = k / n := rfl

/-- An advance wraps exactly from behind the last slot. -/
theorem laps_step (hn : 0 < n) : k / n = laps n k + if restPos n k = n then 1 else 0 := by
  cases k with
  | zero => simp [laps, hn.ne]
  | succ k =>
    rw [laps_succ, restPos_succ, Nat.succ_div]
    congr 1
    have hlt := Nat.mod_lt k hn
    by_cases hend : k % n + 1 = n
    · rw [if_pos hend, if_pos (Nat.dvd_of_mod_eq_zero (mod_of_restPos_eq (k := k + 1) hn hend))]
    · have hmod := restPos_of_ne (k := k + 1) hn hend
      rw [restPos_succ] at hmod
      rw [if_neg hend, if_neg]
      intro hdvd
      rw [Nat.mod_eq_zero_of_dvd hdvd] at hmod
      omega

/-- The slots of the items from `lo` up to `hi` are not marked with their parity yet. -/
def Unmarked (n : ℕ) (bit : ℕ → Bool) (lo hi : ℕ) : Prop :=
  ∀ i, lo ≤ i → i < hi → bit (i % n) = !lapCycle (i / n)

variable {bit bit' : ℕ → Bool} {lo hi : ℕ}

theorem Unmarked.mono (h : Unmarked n bit lo hi) {lo' hi' : ℕ} (hlo : lo ≤ lo') (hhi : hi' ≤ hi) :
    Unmarked n bit lo' hi' := fun i hi₁ hi₂ => h i (hlo.trans hi₁) (hi₂.trans_le hhi)

theorem Unmarked.congr (h : Unmarked n bit lo hi) (hn : 0 < n) (hbit : ∀ j < n, bit' j = bit j) :
    Unmarked n bit' lo hi := by
  intro i hlo hhi
  rw [hbit _ (Nat.mod_lt i hn), h i hlo hhi]

/-- Distinct items of one lap's length lie in distinct slots. -/
theorem mod_ne_of_lt (hlo : k < lo) (hhi : lo < k + n) : lo % n ≠ k % n := by
  intro heq
  have hdvd : n ∣ lo - k := (Nat.modEq_iff_dvd' hlo.le).mp heq.symm
  have := Nat.le_of_dvd (by omega) hdvd
  omega

/-- Within one lap a slot determines its item. -/
theorem mod_eq_mod_iff (hlo : k ≤ lo) (hhi : lo < k + n) : lo % n = k % n ↔ lo = k := by
  constructor
  · intro heq
    by_contra hne
    exact mod_ne_of_lt (by omega) hhi heq
  · rintro rfl
    rfl

/-- Changing the slot of an item outside the range changes nothing. -/
theorem Unmarked.update (h : Unmarked n bit lo hi) (hlo : k < lo) (hhi : hi ≤ k + n)
    (hbit : ∀ j, j ≠ k % n → bit' j = bit j) : Unmarked n bit' lo hi := by
  intro i hi₁ hi₂
  rw [hbit _ (mod_ne_of_lt (hlo.trans_le hi₁) (hi₂.trans_le hhi)), h i hi₁ hi₂]

/-- Marking the first item moves the range. -/
theorem Unmarked.mark (h : Unmarked n bit k (k + n)) (hn : 0 < n)
    (hmark : bit' (k % n) = lapCycle (k / n)) (hbit : ∀ j, j ≠ k % n → bit' j = bit j) :
    Unmarked n bit' (k + 1) (k + 1 + n) := by
  intro i hlo hhi
  rcases Nat.lt_succ_iff_lt_or_eq.mp (show i < k + n + 1 by omega) with hlt | rfl
  · exact (h.mono (Nat.le_succ k) le_rfl).update (Nat.lt_succ_self k) le_rfl hbit i hlo hlt
  · rw [Nat.add_mod_right, hmark, lapCycle_add_div hn, Bool.not_not]

/-- The slots of the items of the lap before the range carry their marks. -/
theorem Unmarked.marked_of_lt (h : Unmarked n bit lo (lo + n)) (hn : 0 < n) (hlt : k < lo)
    (hle : lo ≤ k + n) : bit (k % n) = lapCycle (k / n) := by
  have hnext := h (k + n) hle (by omega)
  rwa [Nat.add_mod_right, lapCycle_add_div hn, Bool.not_not] at hnext

/-- The slot of the last item before the range carries its mark. -/
theorem Unmarked.marked (h : Unmarked n bit (k + 1) (k + 1 + n)) (hn : 0 < n) :
    bit (k % n) = lapCycle (k / n) :=
  h.marked_of_lt hn (Nat.lt_succ_self k) (by omega)

end Toyos.Core
