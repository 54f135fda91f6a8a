import Toyos.Core.Loop
import Toyos.Core.Word
import Mathlib.Algebra.Order.Field.Basic
import Mathlib.Algebra.Order.Field.Rat
import Mathlib.Data.BitVec
import Mathlib.Order.Monotone.Basic
import Mathlib.Tactic.FieldSimp
import Mathlib.Tactic.Linarith
import Mathlib.Tactic.NormNum
import Mathlib.Tactic.Ring

/-!
# The high precision event timer

The main counter has 64 bits and is read in two halves. The upper half is read
again after the lower one, and the round is repeated if it has changed. Amounts of
time are converted to ticks of the counter by the ticks per microsecond, a quotient
that is rounded before it is multiplied.
-/

namespace Toyos.Testhelper.Hpet

open Toyos.Core

/-- Reasons for stopping. -/
inductive Fault where
  /-- More rounds than the bound. -/
  | unfinished
  deriving DecidableEq, Repr

/-- The register of the upper half of the counter. -/
def mainCounterHi (counter : BitVec 64) : BitVec 32 := (counter >>> 32).setWidth 32

/-- The register of the lower half of the counter. -/
def mainCounterLo (counter : BitVec 64) : BitVec 32 := counter.setWidth 32

/-- A round of the loop whose first read is number `k`. A round that leaves returns the value and
the number of its last read. -/
def mainCounterRound (counter : ℕ → BitVec 64) (k : ℕ) :
    Except Fault (ℕ ⊕ (BitVec 64 × ℕ)) :=
  let mainHi := (mainCounterHi (counter k)).setWidth 64
  let mainLo := (mainCounterLo (counter (k + 1))).setWidth 64
  if mainHi ≠ (mainCounterHi (counter (k + 2))).setWidth 64 then .ok (.inl (k + 3))
  else .ok (.inr (mainHi <<< 32 ||| mainLo, k + 2))

/-- Read the main counter, whose value at each read of a register is given. -/
def mainCounter (counter : ℕ → BitVec 64) (rounds : ℕ) : Except Fault (BitVec 64 × ℕ) :=
  loop (mainCounterRound counter) .unfinished rounds 0

/-- The ticks that form an amount of microseconds, for a period in femtoseconds. -/
def microsecondsToTicks (period us : ℕ) : ℕ := wrap ((1000000000 / period) * us)

/-- The ticks that form an amount of milliseconds. -/
def millisecondsToTicks (period ms : ℕ) : ℕ := microsecondsToTicks period (wrap (1000 * ms))

/-- A counter that only counts up, as long as it does not wrap around. -/
def NonDecreasing {T : Type*} [LE T] (counter : T → BitVec 64) : Prop :=
  ∀ s t, s ≤ t → counter s ≤ counter t

section Counter

variable {c c₁ c₂ c₃ : BitVec 64} {k : ℕ}

theorem toNat_mainCounterHi : (mainCounterHi c).toNat = c.toNat / 2 ^ 32 := by
  rw [mainCounterHi, BitVec.toNat_setWidth, BitVec.toNat_ushiftRight, Nat.shiftRight_eq_div_pow]
  have := c.isLt
  omega

/-- The upper half does not decrease. -/
theorem mainCounterHi_mono (h : c₁ ≤ c₂) :
    (mainCounterHi c₁).toNat ≤ (mainCounterHi c₂).toNat := by
  rw [toNat_mainCounterHi, toNat_mainCounterHi]
  exact Nat.div_le_div_right (BitVec.le_def.mp h)

/-- An upper half that is the same before and after is the same in between. -/
theorem mainCounterHi_between (h₁ : c₁ ≤ c₂) (h₂ : c₂ ≤ c₃)
    (h : mainCounterHi c₁ = mainCounterHi c₃) : mainCounterHi c₁ = mainCounterHi c₂ := by
  apply BitVec.eq_of_toNat_eq
  have hlow := mainCounterHi_mono h₁
  have hhigh := mainCounterHi_mono h₂
  rw [← h] at hhigh
  omega

/-- The two halves make up the counter. -/
theorem halves_eq :
    (mainCounterHi c).setWidth 64 <<< 32 ||| (mainCounterLo c).setWidth 64 = c := by
  apply BitVec.eq_of_getLsbD_eq
  intro i hi
  rw [BitVec.getLsbD_or, BitVec.getLsbD_shiftLeft, BitVec.getLsbD_setWidth, mainCounterHi,
    BitVec.getLsbD_setWidth, BitVec.getLsbD_ushiftRight, BitVec.getLsbD_setWidth, mainCounterLo,
    BitVec.getLsbD_setWidth]
  grind

variable {T : Type*} [Preorder T] {counter : T → BitVec 64} {clock : ℕ → T}

/-- A round leaves with the value that the counter had when its lower half was read, or the upper
half has grown. -/
theorem mainCounterRound_spec (hcounter : NonDecreasing counter) (hclock : Monotone clock) :
    mainCounterRound (counter ∘ clock) k = .ok (.inr (counter (clock (k + 1)), k + 2)) ∨
      mainCounterRound (counter ∘ clock) k = .ok (.inl (k + 3)) ∧
        (mainCounterHi (counter (clock k))).toNat <
          (mainCounterHi (counter (clock (k + 3)))).toNat := by
  have hle {i j : ℕ} (hij : i ≤ j) : counter (clock i) ≤ counter (clock j) :=
    hcounter _ _ (hclock hij)
  rw [mainCounterRound]
  dsimp only [Function.comp_apply]
  by_cases h : mainCounterHi (counter (clock k)) = mainCounterHi (counter (clock (k + 2)))
  · rw [if_neg (by simp [h]), mainCounterHi_between (hle (Nat.le_succ k))
      (hle (Nat.le_succ (k + 1))) h, halves_eq]
    exact .inl rfl
  · have hne : (mainCounterHi (counter (clock k))).setWidth 64 ≠
        (mainCounterHi (counter (clock (k + 2)))).setWidth 64 := by
      intro heq
      have hback := congrArg (BitVec.setWidth 32) heq
      simp only [BitVec.setWidth_setWidth_of_le _ (show 32 ≤ 64 by decide), BitVec.setWidth_eq]
        at hback
      exact h hback
    have hgrow := Nat.lt_of_le_of_ne (mainCounterHi_mono (hle (Nat.le_add_right k 2)))
      fun heq => h (BitVec.eq_of_toNat_eq heq)
    rw [if_pos hne]
    exact .inr ⟨rfl, hgrow.trans_le (mainCounterHi_mono (hle (Nat.le_succ (k + 2))))⟩

/-- Reading a counter that only counts up takes at most one round for each value of its upper
half, and gives the value that the counter had at one of the reads. -/
theorem mainCounter_spec (hcounter : NonDecreasing counter) (hclock : Monotone clock)
    {rounds : ℕ} (hrounds : 2 ^ 32 < rounds) :
    ∃ r : BitVec 64 × ℕ, mainCounter (counter ∘ clock) rounds = .ok r ∧
      ∃ i ≤ r.2, counter (clock i) = r.1 := by
  refine loop_spec (fun _ => True) (fun r : BitVec 64 × ℕ => ∃ i ≤ r.2, counter (clock i) = r.1)
    (fun k => 2 ^ 32 - (mainCounterHi (counter (clock k))).toNat) ?_ trivial
    (Nat.lt_of_le_of_lt (Nat.sub_le _ _) hrounds)
  intro k _
  rcases mainCounterRound_spec hcounter hclock with hleave | ⟨hagain, hgrow⟩
  · exact .inl ⟨_, hleave, k + 1, Nat.le_succ _, rfl⟩
  · refine .inr ⟨_, hagain, trivial, ?_⟩
    have hlt := (mainCounterHi (counter (clock (k + 3)))).isLt
    omega

end Counter

/-- Reads of the main counter are never torn: for a counter that only counts up, read at times in
order, `main_counter` returns and what it returns is the value of the counter at some time between
its first and its last read. -/
theorem counter_never_torn {T : Type*} [Preorder T] (counter : T → BitVec 64) (clock : ℕ → T)
    (hcounter : NonDecreasing counter) (hclock : Monotone clock) :
    ∃ value last, (∀ rounds, 2 ^ 32 < rounds →
        mainCounter (counter ∘ clock) rounds = .ok (value, last)) ∧
      (∀ rounds r, mainCounter (counter ∘ clock) rounds = .ok r → r = (value, last)) ∧
      ∃ t, clock 0 ≤ t ∧ t ≤ clock last ∧ counter t = value := by
  obtain ⟨⟨value, last⟩, hrun, i, hi, hvalue⟩ :=
    mainCounter_spec hcounter hclock (Nat.lt_succ_self (2 ^ 32))
  have hmore {n rounds : ℕ} {r : BitVec 64 × ℕ} (hn : n ≤ rounds)
      (h : mainCounter (counter ∘ clock) n = .ok r) :
      mainCounter (counter ∘ clock) rounds = .ok r :=
    loop_mono (fun _ _ h => h) hn h
  refine ⟨value, last, fun rounds hrounds => hmore hrounds hrun, fun rounds r h => ?_,
    clock i, hclock (Nat.zero_le i), hclock hi, hvalue⟩
  have hlong : mainCounter (counter ∘ clock) (rounds + (2 ^ 32 + 1)) = .ok (value, last) :=
    hmore (Nat.le_add_left _ _) hrun
  exact ok_unique (hmore (Nat.le_add_right _ _) h) hlong

/-- A counter whose lower half overflows after the first read. -/
def overflowing (t : ℕ) : BitVec 64 := if t = 0 then 0xffffffff else 0x100000000

/-- The overflow during the first round is noticed. -/
theorem overflowing_never_torn : ∃ value last, (∀ rounds, 2 ^ 32 < rounds →
      mainCounter (overflowing ∘ id) rounds = .ok (value, last)) ∧
    (∀ rounds r, mainCounter (overflowing ∘ id) rounds = .ok r → r = (value, last)) ∧
    ∃ t, id 0 ≤ t ∧ t ≤ id last ∧ overflowing t = value := by
  refine counter_never_torn overflowing id ?_ monotone_id
  intro s t hst
  unfold overflowing
  by_cases hs : s = 0
  · by_cases ht : t = 0
    · simp [hs, ht]
    · rw [if_pos hs, if_neg ht]
      decide
  · rw [if_neg hs, if_neg (by omega)]
    exact BitVec.le_refl _

section Ticks

variable {period us ms : ℕ}

/-- The number of ticks is less than one off. -/
def Accurate (ticks : ℕ) (exact : ℚ) : Prop := |(ticks : ℚ) - exact| < 1

/-- Within its range the conversion does not overflow. -/
theorem microsecondsToTicks_eq (hus : us * 10 ^ 9 < 2 ^ 64) :
    microsecondsToTicks period us = 10 ^ 9 / period * us := by
  refine wrap_of_lt (Nat.lt_of_le_of_lt ?_ hus)
  rw [Nat.mul_comm us]
  exact Nat.mul_le_mul_right us (Nat.div_le_self _ _)

/-- The error is the remainder of the rounded quotient, once for each microsecond. -/
theorem exact_sub_ticks (hperiod : 0 < period) :
    (us * 10 ^ 9 / period : ℚ) - (10 ^ 9 / period * us : ℕ) =
      (us * (10 ^ 9 % period) : ℕ) / (period : ℚ) := by
  have hne : (period : ℚ) ≠ 0 := Nat.cast_ne_zero.mpr (Nat.pos_iff_ne_zero.mp hperiod)
  have hdiv : ((period * (10 ^ 9 / period) + 10 ^ 9 % period : ℕ) : ℚ) = 10 ^ 9 := by
    rw [Nat.div_add_mod]
    norm_num
  push_cast at hdiv ⊢
  rw [← hdiv]
  field_simp
  ring

theorem accurate_iff (hperiod : 0 < period) :
    Accurate (10 ^ 9 / period * us) (us * 10 ^ 9 / period) ↔ us * (10 ^ 9 % period) < period := by
  have hpos : (0 : ℚ) < period := Nat.cast_pos.mpr hperiod
  rw [Accurate, abs_sub_comm, exact_sub_ticks hperiod,
    abs_of_nonneg (div_nonneg (Nat.cast_nonneg _) hpos.le), div_lt_one hpos, Nat.cast_lt]

/-- Milliseconds are converted by way of microseconds. -/
theorem millisecondsToTicks_eq (hms : ms * 10 ^ 12 < 2 ^ 64) :
    millisecondsToTicks period ms = 10 ^ 9 / period * (1000 * ms) := by
  have hus : 1000 * ms * 10 ^ 9 < 2 ^ 64 := lt_of_eq_of_lt (by ring) hms
  have hfits : 1000 * ms < 2 ^ 64 := Nat.lt_of_le_of_lt (Nat.le_mul_of_pos_right _ (by decide)) hus
  rw [millisecondsToTicks, wrap_of_lt hfits, microsecondsToTicks_eq hus]

/-- The conversions are accurate exactly if the remainders of all microseconds do not add up to a
tick. -/
theorem conversion_accurate_iff (period us ms : ℕ) (hperiod : 0 < period)
    (hus : us * 10 ^ 9 < 2 ^ 64) (hms : ms * 10 ^ 12 < 2 ^ 64) :
    (Accurate (microsecondsToTicks period us) (us * 10 ^ 9 / period) ↔
      us * (10 ^ 9 % period) < period) ∧
    (Accurate (millisecondsToTicks period ms) (ms * 10 ^ 12 / period) ↔
      1000 * ms * (10 ^ 9 % period) < period) := by
  rw [microsecondsToTicks_eq hus, millisecondsToTicks_eq hms]
  have hms' : (ms * 10 ^ 12 / period : ℚ) = (1000 * ms : ℕ) * 10 ^ 9 / period := by
    push_cast
    ring
  rw [hms']
  exact ⟨accurate_iff hperiod, accurate_iff hperiod⟩

/-- A counter of 14.318 MHz: microseconds are accurate up to 3 of them, milliseconds never. -/
theorem accurate_at_69841279 :
    Accurate (microsecondsToTicks 69841279 3) ((3 : ℕ) * 10 ^ 9 / (69841279 : ℕ)) ∧
    ¬Accurate (millisecondsToTicks 69841279 1) ((1 : ℕ) * 10 ^ 12 / (69841279 : ℕ)) := by
  obtain ⟨hmicro, hmilli⟩ :=
    conversion_accurate_iff 69841279 3 1 (by decide) (by decide) (by decide)
  exact ⟨hmicro.mpr (by decide), mt hmilli.mp (by decide)⟩

/-- For such a counter a millisecond is 318 ticks short. -/
theorem millisecond_too_short : millisecondsToTicks 69841279 1 = 14000 ∧
    (14318 : ℚ) < 1 * 10 ^ 12 / 69841279 ∧
    ¬Accurate (millisecondsToTicks 69841279 1) (1 * 10 ^ 12 / 69841279) := by
  have hticks : millisecondsToTicks 69841279 1 = 14000 := by decide
  have hexact : (14318 : ℚ) < 1 * 10 ^ 12 / 69841279 := by norm_num
  refine ⟨hticks, hexact, ?_⟩
  rw [Accurate, hticks, not_lt, abs_sub_comm]
  have hle : (1 : ℚ) ≤ 1 * 10 ^ 12 / 69841279 - (14000 : ℕ) := by
    push_cast
    linarith
  exact hle.trans (le_abs_self _)

end Ticks

end Toyos.Testhelper.Hpet
