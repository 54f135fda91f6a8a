import Toyos.Core.Word
import Mathlib.Order.Interval.Set.Nat

/-!
# Half-open intervals

`cbl::interval` holds two 64-bit bounds. Its constructors reduce the end modulo
the word size, and an interval whose end does not exceed its begin is empty.
-/

namespace Toyos.Util

open Toyos.Core

/-- The interval from `a` up to but excluding `b`. -/
structure Interval where
  /-- The begin value. -/
  a : ℕ
  /-- The end value. -/
  b : ℕ
  deriving DecidableEq, Repr

namespace Interval

/-- The interval of a base and a size. -/
def fromSize (base size : ℕ) : Interval := ⟨base, wrap (base + size)⟩

/-- The interval of a base and a power-of-two size. -/
def fromOrder (base order : ℕ) : Interval := fromSize base (wrap (1 <<< order))

/-- Invalid intervals are also empty. -/
def empty (i : Interval) : Bool := i.b ≤ i.a

/-- The size, zero for invalid intervals. -/
def size (i : Interval) : ℕ := if i.empty then 0 else wsub i.b i.a

/-- Two intervals have a point in common. -/
def intersects (i o : Interval) : Bool := !i.empty && !o.empty && i.a < o.b && o.a < i.b

/-- Whether a point lies in the interval. -/
def contains (i : Interval) (v : ℕ) : Bool := !i.empty && i.a ≤ v && v < i.b

/-- The points of an interval. -/
def points (i : Interval) : Set ℕ := Set.Ico i.a i.b

theorem size_eq {i : Interval} (hb : i.b < 2 ^ 64) : i.size = i.b - i.a := by
  unfold size empty
  by_cases h : i.b ≤ i.a
  · simp [h]
  · rw [wsub_of_le hb (by omega)]
    simp [h]

theorem contains_fromSize {base size v : ℕ} (h : base + size < 2 ^ 64) :
    (fromSize base size).contains v = true ↔ base ≤ v ∧ v < base + size := by
  simp only [contains, empty, fromSize, wrap_of_lt h, Bool.and_eq_true, Bool.not_eq_true',
    decide_eq_false_iff_not, decide_eq_true_eq]
  omega

/-- The points of an interval start at its begin and are as many as its size. -/
theorem points_eq {i : Interval} (hb : i.b < 2 ^ 64) :
    i.points = Set.Ico i.a (i.a + i.size) := by
  rw [size_eq hb, points]
  ext x
  simp only [Set.mem_Ico]
  omega

end Interval

end Toyos.Util
