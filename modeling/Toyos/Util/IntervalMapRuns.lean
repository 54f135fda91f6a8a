import Toyos.Core.Run
import Toyos.Util.IntervalMapRefinement

/-!
# Runs of the interval map

Starting from the constructor, any sequence of inserts of non-empty intervals
and of removes keeps the vector well formed, and none of its functions fails on
such a vector. The map it denotes is total, and inserting overwrites it.
-/

namespace Toyos.Util

open Toyos.Core Toyos.Core.Steps

/-- A modifying call. -/
inductive IntervalEvent (V : Type)
  /-- A call of `insert`. -/
  | insert (ival : Interval) (val : V)
  /-- A call of `remove`. -/
  | remove (point : ℕ)
  deriving DecidableEq, Repr

/-- An interval with 64-bit bounds that is not empty. -/
structure Interval.Proper (ival : Interval) : Prop where
  /-- The interval has a point. -/
  lt : ival.a < ival.b
  /-- The end is a 64-bit value. -/
  b_lt : ival.b < 2 ^ 64

namespace IntervalVector

variable {V : Type} {s t : IntervalVector V} {e : IntervalEvent V} {ival : Interval}

/-- The value that `find` yields at a point. -/
def valueAt (s : IntervalVector V) (point : ℕ) : Option V :=
  match s.find point with
  | .ok (some (_, v)) => some v
  | _ => none

/-- The value at a point is the value of the listing. -/
theorem WellFormed.valueAt_eq (h : s.WellFormed) (p : ℕ) : s.valueAt p = eval s.m p := by
  obtain ⟨before, x, after, heq, hx, hafter, -, hfind⟩ := h.find_eq p
  rw [valueAt, hfind, heq]
  exact (evalFrom_concat hx hafter).symm

/-- `find` yields a value everywhere. -/
theorem WellFormed.find_ok (h : s.WellFormed) (p : ℕ) :
    ∃ i w, s.find p = .ok (some (i, w)) ∧ s.valueAt p = some w := by
  obtain ⟨before, x, after, -, -, -, -, hfind⟩ := h.find_eq p
  exact ⟨_, x.2, hfind, by rw [valueAt, hfind]⟩

/-- The interval that `find` returns is the maximal one around the point on which the map is
constant. -/
theorem WellFormed.find_maximal (h : s.WellFormed) {p : ℕ} (hp : p < ivalLast) :
    ∃ i w, s.find p = .ok (some (i, w)) ∧ i.a ≤ p ∧ p < i.b ∧ i.b ≤ ivalLast ∧
      (∀ q, i.a ≤ q → q < i.b → s.valueAt q = some w) ∧
      ∀ lo hi, lo ≤ p → p < hi → hi ≤ ivalLast →
        (∀ q, lo ≤ q → q < hi → s.valueAt q = some w) → i.a ≤ lo ∧ hi ≤ i.b := by
  obtain ⟨before, x, after, heq, hx, hafter, -, hfind⟩ := h.find_eq p
  have hreduced := h.reduced
  simp only [h.valueAt_eq]
  rw [heq] at hreduced ⊢
  refine ⟨_, x.2, hfind, hx, ?_⟩
  cases after with
  | nil =>
    refine ⟨hp, le_rfl, fun q hq _ => hreduced.eval_of_mem hq (by simp), ?_⟩
    intro lo hi hlo hhi hlast hconst
    exact ⟨(hreduced.maximal hx (by simp) hlo hhi hconst).1, hlast⟩
  | cons y ys =>
    have hy : ∀ z ∈ (y :: ys).head?, p < z.1 := by simpa using hafter y (by simp)
    refine ⟨hafter y (by simp), (h.keys y (by simp [heq])).le, ?_, ?_⟩
    · intro q hq hlt
      exact hreduced.eval_of_mem hq (by simpa using hlt)
    · intro lo hi hlo hhi _ hconst
      obtain ⟨hleft, hright⟩ := hreduced.maximal hx hy hlo hhi hconst
      exact ⟨hleft, hright y (by simp)⟩

theorem new_wellFormed (val : V) : (new val).WellFormed :=
  ⟨List.isChain_singleton _, ⟨val, [], rfl⟩, by simp [new, ivalLast]⟩

variable [DecidableEq V]

/-- Inserting keeps the vector well formed and overwrites the map. -/
theorem WellFormed.insert_ok (h : s.WellFormed) (hival : ival.Proper) (v : V) :
    ∃ s', s.insert ival v = .ok (true, s') ∧ s'.WellFormed ∧
      ∀ p < ivalLast, s'.valueAt p = if ival.a ≤ p ∧ p < ival.b then some v else s.valueAt p := by
  have hb : ival.b ≤ ivalLast := Nat.le_sub_one_of_lt hival.b_lt
  obtain ⟨before, mid, after, hc⟩ := exists_cut h.reduced.sorted ival.a ival.b
  obtain ⟨init, x, hleft, hinsert⟩ := h.insert_eq hival.lt hc v
  have hafter : ∀ e ∈ after, e.1 < ivalLast := fun e he => h.keys e (by simp [hc.eq, he])
  have hwell : WellFormed ⟨fuse before ival.a v (resume ivalLast ival.b x.2 after)⟩ :=
    h.overwrite hc hival.lt hb hleft
  refine ⟨_, hinsert, hwell, fun p hp => ?_⟩
  rw [hwell.valueAt_eq, h.valueAt_eq]
  exact hc.evalFrom_overwrite hival.lt hb hafter hleft hp

variable [Inhabited V]

/-- One modifying call that returns. -/
inductive Step : IntervalVector V → IntervalEvent V → IntervalVector V → Prop
  | insert {s ival val r s'} : ival.Proper → s.insert ival val = .ok (r, s') →
      Step s (.insert ival val) s'
  | remove {s point r s'} : point < 2 ^ 64 → s.remove point = .ok (r, s') →
      Step s (.remove point) s'

/-- The maps built by a constructor and modifying calls. -/
def Reachable (s : IntervalVector V) : Prop := ∃ val es, Run Step (new val) es s

/-- Every modifying call keeps the vector well formed. -/
theorem WellFormed.step (h : s.WellFormed) (hs : Step s e t) : t.WellFormed := by
  cases hs with
  | @insert ival val r _ hival hcall =>
    obtain ⟨s', hok, hwell, -⟩ := h.insert_ok hival val
    obtain ⟨-, rfl⟩ := Prod.mk.inj (ok_unique hcall hok)
    exact hwell
  | @remove point r _ _ hcall =>
    obtain ⟨before, x, after, heq, -, -, hok⟩ := h.remove_eq point
    obtain ⟨-, rfl⟩ := Prod.mk.inj (ok_unique hcall hok)
    exact h.cutOut heq

theorem Reachable.wellFormed (h : s.Reachable) : s.WellFormed := by
  obtain ⟨val, es, hrun⟩ := h
  exact hrun.invariant WellFormed (new_wellFormed val) fun _ _ _ hs hstep => hs.step hstep

/-- A small map: one on two points, zero elsewhere. -/
def twoPoints : IntervalVector ℕ := ⟨[(0, 0), (3, 1), (5, 0)]⟩

theorem twoPoints_reachable : twoPoints.Reachable := by
  have hcall : (new 0).insert ⟨3, 5⟩ 1 = .ok (true, twoPoints) := by decide +kernel
  have hproper : Interval.Proper ⟨3, 5⟩ := ⟨by decide, by decide⟩
  exact ⟨0, _, Run.nil.snoc (.insert hproper hcall)⟩

/-- The representation invariant holds after any sequence of calls, and no call fails an
assertion or uses an iterator outside the vector. -/
theorem representation_invariant (hs : s.Reachable) :
    s.m ≠ [] ∧ s.m.head?.map Prod.fst = some 0 ∧ s.m.Pairwise (fun x y => x.1 < y.1) ∧
      (∀ x ∈ s.m, x.1 < ivalLast) ∧ s.m.IsChain (fun x y => x.2 ≠ y.2) ∧
      (∀ ival v, ival.Proper → ∃ s', s.insert ival v = .ok (true, s')) ∧
      (∀ p < 2 ^ 64, ∃ s', s.remove p = .ok (true, s')) ∧
      (∀ p < 2 ^ 64, ∃ r, s.find p = .ok (some r)) := by
  have h := hs.wellFormed
  obtain ⟨w, rest, hhead⟩ := h.head
  refine ⟨by simp [hhead], by simp [hhead], h.reduced.sorted, h.keys,
    List.IsChain.imp (fun _ _ hxy => hxy.2) h.reduced, ?_, ?_, ?_⟩
  · intro ival v hival
    obtain ⟨s', hok, -⟩ := h.insert_ok hival v
    exact ⟨s', hok⟩
  · intro p _
    obtain ⟨before, x, after, -, -, -, hok⟩ := h.remove_eq p
    exact ⟨_, hok⟩
  · intro p _
    obtain ⟨i, w, hok, -⟩ := h.find_ok p
    exact ⟨_, hok⟩

/-- The invariant and progress at the small map. -/
theorem representation_invariant_twoPoints : twoPoints.Reachable ∧
    twoPoints.m.IsChain (fun x y => x.2 ≠ y.2) ∧
    ∃ s', twoPoints.insert ⟨4, 9⟩ 2 = .ok (true, s') := by
  obtain ⟨-, -, -, -, hdiff, hinsert, -, -⟩ := representation_invariant twoPoints_reachable
  exact ⟨twoPoints_reachable, hdiff, hinsert ⟨4, 9⟩ 2 ⟨by decide, by decide⟩⟩

/-- The vector implements a total map: inserting overwrites exactly the points of the
interval, and `find` returns the maximal interval of constant value around a point. -/
theorem insert_overwrites (hs : s.Reachable) :
    (∀ ival v, ival.Proper → ∃ s', s.insert ival v = .ok (true, s') ∧
      ∀ p < ivalLast, ∃ i w i' w', s.find p = .ok (some (i, w)) ∧
        s'.find p = .ok (some (i', w')) ∧
        w' = if ival.a ≤ p ∧ p < ival.b then v else w) ∧
    (∀ p < ivalLast, ∃ i w, s.find p = .ok (some (i, w)) ∧ i.a ≤ p ∧ p < i.b ∧
      i.b ≤ ivalLast ∧ (∀ q, i.a ≤ q → q < i.b → s.valueAt q = some w) ∧
      ∀ lo hi, lo ≤ p → p < hi → hi ≤ ivalLast →
        (∀ q, lo ≤ q → q < hi → s.valueAt q = some w) → i.a ≤ lo ∧ hi ≤ i.b) := by
  have h := hs.wellFormed
  refine ⟨fun ival v hival => ?_, fun p hp => h.find_maximal hp⟩
  obtain ⟨s', hok, hwell, hvalue⟩ := h.insert_ok hival v
  refine ⟨s', hok, fun p hp => ?_⟩
  obtain ⟨i, w, hfind, hw⟩ := h.find_ok p
  obtain ⟨i', w', hfind', hw'⟩ := hwell.find_ok p
  refine ⟨i, w, i', w', hfind, hfind', ?_⟩
  have heq := hvalue p hp
  rw [hw, hw', ← apply_ite some] at heq
  exact Option.some.inj heq

/-- At the small map, a point outside the inserted interval keeps its value. -/
theorem insert_overwrites_twoPoints : twoPoints.Reachable ∧
    ∃ s', twoPoints.insert ⟨4, 9⟩ 2 = .ok (true, s') ∧
      ∃ i w i' w', twoPoints.find 3 = .ok (some (i, w)) ∧ s'.find 3 = .ok (some (i', w')) ∧
        w' = w := by
  obtain ⟨s', hok, hfind⟩ :=
    (insert_overwrites twoPoints_reachable).1 ⟨4, 9⟩ 2 ⟨by decide, by decide⟩
  obtain ⟨i, w, i', w', hold, hnew, heq⟩ := hfind 3 (by decide)
  exact ⟨twoPoints_reachable, s', hok, i, w, i', w', hold, hnew, by simpa using heq⟩

end IntervalVector

end Toyos.Util
