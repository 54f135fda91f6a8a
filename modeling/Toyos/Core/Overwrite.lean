import Mathlib.Data.List.Induction

/-!
# Sequences of writes

An operation overwrites a view of the state or leaves it alone. After a sequence
of operations the view shows what the last operation to overwrite it has written.
-/

namespace Toyos.Core

variable {σ C α : Type*}

/-- Each operation overwrites the view with a value of its own or leaves it alone. -/
def Overwrites (exec : σ → C → σ) (view : σ → α) (writes : C → Option α) : Prop :=
  ∀ s c, view (exec s c) = (writes c).getD (view s)

/-- The value that the last operation to write has written. -/
def lastWrite (writes : C → Option α) (cs : List C) : Option α := (cs.filterMap writes).getLast?

theorem lastWrite_eq_none {writes : C → Option α} {cs : List C}
    (h : ∀ c ∈ cs, writes c = none) : lastWrite writes cs = none := by
  rw [lastWrite, List.filterMap_eq_nil_iff.mpr h]
  rfl

theorem exists_of_lastWrite {writes : C → Option α} {cs : List C} {a : α}
    (h : lastWrite writes cs = some a) : ∃ c ∈ cs, writes c = some a :=
  List.mem_filterMap.mp (List.mem_of_getLast? h)

theorem lastWrite_append_cons {writes : C → Option α} {before after : List C} {c : C} {a : α}
    (hc : writes c = some a) (hafter : ∀ c ∈ after, writes c = none) :
    lastWrite writes (before ++ c :: after) = some a := by
  rw [lastWrite, List.filterMap_append, List.filterMap_cons_some hc,
    List.filterMap_eq_nil_iff.mpr hafter]
  simp

namespace Overwrites

variable {exec : σ → C → σ} {view : σ → α} {writes : C → Option α} {s : σ} {cs : List C}

/-- After a sequence of operations the view shows the last value written, if there is one. -/
theorem foldl_eq (h : Overwrites exec view writes) :
    view (cs.foldl exec s) = (lastWrite writes cs).getD (view s) := by
  induction cs using List.reverseRecOn with
  | nil => rfl
  | append_singleton cs c ih =>
    rw [List.foldl_append, List.foldl_cons, List.foldl_nil, h, ih, lastWrite, lastWrite,
      List.filterMap_append]
    cases hc : writes c with
    | none => simp [List.filterMap_cons_none hc]
    | some a => simp [List.filterMap_cons_some hc]

/-- A sequence of operations that do not write leaves the view as it is. -/
theorem foldl_of_none (h : Overwrites exec view writes) (hcs : ∀ c ∈ cs, writes c = none) :
    view (cs.foldl exec s) = view s := by
  rw [h.foldl_eq, lastWrite_eq_none hcs]
  rfl

/-- The last operation that writes determines the view. -/
theorem foldl_last {before after : List C} {c : C} {a : α} (h : Overwrites exec view writes)
    (hc : writes c = some a) (hafter : ∀ c ∈ after, writes c = none) :
    view ((before ++ c :: after).foldl exec s) = a := by
  rw [h.foldl_eq, lastWrite_append_cons hc hafter]
  rfl

end Overwrites

end Toyos.Core
