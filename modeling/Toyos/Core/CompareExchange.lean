import Toyos.Core.Run
import Mathlib.Data.List.Nodup
import Mathlib.Logic.Function.Basic

/-!
# Updates by compare-exchange loops

Agents update one shared value. Each of them loads the value, computes the new
one and exchanges it if the shared value is still the loaded one; otherwise it
begins again. Other parties change the value atomically in between. The value is
always what the successful exchanges and the other changes make of it when they
are applied one after the other, and each agent succeeds at most once. It does
not matter whether the value has changed, and changed back, since it was loaded.
-/

namespace Toyos.Core.Exchange

variable {ι κ α : Type*}

/-- Where an agent is. -/
inductive Phase (α : Type*) where
  /-- Before the load. -/
  | ready
  /-- Between the load and the exchange. -/
  | loaded (expected : α)
  /-- Behind a successful exchange. -/
  | finished
  deriving DecidableEq, Repr

/-- The shared value and the agents. -/
structure State (ι α : Type*) where
  /-- The shared value. -/
  value : α
  /-- Where each agent is. -/
  phase : ι → Phase α

/-- The atomic steps. -/
inductive Event (ι κ : Type*) where
  /-- An agent loads the value. -/
  | load (a : ι)
  /-- An exchange finds the loaded value. -/
  | succeed (a : ι)
  /-- An exchange finds another value. -/
  | fail (a : ι)
  /-- Another party changes the value. -/
  | external (k : κ)
  deriving DecidableEq, Repr

/-- The state before the first load. -/
def start (v : α) : State ι α := ⟨v, fun _ => .ready⟩

/-- What an atomic step does, unless the agent is elsewhere. -/
def step [DecidableEq ι] [DecidableEq α] (update : ι → α → α) (effect : κ → α → α)
    (s : State ι α) : Event ι κ → Option (State ι α)
  | .load a =>
    match s.phase a with
    | .ready => some { s with phase := Function.update s.phase a (.loaded s.value) }
    | _ => none
  | .succeed a =>
    match s.phase a with
    | .loaded expected =>
      if s.value = expected then
        some ⟨update a expected, Function.update s.phase a .finished⟩
      else none
    | _ => none
  | .fail a =>
    match s.phase a with
    | .loaded expected =>
      if s.value = expected then none
      else some { s with phase := Function.update s.phase a .ready }
    | _ => none
  | .external k => some { s with value := effect k s.value }

/-- The change of the value in a step: a successful exchange or a change by another party. -/
def Event.change : Event ι κ → Option (ι ⊕ κ)
  | .succeed a => some (.inl a)
  | .external k => some (.inr k)
  | .load _ => none
  | .fail _ => none

/-- The changes of the value, in order. -/
def order (es : List (Event ι κ)) : List (ι ⊕ κ) := es.filterMap Event.change

/-- The agents whose exchange has succeeded, in order. -/
def winners (es : List (Event ι κ)) : List ι := (order es).filterMap Sum.getLeft?

/-- Apply one change. -/
def apply (update : ι → α → α) (effect : κ → α → α) (v : α) : ι ⊕ κ → α
  | .inl a => update a v
  | .inr k => effect k v

theorem order_snoc (es : List (Event ι κ)) (e : Event ι κ) :
    order (es ++ [e]) = order es ++ e.change.toList := by
  rw [order, order, List.filterMap_append]
  cases h : e.change <;> simp [h]

@[simp] theorem winners_load (es : List (Event ι κ)) (a : ι) :
    winners (es ++ [.load a]) = winners es := by
  simp [winners, order, Event.change]

@[simp] theorem winners_succeed (es : List (Event ι κ)) (a : ι) :
    winners (es ++ [.succeed a]) = winners es ++ [a] := by
  simp [winners, order, Event.change]

@[simp] theorem winners_fail (es : List (Event ι κ)) (a : ι) :
    winners (es ++ [.fail a]) = winners es := by
  simp [winners, order, Event.change]

@[simp] theorem winners_external (es : List (Event ι κ)) (k : κ) :
    winners (es ++ [.external k]) = winners es := by
  simp [winners, order, Event.change]

variable [DecidableEq ι] [DecidableEq α] {update : ι → α → α} {effect : κ → α → α}
  {s t : State ι α} {e : Event ι κ} {es : List (Event ι κ)} {v : α}

/-- What a step can do. -/
theorem step_cases (h : step update effect s e = some t) :
    (∃ a, e = .load a ∧ s.phase a = .ready ∧
      t = { s with phase := Function.update s.phase a (.loaded s.value) }) ∨
    (∃ a, e = .succeed a ∧ s.phase a = .loaded s.value ∧
      t = ⟨update a s.value, Function.update s.phase a .finished⟩) ∨
    (∃ a expected, e = .fail a ∧ s.phase a = .loaded expected ∧ s.value ≠ expected ∧
      t = { s with phase := Function.update s.phase a .ready }) ∨
    (∃ k, e = .external k ∧ t = { s with value := effect k s.value }) := by
  cases e with
  | load a =>
    simp only [step] at h
    split at h
    · rename_i hphase
      exact .inl ⟨a, rfl, hphase, (Option.some.inj h).symm⟩
    · cases h
  | succeed a =>
    simp only [step] at h
    split at h
    · rename_i expected hphase
      split at h
      · rename_i hvalue
        subst hvalue
        exact .inr (.inl ⟨a, rfl, hphase, (Option.some.inj h).symm⟩)
      · cases h
    · cases h
  | fail a =>
    simp only [step] at h
    split at h
    · rename_i expected hphase
      split at h
      · cases h
      · rename_i hvalue
        exact .inr (.inr (.inl ⟨a, expected, rfl, hphase, hvalue, (Option.some.inj h).symm⟩))
    · cases h
  | external k => exact .inr (.inr (.inr ⟨k, rfl, (Option.some.inj h).symm⟩))

/-- The value is what the changes so far make of the first one, in their order. -/
theorem value_eq_foldl
    (h : Run (fun s e t => step update effect s e = some t) (start v) es s) :
    s.value = (order es).foldl (apply update effect) v := by
  refine h.history_invariant (fun es s => s.value = (order es).foldl (apply update effect) v) rfl ?_
  intro es s e t _ hvalue hstep
  rw [order_snoc, List.foldl_append, ← hvalue]
  rcases step_cases hstep with
    ⟨a, rfl, -, rfl⟩ | ⟨a, rfl, -, rfl⟩ | ⟨a, expected, rfl, -, -, rfl⟩ | ⟨k, rfl, rfl⟩
  · rfl
  · rfl
  · rfl
  · rfl

omit [DecidableEq α] in
/-- Going from one unfinished phase to another changes nothing about who has finished. -/
theorem finished_update {a : ι} {p : Phase α} (hp : p ≠ .finished)
    (ha : s.phase a ≠ .finished) (b : ι) :
    Function.update s.phase a p b = .finished ↔ s.phase b = .finished := by
  by_cases hb : b = a
  · subst hb
    rw [Function.update_self]
    exact iff_of_false hp ha
  · rw [Function.update_of_ne hb]

/-- No agent succeeds twice, and those that have succeeded are the finished ones. -/
theorem winners_spec (h : Run (fun s e t => step update effect s e = some t) (start v) es s) :
    (winners es).Nodup ∧ ∀ a, a ∈ winners es ↔ s.phase a = .finished := by
  refine h.history_invariant
    (fun es s => (winners es).Nodup ∧ ∀ a, a ∈ winners es ↔ s.phase a = .finished)
    ⟨List.nodup_nil, fun a => by simp [winners, order, start]⟩ ?_
  rintro es s e t - ⟨hnodup, hmem⟩ hstep
  rcases step_cases hstep with
    ⟨a, rfl, hphase, rfl⟩ | ⟨a, rfl, hphase, rfl⟩ | ⟨a, expected, rfl, hphase, -, rfl⟩ |
    ⟨k, rfl, rfl⟩
  · have hready : s.phase a ≠ .finished := by simp [hphase]
    rw [winners_load]
    exact ⟨hnodup, fun b => (hmem b).trans (finished_update (by simp) hready b).symm⟩
  · have hnew : a ∉ winners es := by simp [hmem, hphase]
    rw [winners_succeed]
    refine ⟨?_, fun b => ?_⟩
    · rw [← List.concat_eq_append]
      exact hnodup.concat hnew
    · rw [List.mem_append, List.mem_singleton, hmem]
      by_cases hb : b = a
      · simp [hb]
      · simp [hb]
  · have hloaded : s.phase a ≠ .finished := by simp [hphase]
    rw [winners_fail]
    exact ⟨hnodup, fun b => (hmem b).trans (finished_update (by simp) hloaded b).symm⟩
  · rw [winners_external]
    exact ⟨hnodup, hmem⟩

end Toyos.Core.Exchange
