import Mathlib.Data.Option.Basic

/-!
# Checked computations

A computation that may stop at a failed check is an `Except` value whose error
names the check. The equations here reduce sequenced checks one at a time, so
that a specification lemma exposes the surviving state and nothing else.
-/

namespace Toyos.Core

universe u v

variable {ε : Type u} {α β : Type v}

/-- Continue only when the condition holds; otherwise stop at the named check. -/
def ensure (c : Prop) [Decidable c] (fault : ε) : Except ε Unit :=
  if c then .ok () else .error fault

@[simp] theorem ensure_of {c : Prop} [Decidable c] (fault : ε) (h : c) :
    ensure c fault = .ok () := by simp [ensure, h]

@[simp] theorem ensure_not {c : Prop} [Decidable c] (fault : ε) (h : ¬c) :
    ensure c fault = .error fault := by simp [ensure, h]

/-- A check is passed exactly if its condition holds. -/
theorem ensure_eq_ok {c : Prop} [Decidable c] {fault : ε} {u : Unit} :
    ensure c fault = .ok u ↔ c := by
  by_cases h : c
  · simp [h]
  · simp [h]

@[simp] theorem ok_bind (a : α) (f : α → Except ε β) : (Except.ok a >>= f) = f a := rfl

@[simp] theorem error_bind (e : ε) (f : α → Except ε β) :
    ((Except.error e : Except ε α) >>= f) = Except.error e := rfl

@[simp] theorem pure_eq_ok (a : α) : (pure a : Except ε α) = .ok a := rfl

@[simp] theorem mapError_ok {ε' : Type u} (f : ε → ε') (a : α) :
    (Except.ok a : Except ε α).mapError f = .ok a := rfl

@[simp] theorem mapError_error {ε' : Type u} (f : ε → ε') (e : ε) :
    (Except.error e : Except ε α).mapError f = .error (f e) := rfl

/-- Renaming errors leaves results alone. -/
theorem mapError_eq_ok {ε' : Type u} {f : ε → ε'} {x : Except ε α} {a : α} :
    x.mapError f = .ok a ↔ x = .ok a := by
  cases x with
  | error e => simp
  | ok b => simp

/-- A computation has at most one result. -/
theorem ok_unique {x : Except ε α} {a b : α} (ha : x = .ok a) (hb : x = .ok b) : a = b :=
  Except.ok.inj (ha.symm.trans hb)

/-- A successful sequence is a successful first part followed by a successful rest. -/
theorem bind_eq_ok {x : Except ε α} {f : α → Except ε β} {b : β} :
    (x >>= f) = .ok b ↔ ∃ a, x = .ok a ∧ f a = .ok b := by
  cases x with
  | error e => simp
  | ok a => simp

/-- A mapped result comes from a result. -/
theorem map_eq_ok {x : Except ε α} {f : α → β} {b : β} :
    x.map f = .ok b ↔ ∃ a, x = .ok a ∧ b = f a := by
  cases x with
  | error e => simp [Except.map]
  | ok a => simp [Except.map, eq_comm]

/-- A result without its error, in sequence. -/
theorem toOption_bind_eq_some {x : Except ε α} {f : α → Option β} {b : β} :
    (x.toOption >>= f) = some b ↔ ∃ a, x = .ok a ∧ f a = some b := by
  cases x with
  | error e => simp [Except.toOption]
  | ok a => simp [Except.toOption]

/-- A guard in sequence. -/
theorem guard_bind_eq_some {α : Type} {p : Prop} [Decidable p] {f : Unit → Option α} {a : α} :
    (guard p >>= f) = some a ↔ p ∧ f () = some a := by
  by_cases hp : p
  · simp [guard, hp]
  · simp [guard, hp, failure]

/-- Total correctness of a sequence of calls: each call returns and keeps the state related to a
record of the calls so far. -/
theorem foldlM_refines {C ρ : Type} {σ : Type v} {f : σ → C → Except ε σ} {record : ρ → C → ρ}
    (R : ρ → σ → Prop) (hstep : ∀ r s c, R r s → ∃ s', f s c = .ok s' ∧ R (record r c) s')
    (cs : List C) {r : ρ} {s : σ} (h : R r s) :
    ∃ s', cs.foldlM f s = .ok s' ∧ R (cs.foldl record r) s' := by
  induction cs generalizing r s with
  | nil => exact ⟨s, rfl, h⟩
  | cons c cs ih =>
    obtain ⟨s', hs', h'⟩ := hstep r s c h
    rw [List.foldlM_cons, hs', ok_bind]
    exact ih h'

end Toyos.Core
