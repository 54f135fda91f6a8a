import Toyos.Core.Checked
import Mathlib.Data.Nat.Notation

/-!
# Bounded loops

A loop repeats one checked step, which either continues with a new state or
leaves with a result. The bound only makes the definition total: the rule below
establishes a result whenever some measure of the state decreases and starts
below the bound, so a loop that meets it terminates on its own.
-/

namespace Toyos.Core

universe u v

variable {ε : Type u} {σ ρ : Type v}

/-- Repeat a step until it leaves; exceeding the bound stops at the named check. -/
def loop (step : σ → Except ε (σ ⊕ ρ)) (unfinished : ε) : ℕ → σ → Except ε ρ
  | 0, _ => .error unfinished
  | n + 1, s => do
    match ← step s with
    | .inl s' => loop step unfinished n s'
    | .inr r => return r

/-- A loop returns when its first round leaves or what follows it returns. -/
theorem loop_succ_eq_ok {step : σ → Except ε (σ ⊕ ρ)} {unfinished : ε} {n : ℕ} {s : σ} {r : ρ} :
    loop step unfinished (n + 1) s = .ok r ↔ step s = .ok (.inr r) ∨
      ∃ s', step s = .ok (.inl s') ∧ loop step unfinished n s' = .ok r := by
  cases hstep : step s with
  | error e => simp [loop, hstep]
  | ok out =>
    cases out with
    | inl s' => simp [loop, hstep]
    | inr r' => simp [loop, hstep]

/-- What a loop returns, a loop with more rounds returns as well, if its step agrees with that of
the first wherever that does not fail. -/
theorem loop_mono {step step' : σ → Except ε (σ ⊕ ρ)} {unfinished : ε}
    (hstep : ∀ s out, step s = .ok out → step' s = .ok out) {n n' : ℕ} {s : σ} {r : ρ}
    (hn : n ≤ n') (h : loop step unfinished n s = .ok r) :
    loop step' unfinished n' s = .ok r := by
  induction n generalizing n' s with
  | zero => cases h
  | succ n ih =>
    obtain ⟨k, rfl⟩ : ∃ k, n' = k + 1 := ⟨n' - 1, by omega⟩
    rcases loop_succ_eq_ok.mp h with hout | ⟨s', hs', hrest⟩
    · exact loop_succ_eq_ok.mpr (.inl (hstep s _ hout))
    · exact loop_succ_eq_ok.mpr (.inr ⟨s', hstep s _ hs', ih (by omega) hrest⟩)

/-- Total correctness: each round keeps the invariant and lowers the number of rounds it allows,
or leaves with the postcondition. -/
theorem loop_rounds {step : σ → Except ε (σ ⊕ ρ)} {unfinished : ε} (I : ℕ → σ → Prop)
    (Q : ρ → Prop)
    (hstep : ∀ m s, I m s → (∃ r, step s = .ok (.inr r) ∧ Q r) ∨
      ∃ s' m', step s = .ok (.inl s') ∧ I m' s' ∧ m' < m)
    {n m : ℕ} {s : σ} (hs : I m s) (hn : m < n) :
    ∃ r, loop step unfinished n s = .ok r ∧ Q r := by
  induction n generalizing m s with
  | zero => omega
  | succ n ih =>
    rcases hstep m s hs with ⟨r, hr, hq⟩ | ⟨s', m', hs', hi, hm⟩
    · exact ⟨r, by simp [loop, hr], hq⟩
    · obtain ⟨r, hr, hq⟩ := ih hi (by omega)
      exact ⟨r, by simp [loop, hs', hr], hq⟩

/-- Total correctness: an invariant that each round keeps or leaves with the
postcondition, and a measure that each continuing round decreases. -/
theorem loop_spec {step : σ → Except ε (σ ⊕ ρ)} {unfinished : ε} (I : σ → Prop) (Q : ρ → Prop)
    (μ : σ → ℕ)
    (hstep : ∀ s, I s → (∃ r, step s = .ok (.inr r) ∧ Q r) ∨
      ∃ s', step s = .ok (.inl s') ∧ I s' ∧ μ s' < μ s)
    {n : ℕ} {s : σ} (hs : I s) (hn : μ s < n) :
    ∃ r, loop step unfinished n s = .ok r ∧ Q r := by
  refine loop_rounds (fun m s => I s ∧ m = μ s) Q ?_ ⟨hs, rfl⟩ hn
  rintro _ s ⟨hi, rfl⟩
  rcases hstep s hi with hleave | ⟨s', hs', hi', hlt⟩
  · exact .inl hleave
  · exact .inr ⟨s', μ s', hs', ⟨hi', rfl⟩, hlt⟩

end Toyos.Core
