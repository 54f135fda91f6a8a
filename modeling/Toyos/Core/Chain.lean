import Toyos.Core.Scan
import Mathlib.Data.Fintype.EquivFin
import Mathlib.Logic.Function.Iterate

/-!
# Linked chains

A chain follows a link from node to node until it meets a node at which it
stops. Over finitely many nodes it comes to an end exactly when no node is met
twice on the way. A search along a chain leaves at the first node that has a
result, and a walk along it collects the nodes in front of the end.
-/

namespace Toyos.Core

universe u v

variable {ε : Type u} {α ρ : Type v} {next : α → α} {stop : α → Bool} {a : α}

/-- The chain reaches a node at which it stops. -/
def Ends (next : α → α) (stop : α → Bool) (a : α) : Prop := ∃ k, stop (next^[k] a) = true

/-- No node is met twice in front of the end. -/
def Acyclic (next : α → α) (stop : α → Bool) (a : α) : Prop :=
  ∀ i j, i < j → (∀ m ≤ j, stop (next^[m] a) = false) → next^[i] a ≠ next^[j] a

/-- A chain with an end has a first node at which it stops. -/
theorem Ends.exists_first (h : Ends next stop a) :
    ∃ k, stop (next^[k] a) = true ∧ ∀ m < k, stop (next^[m] a) = false := by
  classical
  refine ⟨Nat.find h, Nat.find_spec h, fun m hm => ?_⟩
  exact Bool.eq_false_iff.mpr (Nat.find_min h hm)

/-- A chain that comes to an end meets no node twice. -/
theorem Ends.acyclic (h : Ends next stop a) : Acyclic next stop a := by
  obtain ⟨k, hstop, hfirst⟩ := h.exists_first
  intro i j hij hgo heq
  have hjk : j < k := by
    by_contra hle
    rw [hgo k (by omega)] at hstop
    cases hstop
  have hback : next^[k] a = next^[k - j + i] a := by
    calc next^[k] a = next^[k - j + j] a := by rw [Nat.sub_add_cancel hjk.le]
      _ = next^[k - j] (next^[j] a) := Function.iterate_add_apply next (k - j) j a
      _ = next^[k - j] (next^[i] a) := by rw [heq]
      _ = next^[k - j + i] a := (Function.iterate_add_apply next (k - j) i a).symm
  rw [hback, hfirst (k - j + i) (by omega)] at hstop
  cases hstop

/-- Over finitely many nodes a chain that meets no node twice comes to an end. -/
theorem Acyclic.ends [Finite α] (h : Acyclic next stop a) : Ends next stop a := by
  by_contra hnever
  have hgo (m : ℕ) : stop (next^[m] a) = false :=
    Bool.eq_false_iff.mpr fun hstop => hnever ⟨m, hstop⟩
  refine not_injective_infinite_finite (fun k => next^[k] a) fun i j heq => ?_
  rcases Nat.lt_trichotomy i j with hlt | rfl | hgt
  · exact absurd heq (h i j hlt fun m _ => hgo m)
  · rfl
  · exact absurd heq.symm (h j i hgt fun m _ => hgo m)

/-- Over finitely many nodes the chains with an end are those that meet no node twice. -/
theorem ends_iff_acyclic [Finite α] : Ends next stop a ↔ Acyclic next stop a :=
  ⟨Ends.acyclic, Acyclic.ends⟩

/-- Search along a chain: leave at the first node that has a result. -/
def chase (next : α → α) (leave : α → Option ρ) (unfinished : ε) : ℕ → α → Except ε ρ :=
  loop (fun a => .ok (match leave a with
    | some r => .inr r
    | none => .inl (next a))) unfinished

/-- A search returns the result of the first node that has one. -/
theorem chase_eq_ok {leave : α → Option ρ} {unfinished : ε} {n : ℕ} {r : ρ} :
    chase next leave unfinished n a = .ok r ↔
      ∃ k < n, leave (next^[k] a) = some r ∧ ∀ m < k, leave (next^[m] a) = none := by
  induction n generalizing a with
  | zero => simp [chase, loop]
  | succ n ih =>
    rw [chase, loop_succ_eq_ok]
    cases hleave : leave a with
    | some r' =>
      constructor
      · rintro (hr | ⟨_, hr, -⟩)
        · simp only [Except.ok.injEq, Sum.inr.injEq] at hr
          exact ⟨0, Nat.succ_pos n, by rw [Function.iterate_zero_apply, hleave, hr], by omega⟩
        · simp at hr
      · rintro ⟨k, -, hr, hbefore⟩
        rcases Nat.eq_zero_or_pos k with rfl | hk
        · rw [Function.iterate_zero_apply, hleave] at hr
          exact .inl (by rw [Option.some.inj hr])
        · simpa [hleave] using hbefore 0 hk
    | none =>
      constructor
      · rintro (hr | ⟨_, hs, hr⟩)
        · simp at hr
        · simp only [Except.ok.injEq, Sum.inl.injEq] at hs
          subst hs
          obtain ⟨k, hk, hr, hbefore⟩ := ih.mp hr
          refine ⟨k + 1, by omega, hr, fun m hm => ?_⟩
          cases m with
          | zero => exact hleave
          | succ m => exact hbefore m (by omega)
      · rintro ⟨k, hk, hr, hbefore⟩
        cases k with
        | zero =>
          rw [Function.iterate_zero_apply, hleave] at hr
          cases hr
        | succ k =>
          refine .inr ⟨next a, rfl, ih.mpr ⟨k, by omega, hr, fun m hm => ?_⟩⟩
          exact hbefore (m + 1) (by omega)

/-- A larger bound does not change what a search returns. -/
theorem chase_mono {leave : α → Option ρ} {unfinished : ε} {n n' : ℕ} {r : ρ}
    (h : chase next leave unfinished n a = .ok r) (hn : n ≤ n') :
    chase next leave unfinished n' a = .ok r := by
  obtain ⟨k, hk, hleave⟩ := chase_eq_ok.mp h
  exact chase_eq_ok.mpr ⟨k, by omega, hleave⟩

/-- A search returns, for some bound, exactly if the chain meets a node with a result. -/
theorem exists_chase_iff (leave : α → Option ρ) (unfinished : ε) :
    (∃ n r, chase next leave unfinished n a = .ok r) ↔ Ends next (fun b => (leave b).isSome) a := by
  constructor
  · rintro ⟨n, r, h⟩
    obtain ⟨k, -, hr, -⟩ := chase_eq_ok.mp h
    exact ⟨k, by simp [hr]⟩
  · intro h
    obtain ⟨k, hstop, hfirst⟩ := h.exists_first
    obtain ⟨r, hr⟩ := Option.isSome_iff_exists.mp hstop
    exact ⟨k + 1, r, chase_eq_ok.mpr ⟨k, Nat.lt_succ_self k, hr, fun m hm => by
      simpa using hfirst m hm⟩⟩

/-- A search never leaves a node without a result that links to itself. -/
theorem chase_of_fixed {leave : α → Option ρ} (unfinished : ε) (hnext : next a = a)
    (hleave : leave a = none) (n : ℕ) : chase next leave unfinished n a = .error unfinished := by
  induction n with
  | zero => rfl
  | succ n ih =>
    rw [chase, loop, ok_bind, hleave]
    dsimp only
    rw [hnext]
    exact ih

/-- A walk never leaves a node that links to itself, unless it stops there. -/
theorem collect_of_fixed (unfinished : ε) (hnext : next a = a) (hstop : stop a = false) (n : ℕ) :
    collect stop (fun b => .ok (next b)) unfinished n a = .error unfinished := by
  induction n with
  | zero => rfl
  | succ n ih => rw [collect, hstop, if_neg (by decide), ok_bind, hnext, ih, error_bind]

/-- A walk along a chain collects the nodes in front of the first one at which it stops. -/
theorem collect_chain_eq_ok {unfinished : ε} {n : ℕ} {l : List α} :
    collect stop (fun b => .ok (next b)) unfinished n a = .ok l ↔
      ∃ k < n, stop (next^[k] a) = true ∧ (∀ m < k, stop (next^[m] a) = false) ∧
        l = positions next k a := by
  induction n generalizing a l with
  | zero => simp [collect]
  | succ n ih =>
    rw [collect]
    cases hstop : stop a with
    | true =>
      rw [if_pos rfl]
      constructor
      · intro h
        exact ⟨0, Nat.succ_pos n, hstop, by omega, (Except.ok.inj h).symm⟩
      · rintro ⟨k, -, -, hbefore, rfl⟩
        rcases Nat.eq_zero_or_pos k with rfl | hk
        · rfl
        · simpa [hstop] using hbefore 0 hk
    | false =>
      rw [if_neg (by decide), ok_bind, bind_eq_ok]
      constructor
      · rintro ⟨rest, hrest, h⟩
        obtain ⟨k, hk, hend, hbefore, rfl⟩ := ih.mp hrest
        refine ⟨k + 1, by omega, hend, fun m hm => ?_, (Except.ok.inj h).symm⟩
        cases m with
        | zero => exact hstop
        | succ m => exact hbefore m (by omega)
      · rintro ⟨k, hk, hend, hbefore, rfl⟩
        cases k with
        | zero =>
          rw [Function.iterate_zero_apply, hstop] at hend
          cases hend
        | succ k =>
          have hrest : ∀ m < k, stop (next^[m] (next a)) = false := fun m hm =>
            hbefore (m + 1) (by omega)
          exact ⟨_, ih.mpr ⟨k, by omega, hend, hrest, rfl⟩, rfl⟩

/-- A walk returns, for some bound, exactly if the chain comes to an end. -/
theorem exists_collect_iff (unfinished : ε) :
    (∃ n l, collect stop (fun b => .ok (next b)) unfinished n a = .ok l) ↔ Ends next stop a := by
  constructor
  · rintro ⟨n, l, h⟩
    obtain ⟨k, -, hend, -⟩ := collect_chain_eq_ok.mp h
    exact ⟨k, hend⟩
  · intro h
    obtain ⟨k, hend, hbefore⟩ := h.exists_first
    exact ⟨k + 1, _, collect_chain_eq_ok.mpr ⟨k, Nat.lt_succ_self k, hend, hbefore, rfl⟩⟩

end Toyos.Core
