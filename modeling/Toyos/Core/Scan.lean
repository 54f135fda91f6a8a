import Toyos.Core.Loop
import Mathlib.Data.List.Basic

/-!
# Scans with a skipping iterator

An iterator moves from position to position; advancing it passes over the
positions that are not wanted, and a walk collects every position it stops at.
The walk over a finite stretch of positions collects its first position, wanted
or not, and then exactly the wanted ones.
-/

namespace Toyos.Core

universe u v

variable {ε : Type u} {σ : Type v}

/-- Move once, and then again for as long as the condition holds. -/
def skip (next : σ → σ) (go : σ → Bool) (unfinished : ε) : ℕ → σ → Except ε σ :=
  loop (fun s => .ok (if go (next s) then .inl (next s) else .inr (next s))) unfinished

/-- Collect the positions from the given one on until the walk is done. -/
def collect (done : σ → Bool) (advance : σ → Except ε σ) (unfinished : ε) :
    ℕ → σ → Except ε (List σ)
  | 0, _ => .error unfinished
  | n + 1, s =>
    if done s then .ok [] else do
      let s' ← advance s
      let rest ← collect done advance unfinished n s'
      return s :: rest

/-- The first position from the given one on that meets the condition, unless the walk is done
before. -/
def findIf (done : σ → Bool) (advance : σ → Except ε σ) (p : σ → Bool) (unfinished : ε) :
    ℕ → σ → Except ε (Option σ)
  | 0, _ => .error unfinished
  | n + 1, s =>
    if done s then .ok none
    else if p s then .ok (some s)
    else do
      let s' ← advance s
      findIf done advance p unfinished n s'

/-- The next positions, beginning with the given one. -/
def positions (next : σ → σ) : ℕ → σ → List σ
  | 0, _ => []
  | n + 1, s => s :: positions next n (next s)

/-- A stretch of positions at whose end the walk is done; on the way the skipping condition
holds at exactly the unwanted positions. -/
def Ahead (next : σ → σ) (done go keep : σ → Bool) : ℕ → σ → Prop
  | 0, s => done s = true ∧ go s = false
  | n + 1, s => done s = false ∧ go s = !keep s ∧ Ahead next done go keep n (next s)

section Walk

variable {next : σ → σ} {done go keep : σ → Bool} {unfinished : ε} {bound : ℕ}

theorem skip_succ (s : σ) : skip next go unfinished (bound + 1) s =
    if go (next s) then skip next go unfinished bound (next s) else .ok (next s) := by
  rw [skip, loop]
  by_cases h : go (next s) = true
  · simp [h]
  · simp [h]

/-- Along a walk that comes to an end, the first position that meets the condition is found among
the collected ones. -/
theorem findIf_of_collect {advance : σ → Except ε σ} {p : σ → Bool} {n : ℕ} {s : σ} {l : List σ}
    (h : collect done advance unfinished n s = .ok l) :
    findIf done advance p unfinished n s = .ok (l.find? p) := by
  induction n generalizing s l with
  | zero => cases h
  | succ n ih =>
    rw [collect] at h
    rw [findIf]
    by_cases hdone : done s = true
    · rw [if_pos hdone] at h ⊢
      cases h
      rfl
    · rw [if_neg hdone] at h ⊢
      obtain ⟨s', hs', hrest⟩ := bind_eq_ok.mp h
      obtain ⟨rest, hwalk, hl⟩ := bind_eq_ok.mp hrest
      cases hl
      by_cases hp : p s = true
      · rw [if_pos hp, List.find?_cons_of_pos hp]
      · rw [if_neg hp, List.find?_cons_of_neg hp, hs', ok_bind, ih hwalk]

/-- Positions read off an indexed sequence. -/
theorem positions_eq_map {f : ℕ → σ} (hf : ∀ i, next (f i) = f (i + 1)) (n i : ℕ) :
    positions next n (f i) = (List.range' i n).map f := by
  induction n generalizing i with
  | zero => rfl
  | succ n ih => rw [positions, hf, ih, List.range'_succ, List.map_cons]

/-- A stretch of an indexed sequence. -/
theorem Ahead.of_index {f : ℕ → σ} (hf : ∀ i, next (f i) = f (i + 1)) {stop : ℕ}
    (hdone : ∀ i, i ≤ stop → (done (f i) = true ↔ i = stop))
    (hgo : ∀ i, i ≤ stop → go (f i) = (!done (f i) && !keep (f i))) {n i : ℕ}
    (hi : i + n = stop) : Ahead next done go keep n (f i) := by
  induction n generalizing i with
  | zero =>
    have hend : done (f i) = true := (hdone i (by omega)).mpr (by omega)
    exact ⟨hend, by rw [hgo i (by omega), hend]; rfl⟩
  | succ n ih =>
    have hmid : done (f i) = false :=
      Bool.eq_false_iff.mpr (mt (hdone i (by omega)).mp (by omega))
    refine ⟨hmid, by rw [hgo i (by omega), hmid]; rfl, ?_⟩
    rw [hf]
    exact ih (by omega)

/-- Advancing stops at the next wanted position or at the end of the stretch, and passes over
no wanted position. -/
theorem Ahead.skip (unfinished : ε) {n : ℕ} {s : σ} (h : Ahead next done go keep n (next s))
    (hn : n < bound) : ∃ m s', skip next go unfinished bound s = .ok s' ∧ m ≤ n ∧
      Ahead next done go keep m s' ∧ (m = 0 ∨ keep s' = true) ∧
      (positions next n (next s)).filter keep = (positions next m s').filter keep := by
  induction bound generalizing n s with
  | zero => omega
  | succ bound ih =>
    rw [skip_succ]
    cases n with
    | zero => exact ⟨0, next s, by rw [h.2]; rfl, Nat.le_refl _, h, .inl rfl, rfl⟩
    | succ n =>
      have hgo : go (next s) = !keep (next s) := h.2.1
      by_cases hkeep : keep (next s) = true
      · exact ⟨n + 1, next s, by rw [hgo, hkeep]; rfl, Nat.le_refl _, h, .inr hkeep, rfl⟩
      · obtain ⟨m, s', hskip, hm, hahead, hstop, heq⟩ := ih h.2.2 (by omega)
        refine ⟨m, s', ?_, by omega, hahead, hstop, ?_⟩
        · rw [if_pos (by rw [hgo]; simpa using hkeep), hskip]
        · rw [positions, List.filter_cons_of_neg hkeep, heq]

/-- The walk from the beginning of a stretch collects its first position and all wanted ones
behind it. -/
theorem Ahead.collect_cons (unfinished : ε) (bound limit : ℕ) {n : ℕ} {s : σ}
    (h : Ahead next done go keep (n + 1) s) (hn : n < bound) (hlimit : n + 1 < limit) :
    collect done (Core.skip next go unfinished bound) unfinished limit s =
      .ok (s :: (positions next n (next s)).filter keep) := by
  induction limit generalizing n s with
  | zero => omega
  | succ limit ih =>
    obtain ⟨m, s', hskip, hm, hahead, hstop, heq⟩ := h.2.2.skip unfinished hn
    have hrest : collect done (Core.skip next go unfinished bound) unfinished limit s' =
        .ok ((positions next m s').filter keep) := by
      cases m with
      | zero =>
        obtain ⟨limit, rfl⟩ : ∃ k, limit = k + 1 := ⟨limit - 1, by omega⟩
        rw [collect, if_pos hahead.1]
        rfl
      | succ m =>
        have hkeep : keep s' = true := hstop.resolve_left (by omega)
        rw [ih hahead (by omega) (by omega), positions, List.filter_cons_of_pos hkeep]
    rw [collect, if_neg (by rw [h.1]; decide), hskip, ok_bind, hrest, heq]
    rfl

end Walk

end Toyos.Core
