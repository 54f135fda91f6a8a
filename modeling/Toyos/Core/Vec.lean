import Toyos.Core.Loop
import Mathlib.Data.Int.Notation
import Mathlib.Data.List.InsertIdx

/-!
# Vectors with checked iterators

A vector is a list and an iterator into it is an integer offset from its begin,
so that positions outside the vector can be formed but not used: every access
through an iterator outside the vector stops at the given check. The equations
describe each operation at a split of the vector. Binary search is the loop of
the standard library; on a partitioned vector it finds the partition point. The
search for a sequence is given by what it returns.
-/

namespace Toyos.Core.Vec

universe u

variable {ε : Type u} {α : Type} (fault : ε)

/-- The element an iterator points to. -/
def deref (l : List α) (i : ℤ) : Except ε α :=
  if 0 ≤ i then
    match l[i.toNat]? with
    | some x => .ok x
    | none => .error fault
  else .error fault

/-- Change the element an iterator points to. -/
def modify (l : List α) (i : ℤ) (f : α → α) : Except ε (List α) := do
  let x ← deref fault l i
  return l.set i.toNat (f x)

/-- Insert an element before an iterator; the result points to the new element. -/
def insert (l : List α) (i : ℤ) (x : α) : Except ε (List α × ℤ) :=
  if 0 ≤ i ∧ i ≤ l.length then .ok (l.insertIdx i.toNat x, i) else .error fault

/-- Erase the element an iterator points to; the result points behind it. -/
def erase (l : List α) (i : ℤ) : Except ε (List α × ℤ) := do
  let _ ← deref fault l i
  return (l.eraseIdx i.toNat, i)

/-- Erase the elements from one iterator up to another; the result points behind them. -/
def eraseRange (l : List α) (i j : ℤ) : Except ε (List α × ℤ) :=
  if 0 ≤ i ∧ i ≤ j ∧ j ≤ l.length then .ok (l.take i.toNat ++ l.drop j.toNat, i)
  else .error fault

variable {before mid after : List α} {x y : α} {i j : ℤ}

theorem deref_natCast {l : List α} {n : ℕ} (h : n < l.length) :
    deref fault l (n : ℤ) = .ok l[n] := by
  rw [deref, if_pos (Int.natCast_nonneg n), Int.toNat_natCast, List.getElem?_eq_getElem h]

theorem deref_append (hi : i = before.length) :
    deref fault (before ++ x :: after) i = .ok x := by
  subst hi
  simp [deref]

theorem modify_append (hi : i = before.length) (f : α → α) (x : α) (after : List α) :
    modify fault (before ++ x :: after) i f = .ok (before ++ f x :: after) := by
  rw [modify, deref_append fault hi]
  subst hi
  simp

theorem insert_append (hi : i = before.length) (x : α) (after : List α) :
    insert fault (before ++ after) i x = .ok (before ++ x :: after, i) := by
  subst hi
  have hinsert : (before ++ after).insertIdx before.length x = before ++ x :: after := by
    induction before with
    | nil => simp
    | cons y ys ih => simpa using ih
  rw [insert, if_pos ⟨by omega, by simp only [List.length_append]; omega⟩]
  simp [hinsert]

theorem erase_append (hi : i = before.length) (x : α) (after : List α) :
    erase fault (before ++ x :: after) i = .ok (before ++ after, i) := by
  rw [erase, deref_append fault hi]
  subst hi
  simp [List.eraseIdx_append_of_length_le]

theorem eraseRange_append (hi : i = before.length) (hj : j = before.length + mid.length)
    (after : List α) :
    eraseRange fault (before ++ (mid ++ after)) i j = .ok (before ++ after, i) := by
  subst hi
  subst hj
  have hlen : ((before.length : ℤ) + mid.length).toNat = before.length + mid.length := by omega
  simp only [eraseRange, List.length_append, hlen]
  rw [if_pos (by omega)]
  simp [List.drop_append]

/-- One round of binary search: the position of the remaining range and its length. -/
def searchRound (less : α → Bool) (l : List α) (state : ℕ × ℕ) :
    Except ε ((ℕ × ℕ) ⊕ ℕ) := do
  let (first, len) := state
  if len = 0 then return .inr first
  else
    let half := len / 2
    if less (← deref fault l (first + half : ℕ)) then
      return .inl (first + half + 1, len - (half + 1))
    else return .inl (first, half)

/-- Binary search for the first element for which `less` does not hold. -/
def search (less : α → Bool) (l : List α) : Except ε ℕ :=
  loop (searchRound fault less l) fault (l.length + 1) (0, l.length)

/-- A round at an element that is less continues behind it, any other round before it. -/
theorem searchRound_of_lt {less : α → Bool} {l : List α} {first len : ℕ} (hlen : len ≠ 0)
    (h : first + len / 2 < l.length) :
    searchRound fault less l (first, len) = .ok (.inl
      (if less l[first + len / 2] then (first + len / 2 + 1, len - (len / 2 + 1))
        else (first, len / 2))) := by
  simp only [searchRound, hlen, if_false, deref_natCast fault h, ok_bind]
  split <;> rfl

/-- On a vector that is partitioned by `less`, binary search finds the partition point. -/
theorem search_append {less : α → Bool} (hbefore : ∀ x ∈ before, less x = true)
    (hafter : ∀ x ∈ after, less x = false) :
    search fault less (before ++ after) = .ok before.length := by
  obtain ⟨r, hr, rfl⟩ : ∃ r, search fault less (before ++ after) = .ok r ∧ r = before.length := by
    apply loop_spec
      (fun s : ℕ × ℕ => s.1 ≤ before.length ∧ before.length ≤ s.1 + s.2 ∧
        s.1 + s.2 ≤ (before ++ after).length) _ (fun s => s.2)
    · rintro ⟨first, len⟩ ⟨hle, hge, hin⟩
      simp only at hle hge hin
      by_cases hlen : len = 0
      · exact Or.inl ⟨first, by simp [searchRound, hlen], by omega⟩
      · have hlt : first + len / 2 < (before ++ after).length := by omega
        refine Or.inr ⟨_, searchRound_of_lt fault hlen hlt, ?_⟩
        by_cases hside : first + len / 2 < before.length
        · have hless : less (before ++ after)[first + len / 2] = true := by
            rw [List.getElem_append_left hside]
            exact hbefore _ (List.getElem_mem hside)
          simp only [hless, if_true]
          omega
        · have hless : less (before ++ after)[first + len / 2] = false := by
            rw [List.getElem_append_right (by omega)]
            exact hafter _ (List.getElem_mem _)
          simp only [hless, Bool.false_eq_true, if_false]
          omega
    · simp
    · simp
  exact hr

/-- `std::search`: where a sequence first stands in the range from `first` to `last`, or `last`.
The whole range counts as read. -/
def searchSeq [DecidableEq α] (l : List α) (first last : ℕ) (seq : List α) : Except ε ℕ := do
  ensure (first ≤ last ∧ last ≤ l.length) fault
  return ((List.range' first (last - first)).find? fun i =>
    decide (seq <+: (l.drop i).take (last - i))).getD last

/-- The search finds the first place at which the sequence fits into the range. -/
theorem searchSeq_spec [DecidableEq α] {l seq : List α} {first last : ℕ} (hseq : seq ≠ [])
    (hrange : first ≤ last ∧ last ≤ l.length) :
    (∃ i, searchSeq fault l first last seq = .ok i ∧ first ≤ i ∧ i + seq.length ≤ last ∧
      seq <+: l.drop i ∧ ∀ j, first ≤ j → j < i → ¬seq <+: l.drop j) ∨
    (searchSeq fault l first last seq = .ok last ∧
      ∀ j, first ≤ j → j + seq.length ≤ last → ¬seq <+: l.drop j) := by
  have hpos := List.length_pos_iff.mpr hseq
  rw [searchSeq, ensure_of _ hrange, ok_bind]
  cases hfind : (List.range' first (last - first)).find? fun i =>
      decide (seq <+: (l.drop i).take (last - i)) with
  | none =>
    refine .inr ⟨rfl, fun j hle hfit hstands => ?_⟩
    rw [List.find?_range'_eq_none] at hfind
    have hnot := hfind j hle (by omega)
    rw [Bool.not_eq_true', decide_eq_false_iff_not, List.prefix_take_iff] at hnot
    exact hnot ⟨hstands, by omega⟩
  | some i =>
    rw [List.find?_range'_eq_some] at hfind
    obtain ⟨hi, hmem, hbefore⟩ := hfind
    obtain ⟨hle, hlt⟩ := List.mem_range'_1.mp hmem
    obtain ⟨hstands, hfit⟩ := List.prefix_take_iff.mp (of_decide_eq_true hi)
    refine .inl ⟨i, rfl, hle, by omega, hstands, fun j hj hlt hbad => ?_⟩
    have hnot := hbefore j hj hlt
    rw [Bool.not_eq_true', decide_eq_false_iff_not, List.prefix_take_iff] at hnot
    exact hnot ⟨hbad, by omega⟩

end Toyos.Core.Vec
