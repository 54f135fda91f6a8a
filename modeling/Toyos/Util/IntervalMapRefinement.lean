import Toyos.Core.Steps
import Toyos.Util.IntervalMap

/-!
# The interval map refines piecewise constant maps

The vector is a reduced listing of a piecewise constant map from key zero on.
All cases of `insert` compute one operation on listings: the part before the
interval and the resumed part behind it are fused around the new value. None of
them uses an iterator outside the vector.
-/

namespace Toyos.Util.IntervalVector

open Toyos.Core Toyos.Core.Steps

variable {V : Type} {before mid after init : List (ℕ × V)} {x y : ℕ × V} {a b k p : ℕ}
  {i lba lbb : ℤ}

theorem lowerBound_append (hbefore : ∀ e ∈ before, e.1 < p) (hafter : ∀ e ∈ after, p ≤ e.1) :
    lowerBound (before ++ after) p = .ok (before.length : ℤ) := by
  rw [lowerBound, Vec.search_append]
  · rfl
  · simpa using hbefore
  · simpa using hafter

/-- Both searches of `insert` find the cut of the listing. -/
theorem lowerBound_cut {l : List (ℕ × V)} (hc : Cut l a b before mid after) (hab : a < b) :
    lowerBound l a = .ok (before.length : ℤ) ∧
      lowerBound l b = .ok ((before ++ mid).length : ℤ) := by
  constructor
  · rw [hc.eq]
    apply lowerBound_append hc.before_lt
    intro e he
    rcases List.mem_append.mp he with he | he
    · exact hc.mid_ge e he
    · exact hab.le.trans (hc.after_ge e he)
  · rw [hc.eq, ← List.append_assoc]
    refine lowerBound_append (fun e he => ?_) hc.after_ge
    rcases List.mem_append.mp he with he | he
    · exact (hc.before_lt e he).trans hab
    · exact hc.mid_lt e he

theorem upperBound_append (hbefore : ∀ e ∈ before, e.1 ≤ p) (hafter : ∀ e ∈ after, p < e.1) :
    upperBound (before ++ after) p = .ok (before.length : ℤ) := by
  rw [upperBound, Vec.search_append]
  · rfl
  · simpa using hbefore
  · simpa using hafter

/-- The entry before the interval, where no key lies inside it. -/
private theorem deref_left (hi : i = before.length) (hleft : before = init ++ [x])
    (after : List (ℕ × V)) :
    i ≠ 0 ∧ Vec.deref IntervalFault.badIterator (before ++ after) (i - 1) = .ok x := by
  subst hleft
  simp only [List.length_append, List.length_singleton, Nat.cast_add, Nat.cast_one] at hi
  refine ⟨by omega, ?_⟩
  rw [List.append_assoc, List.singleton_append, Vec.deref_append _ (by omega)]

/-- The vector is a reduced listing from key zero on, with keys below the last one. -/
structure WellFormed (s : IntervalVector V) : Prop where
  /-- Keys increase and neighbours have different values. -/
  reduced : Reduced s.m
  /-- The first key is zero. -/
  head : ∃ v rest, s.m = (0, v) :: rest
  /-- Keys are below the last one. -/
  keys : ∀ e ∈ s.m, e.1 < ivalLast

/-- A part that the first key does not lie behind has a last entry. -/
theorem WellFormed.exists_concat {s : IntervalVector V} (h : s.WellFormed)
    (heq : s.m = before ++ after) (hafter : ∀ e ∈ after, 0 < e.1) :
    ∃ init x, before = init ++ [x] := by
  rcases List.eq_nil_or_concat' before with hnil | hconcat
  · obtain ⟨w, rest, hhead⟩ := h.head
    have hmem : (0, w) ∈ after := by
      rw [hnil, List.nil_append] at heq
      simp [← heq, hhead]
    exact absurd (hafter _ hmem) (Nat.lt_irrefl 0)
  · exact hconcat

/-- `find` returns the entry at which the vector splits around the point. -/
theorem find_at {s : IntervalVector V} (heq : s.m = before ++ x :: after)
    (hbefore : ∀ e ∈ before, e.1 ≤ p) (hx : x.1 ≤ p) (hafter : ∀ e ∈ after, p < e.1) :
    upperBound s.m p = .ok ((before.length : ℤ) + 1) ∧
      s.find p = .ok (some (⟨x.1, (after.head?.map Prod.fst).getD ivalLast⟩, x.2)) := by
  have hsplit : s.m = (before ++ [x]) ++ after := by simpa using heq
  have hupper : upperBound s.m p = .ok ((before.length : ℤ) + 1) := by
    have hfront : ∀ e ∈ before ++ [x], e.1 ≤ p :=
      List.forall_mem_append.mpr ⟨hbefore, List.forall_mem_singleton.mpr hx⟩
    rw [hsplit, upperBound_append hfront hafter]
    simp
  have hderef : Vec.deref IntervalFault.badIterator s.m ((before.length : ℤ) + 1 - 1) =
      .ok x := by
    rw [heq, Vec.deref_append _ (by omega)]
  refine ⟨hupper, ?_⟩
  cases after with
  | nil =>
    have hend : (before.length : ℤ) + 1 = s.m.length := by simp [heq]
    simp only [find, hupper, ok_bind, if_pos hend, pure_eq_ok, hderef]
    rfl
  | cons y ys =>
    have hend : (before.length : ℤ) + 1 ≠ s.m.length := by
      simp only [heq, List.length_append, List.length_cons]
      omega
    have hnext : Vec.deref IntervalFault.badIterator s.m ((before.length : ℤ) + 1) = .ok y := by
      rw [hsplit, Vec.deref_append _ (by simp)]
    simp only [find, hupper, ok_bind, if_neg hend, hnext, pure_eq_ok, hderef]
    rfl

/-- Every point lies between an entry and the next one, and `find` returns them. -/
theorem WellFormed.find_eq {s : IntervalVector V} (h : s.WellFormed) (p : ℕ) :
    ∃ before x after, s.m = before ++ x :: after ∧ x.1 ≤ p ∧ (∀ e ∈ after, p < e.1) ∧
      upperBound s.m p = .ok ((before.length : ℤ) + 1) ∧
      s.find p = .ok (some (⟨x.1, (after.head?.map Prod.fst).getD ivalLast⟩, x.2)) := by
  obtain ⟨front, after, heq, hfront, hafter⟩ := exists_split h.reduced.sorted (p + 1)
  obtain ⟨before, x, rfl⟩ := h.exists_concat heq fun e he => Nat.zero_lt_of_lt (hafter e he)
  have heq : s.m = before ++ x :: after := by simpa using heq
  have hx : x.1 ≤ p := Nat.lt_succ_iff.mp (hfront x (by simp))
  have hbefore : ∀ e ∈ before, e.1 ≤ p := fun e he => Nat.lt_succ_iff.mp (hfront e (by simp [he]))
  exact ⟨before, x, after, heq, hx, hafter, find_at heq hbefore hx hafter⟩

variable [DecidableEq V] {v : V} {ival : Interval}

/-- Joining with the successor drops it when it repeats the value. -/
theorem mergePost_append (hi : i = before.length) :
    mergePost (before ++ (k, v) :: after) i = .ok (before ++ (k, v) :: dropRepeated v after) := by
  cases after with
  | nil =>
    have hpost : i + 1 = (before ++ [(k, v)]).length := by simp [hi]
    rw [mergePost, if_pos hpost]
    rfl
  | cons y ys =>
    have hpost : i + 1 ≠ (before ++ (k, v) :: y :: ys).length := by
      simp only [hi, List.length_append, List.length_cons]
      omega
    have hsplit : before ++ (k, v) :: y :: ys = (before ++ [(k, v)]) ++ y :: ys := by simp
    have hnext : i + 1 = (before ++ [(k, v)]).length := by simp [hi]
    rw [mergePost, if_neg hpost, Vec.deref_append _ hi, ok_bind, hsplit,
      Vec.deref_append _ hnext, ok_bind]
    by_cases hy : y.2 = v
    · rw [if_pos hy.symm, Vec.erase_append _ hnext, dropRepeated_of_eq hy]
      simp
    · rw [if_neg (Ne.symm hy), dropRepeated_of_ne hy]
      simp

/-- Joining with the predecessor ends the listing before it with the value. -/
theorem mergePrev_append (a : ℕ) (v : V) (after : List (ℕ × V)) (hi : i = before.length) :
    ∃ init k, closeOff before a v = init ++ [(k, v)] ∧
      mergePrev (before ++ (a, v) :: after) i =
        .ok (init ++ (k, v) :: after, (init.length : ℤ)) := by
  rcases List.eq_nil_or_concat' before with hnil | ⟨init, x, rfl⟩
  · subst hnil
    refine ⟨[], a, by simp [closeOff], ?_⟩
    rw [mergePrev, if_pos (by simpa using hi), hi]
    rfl
  · have hne : i ≠ 0 := by
      simp only [hi, List.length_append, List.length_singleton]
      omega
    have hprev : i - 1 = init.length := by simp [hi]
    have hsplit (c : ℕ × V) : (init ++ [x]) ++ c :: after = init ++ x :: c :: after := by simp
    by_cases hx : x.2 = v
    · refine ⟨init, x.1, by simp [closeOff, ← hx], ?_⟩
      rw [mergePrev, if_neg hne, Vec.deref_append _ hi, ok_bind, hsplit,
        Vec.deref_append _ hprev, ok_bind, if_pos hx.symm, ← hsplit, Vec.modify_append _ hi,
        ok_bind, hsplit, Vec.erase_append _ hprev, hprev]
    · refine ⟨init ++ [x], a, by simp [closeOff, hx], ?_⟩
      rw [mergePrev, if_neg hne, Vec.deref_append _ hi, ok_bind, hsplit,
        Vec.deref_append _ hprev, ok_bind, if_neg (Ne.symm hx), ← hsplit, hi]
      rfl

/-- `merge` fuses the entries around the new one. -/
theorem merge_append (hi : i = before.length) :
    merge (before ++ (a, v) :: after) i = .ok (fuse before a v after) := by
  obtain ⟨init, k, hclose, hprev⟩ := mergePrev_append a v after hi
  have hend : i ≠ (before ++ (a, v) :: after).length := by
    simp only [hi, List.length_append, List.length_cons]
    omega
  simp only [merge, if_neg hend, hprev, ok_bind, mergePost_append, fuse, hclose]
  simp

/-- A new value with the end of the interval between two keys takes two entries. -/
private theorem insertInside_separate (hi : i = before.length) (hleft : before = init ++ [x])
    (hv : v ≠ x.2) (hlast : ival.b ≠ ivalLast) (hsep : ∀ y ∈ after.head?, ival.b ≠ y.1) :
    insertInside (before ++ after) i i ival v =
      .ok (before ++ (ival.a, v) :: (ival.b, x.2) :: after) := by
  obtain ⟨hfirst, hx⟩ := deref_left hi hleft after
  have htwo : Vec.insert IntervalFault.badIterator (before ++ (ival.a, v) :: after) (i + 1)
      (ival.b, x.2) = .ok (before ++ (ival.a, v) :: (ival.b, x.2) :: after, i + 1) := by
    have hsplit (l : List (ℕ × V)) : before ++ (ival.a, v) :: l = before ++ [(ival.a, v)] ++ l := by
      simp
    rw [hsplit after, Vec.insert_append _ (by simp [hi]), ← hsplit]
  have hone := Vec.insert_append IntervalFault.badIterator hi (ival.a, v) after
  simp only [insertInside, ensure_of _ hfirst, hx, ok_bind, if_neg hv, if_neg hlast]
  cases after with
  | nil =>
    have hend : i = (before ++ ([] : List (ℕ × V))).length := by simp [hi]
    simp only [if_pos hend, pure_eq_ok, ok_bind, if_true, hone, htwo]
  | cons y ys =>
    have hend : i ≠ (before ++ y :: ys).length := by
      simp only [hi, List.length_append, List.length_cons]
      omega
    have hne : decide (ival.b ≠ y.1) = true := decide_eq_true (hsep y (by simp))
    simp only [if_neg hend, Vec.deref_append _ hi, pure_eq_ok, ok_bind, hne, if_true, hone, htwo]

/-- A new value with the end of the interval at a key is merged with the entry there. -/
private theorem insertInside_exact (hi : i = before.length) (hleft : before = init ++ [x])
    (hv : v ≠ x.2) (hlast : ival.b ≠ ivalLast) (hy : ival.b = y.1) :
    insertInside (before ++ y :: after) i i ival v = .ok (fuse before ival.a v (y :: after)) := by
  obtain ⟨hfirst, hx⟩ := deref_left hi hleft (y :: after)
  have hend : i ≠ (before ++ y :: after).length := by
    simp only [hi, List.length_append, List.length_cons]
    omega
  have hone := Vec.insert_append IntervalFault.badIterator hi (ival.a, v) (y :: after)
  have heq : decide (ival.b ≠ y.1) = false := decide_eq_false (not_not.mpr hy)
  simp only [insertInside, ensure_of _ hfirst, hx, ok_bind, if_neg hv, if_neg hlast, if_neg hend,
    Vec.deref_append _ hi, heq, pure_eq_ok, Bool.false_eq_true, if_false, hone, merge_append hi]

/-- Without a key inside the interval, the entry before it decides how to go on. -/
theorem insertInside_append (hi : i = before.length) (hleft : before = init ++ [x])
    (hkeys : ∀ e ∈ after, ival.b ≤ e.1 ∧ e.1 < ivalLast) (hdiff : ∀ y ∈ after.head?, x.2 ≠ y.2) :
    insertInside (before ++ after) i i ival v =
      .ok (fuse before ival.a v (resume ivalLast ival.b x.2 after)) := by
  obtain ⟨hfirst, hx⟩ := deref_left hi hleft after
  by_cases hv : v = x.2
  · have hclose : closeOff before ival.a v = before := by simp [closeOff, hleft, hv]
    have hdrop : dropRepeated v (resume ivalLast ival.b x.2 after) = after := by
      rw [hv]
      exact dropRepeated_resume hkeys hdiff
    simp only [insertInside, ensure_of _ hfirst, ok_bind, hx, if_pos hv, pure_eq_ok, fuse, hclose,
      hdrop]
  · have hclose : closeOff before ival.a v = before ++ [(ival.a, v)] := by
      simp [closeOff, hleft, Ne.symm hv]
    by_cases hlast : ival.b = ivalLast
    · cases after with
      | nil =>
        have hone := Vec.insert_append IntervalFault.badIterator hi (ival.a, v) []
        have hfuse : fuse before ival.a v (resume ivalLast ival.b x.2 []) =
            before ++ [(ival.a, v)] := by simp [fuse, hclose, resume, hlast, dropRepeated]
        simp only [insertInside, ensure_of _ hfirst, ok_bind, hx, if_neg hv, if_pos hlast, hone,
          pure_eq_ok, hfuse]
      | cons y ys =>
        have hy := hkeys y (by simp)
        omega
    · cases after with
      | nil =>
        rw [insertInside_separate hi hleft hv hlast (by simp)]
        simp [fuse, hclose, resume, hlast, Ne.symm hv]
      | cons y ys =>
        by_cases hy : y.1 = ival.b
        · rw [insertInside_exact hi hleft hv hlast hy.symm]
          simp [resume, hlast, hy]
        · rw [insertInside_separate hi hleft hv hlast (by simpa using Ne.symm hy)]
          simp [fuse, hclose, resume, hlast, hy, Ne.symm hv]

/-- Without a key behind the interval, the last entry decides how to go on. -/
theorem insertAtEnd_append (hlba : lba = before.length) (hlbb : lbb = before.length + mid.length)
    (hmid : mid = init ++ [x]) :
    insertAtEnd (before ++ (mid ++ [])) lba lbb ival v =
      .ok (fuse before ival.a v (resume ivalLast ival.b x.2 [])) := by
  by_cases hlast : ival.b = ivalLast
  · have herase := Vec.eraseRange_append IntervalFault.badIterator hlba hlbb []
    have hend : ((before ++ ([] : List (ℕ × V))).length : ℤ) = before.length := by simp
    have hinsert := Vec.insert_append IntervalFault.badIterator hend (ival.a, v) []
    simp only [insertAtEnd, if_pos hlast, herase, ok_bind, hinsert, merge_append hend, resume]
  · have hsplit : before ++ (mid ++ []) = before ++ (init ++ [x]) := by simp [hmid]
    have hprev : lbb - 1 = before.length + init.length := by
      simp only [hlbb, hmid, List.length_append, List.length_singleton, Nat.cast_add, Nat.cast_one]
      omega
    have herase := Vec.eraseRange_append IntervalFault.badIterator hlba hprev [x]
    simp only [insertAtEnd, if_neg hlast, hsplit, herase, ok_bind, Vec.deref_append _ hlba]
    by_cases hx : x.2 = v
    · have hmodify := Vec.modify_append IntervalFault.badIterator hlba
        (fun e => (ival.a, e.2)) x []
      simp only [if_pos hx, hmodify, ok_bind]
      rw [hx, merge_append hlba]
      simp [fuse, resume, hlast, dropRepeated]
    · have hmodify := Vec.modify_append IntervalFault.badIterator hlba
        (fun e => (ival.b, e.2)) x []
      have hinsert := Vec.insert_append IntervalFault.badIterator hlba (ival.a, v) [(ival.b, x.2)]
      simp only [if_neg hx, hmodify, ok_bind, hinsert, merge_append hlba, resume, if_neg hlast]

/-- With keys inside and behind the interval, the last one inside is moved to its end. -/
theorem insertAcross_append (hlba : lba = before.length)
    (hlbb : lbb = before.length + mid.length) (hmid : mid = init ++ [x])
    (hlast : ival.b ≠ ivalLast) :
    insertAcross (before ++ (mid ++ y :: after)) lba lbb ival v =
      .ok (fuse before ival.a v (resume ivalLast ival.b x.2 (y :: after))) := by
  have hderef : Vec.deref IntervalFault.badIterator (before ++ (mid ++ y :: after)) lbb =
      .ok y := by
    rw [← List.append_assoc, Vec.deref_append _ (by simp [hlbb])]
  have hinsert (l : List (ℕ × V)) := Vec.insert_append IntervalFault.badIterator hlba (ival.a, v) l
  by_cases hy : ival.b = y.1
  · have herase := Vec.eraseRange_append IntervalFault.badIterator hlba hlbb (y :: after)
    simp only [insertAcross, hderef, ok_bind, ne_eq, hy, not_true_eq_false, if_false, pure_eq_ok]
    simp only [herase, ok_bind, hinsert, merge_append hlba]
    simp [resume, ← hy, hlast]
  · have hsplit (e : ℕ × V) : before ++ ((init ++ [e]) ++ y :: after) =
        (before ++ init) ++ e :: y :: after := by simp
    have hprev : lbb - 1 = before.length + init.length := by
      simp only [hlbb, hmid, List.length_append, List.length_singleton, Nat.cast_add, Nat.cast_one]
      omega
    have hmodify : Vec.modify IntervalFault.badIterator (before ++ (mid ++ y :: after)) (lbb - 1)
        (fun e => (ival.b, e.2)) =
        .ok (before ++ (init ++ (ival.b, x.2) :: y :: after)) := by
      rw [hmid, hsplit, Vec.modify_append _ (by simp [hprev]), List.append_assoc]
    have herase := Vec.eraseRange_append IntervalFault.badIterator hlba hprev
      ((ival.b, x.2) :: y :: after)
    simp only [insertAcross, hderef, ok_bind, ne_eq, hy, not_false_eq_true, if_true, hmodify,
      pure_eq_ok, herase, hinsert, merge_append hlba]
    simp [resume, hlast, Ne.symm hy]

namespace WellFormed

variable {s : IntervalVector V}

/-- The listing with one interval overwritten is well formed. -/
theorem overwrite (h : s.WellFormed) (hc : Cut s.m a b before mid after) (hab : a < b)
    (hb : b ≤ ivalLast) (hleft : before ++ mid = init ++ [x]) :
    WellFormed ⟨fuse before a v (resume ivalLast b x.2 after)⟩ := by
  have hafter : ∀ e ∈ after, e.1 < ivalLast := fun e he => h.keys e (by simp [hc.eq, he])
  refine ⟨hc.overwrite_reduced h.reduced hab hb hafter hleft, ?_, fun e he => ?_⟩
  · obtain ⟨w, rest, hhead⟩ := h.head
    have heq := hc.eq
    rw [hhead] at heq
    cases before with
    | nil =>
      have hzero : a = 0 := by
        by_contra hne
        have hmem : (0, w) ∈ mid ++ after := by
          rw [List.nil_append] at heq
          rw [← heq]
          exact List.mem_cons_self
        rcases List.mem_append.mp hmem with hmem | hmem
        · exact hne (Nat.le_zero.mp (hc.mid_ge _ hmem))
        · exact Nat.not_lt_zero a (hab.trans_le (hc.after_ge _ hmem))
      subst hzero
      exact ⟨v, dropRepeated v (resume ivalLast b x.2 after), by simp [fuse, closeOff]⟩
    | cons e es =>
      rw [List.cons_append, List.cons.injEq] at heq
      obtain ⟨rfl, -⟩ := heq
      unfold fuse closeOff
      split
      · exact ⟨w, _, rfl⟩
      · exact ⟨w, _, rfl⟩
  · obtain he | rfl | he := mem_fuse he
    · exact h.keys e (by simp [hc.eq, he])
    · exact hab.trans_le hb
    · exact (resume_keys hb (fun y hy => ⟨hc.after_ge y hy, hafter y hy⟩) e he).2

/-- `insert` never fails on a well-formed vector and overwrites the interval. -/
theorem insert_eq (h : s.WellFormed) (hab : ival.a < ival.b)
    (hc : Cut s.m ival.a ival.b before mid after) (v : V) :
    ∃ init x, before ++ mid = init ++ [x] ∧
      s.insert ival v =
        .ok (true, ⟨fuse before ival.a v (resume ivalLast ival.b x.2 after)⟩) := by
  have hkeys : ∀ e ∈ after, ival.b ≤ e.1 ∧ e.1 < ivalLast :=
    fun e he => ⟨hc.after_ge e he, h.keys e (by simp [hc.eq, he])⟩
  have hnonempty : ival.empty = false := by simpa [Interval.empty] using hab
  have hne : s.m ≠ [] := by
    obtain ⟨w, rest, hhead⟩ := h.head
    simp [hhead]
  obtain ⟨hlba, hlbb⟩ := lowerBound_cut hc hab
  simp only [insert, ensure_of _ hnonempty, ensure_of _ hne, hlba, hlbb, ok_bind]
  rcases List.eq_nil_or_concat' mid with hnil | ⟨mid', x, hmid⟩
  · have heq := hc.eq
    rw [hnil, List.nil_append] at heq
    obtain ⟨init, x, hleft⟩ := h.exists_concat heq fun e he => Nat.zero_lt_of_lt
      (hab.trans_le (hc.after_ge e he))
    rw [hnil, List.append_nil]
    refine ⟨init, x, hleft, ?_⟩
    have hreduced := h.reduced
    rw [heq, reduced_append] at hreduced
    have hdiff : ∀ y ∈ after.head?, x.2 ≠ y.2 :=
      fun y hy => (hreduced.2.2 x (by simp [hleft]) y hy).2
    rw [heq, if_pos rfl, insertInside_append rfl hleft hkeys hdiff]
    rfl
  · refine ⟨before ++ mid', x, by simp [hmid], ?_⟩
    have hlen : ((before ++ mid).length : ℤ) = before.length + mid.length := by simp
    have hdiffer : (before.length : ℤ) ≠ (before ++ mid).length := by
      simp only [hmid, List.length_append, List.length_singleton]
      omega
    rw [if_neg hdiffer]
    cases after with
    | nil =>
      have hend : ((before ++ mid).length : ℤ) = s.m.length := by simp [hc.eq]
      rw [if_pos hend, hc.eq, insertAtEnd_append rfl hlen hmid]
      rfl
    | cons y ys =>
      have hend : ((before ++ mid).length : ℤ) ≠ s.m.length := by
        simp only [hc.eq, List.length_append, List.length_cons]
        omega
      have hy := hkeys y (by simp)
      rw [if_neg hend, hc.eq, insertAcross_append rfl hlen hmid (hy.1.trans_lt hy.2).ne]
      rfl

end WellFormed

/-- The listing without the entry between two parts: the value before takes over, or else
the value behind, or else the default. -/
def cutOut [Inhabited V] (before : List (ℕ × V)) (x : ℕ × V) (after : List (ℕ × V)) :
    List (ℕ × V) :=
  match before.getLast?, after with
  | some z, _ => before ++ dropRepeated z.2 after
  | none, [] => [(x.1, default)]
  | none, y :: ys => (0, y.2) :: ys

/-- `remove` at the first entry. -/
private theorem remove_first [Inhabited V] {s : IntervalVector V} (heq : s.m = x :: after)
    (hupper : upperBound s.m p = .ok 1) :
    s.remove p = .ok (true, ⟨cutOut [] x after⟩) := by
  cases after with
  | nil =>
    have hend : (1 : ℤ) = s.m.length := by simp [heq]
    have hmodify := Vec.modify_append IntervalFault.badIterator
      (show (0 : ℤ) = ([] : List (ℕ × V)).length from rfl) (fun e => (e.1, default)) x []
    rw [List.nil_append, ← heq] at hmodify
    simp only [remove, hupper, ok_bind, ne_eq, ← hend, not_true_eq_false, if_false, sub_self,
      if_true, hmodify]
    rfl
  | cons y ys =>
    have hend : (1 : ℤ) ≠ s.m.length := by
      simp only [heq, List.length_cons]
      omega
    have hmodify := Vec.modify_append IntervalFault.badIterator
      (show (1 : ℤ) = [x].length from rfl) (fun e => (0, e.2)) y ys
    have herase := Vec.erase_append IntervalFault.badIterator
      (show (0 : ℤ) = ([] : List (ℕ × V)).length from rfl) x ((0, y.2) :: ys)
    rw [List.singleton_append, ← heq] at hmodify
    simp only [remove, hupper, ok_bind, ne_eq, hend, not_false_eq_true, if_true, sub_self, hmodify]
    rw [List.nil_append] at herase
    simp only [List.singleton_append, herase]
    rfl

/-- `remove` at an entry with a predecessor. -/
private theorem remove_inner [Inhabited V] {s : IntervalVector V} {z : ℕ × V}
    (hleft : before = init ++ [z]) (heq : s.m = before ++ x :: after)
    (hupper : upperBound s.m p = .ok ((before.length : ℤ) + 1)) :
    s.remove p = .ok (true, ⟨cutOut before x after⟩) := by
  have hcut : cutOut before x after = before ++ dropRepeated z.2 after := by
    simp [cutOut, hleft]
  have hactual : (before.length : ℤ) + 1 - 1 = before.length := by omega
  obtain ⟨hfirst, hz⟩ := deref_left rfl hleft (x :: after)
  have herase (l : List (ℕ × V)) := Vec.erase_append IntervalFault.badIterator
    (show (before.length : ℤ) = before.length from rfl) x l
  rw [← heq] at hz
  rw [hcut]
  cases after with
  | nil =>
    have hend : (before.length : ℤ) + 1 = s.m.length := by simp [heq]
    simp only [remove, hupper, ok_bind, hactual]
    rw [if_neg (not_not.mpr hend), if_neg hfirst, heq, herase]
    rfl
  | cons y ys =>
    have hend : (before.length : ℤ) + 1 ≠ s.m.length := by
      simp only [heq, List.length_append, List.length_cons]
      omega
    have hsplit (l : List (ℕ × V)) : before ++ x :: l = (before ++ [x]) ++ l := by simp
    have hnext : (before.length : ℤ) + 1 = (before ++ [x]).length := by simp
    have hy : Vec.deref IntervalFault.badIterator s.m ((before.length : ℤ) + 1) = .ok y := by
      rw [heq, hsplit, Vec.deref_append _ hnext]
    simp only [remove, hupper, ok_bind, ne_eq, hend, not_false_eq_true, if_true, hactual, hfirst,
      if_false, hz, hy]
    by_cases hzy : z.2 = y.2
    · have hdrop := Vec.erase_append IntervalFault.badIterator hnext y ys
      rw [← hsplit, ← hsplit, ← heq] at hdrop
      simp only [if_pos hzy, hdrop, ok_bind, pure_eq_ok, herase, dropRepeated_of_eq hzy.symm]
    · simp only [if_neg hzy, ok_bind, pure_eq_ok, heq, herase, dropRepeated_of_ne (Ne.symm hzy)]

namespace WellFormed

variable {s : IntervalVector V}

/-- `remove` never fails on a well-formed vector and cuts out the entry of the point. -/
theorem remove_eq [Inhabited V] (h : s.WellFormed) (p : ℕ) :
    ∃ before x after, s.m = before ++ x :: after ∧ x.1 ≤ p ∧ (∀ e ∈ after, p < e.1) ∧
      s.remove p = .ok (true, ⟨cutOut before x after⟩) := by
  obtain ⟨before, x, after, heq, hx, hafter, hupper, -⟩ := h.find_eq p
  refine ⟨before, x, after, heq, hx, hafter, ?_⟩
  rcases List.eq_nil_or_concat' before with hnil | ⟨init, z, hleft⟩
  · subst hnil
    exact remove_first (by simpa using heq) (by simpa using hupper)
  · exact remove_inner hleft heq hupper

/-- Cutting out the first entry keeps the vector well formed. -/
private theorem cutOut_first [Inhabited V] (h : s.WellFormed) (heq : s.m = x :: after) :
    WellFormed ⟨cutOut [] x after⟩ := by
  have hreduced := h.reduced
  have hkeys := h.keys
  obtain ⟨w, rest, hhead⟩ := h.head
  rw [heq] at hreduced hkeys
  rw [heq, List.cons.injEq] at hhead
  obtain ⟨rfl, rfl⟩ := hhead
  cases after with
  | nil =>
    refine ⟨List.isChain_singleton _, ⟨default, [], rfl⟩, ?_⟩
    simp [IntervalVector.cutOut, ivalLast]
  | cons y ys =>
    refine ⟨?_, ⟨y.2, ys, rfl⟩, fun e he => ?_⟩
    · have htail : Reduced (y :: ys) := (List.isChain_cons_cons.mp hreduced).2
      cases ys with
      | nil => exact List.isChain_singleton _
      | cons u us =>
        obtain ⟨hyu, hus⟩ := List.isChain_cons_cons.mp htail
        exact List.isChain_cons_cons.mpr ⟨⟨Nat.zero_lt_of_lt hyu.1, hyu.2⟩, hus⟩
    · cases he with
      | head => exact (by decide : 0 < ivalLast)
      | tail _ he => exact hkeys e (List.mem_cons_of_mem _ (List.mem_cons_of_mem _ he))

/-- Cutting out an entry with a predecessor keeps the vector well formed. -/
private theorem cutOut_inner [Inhabited V] {z : ℕ × V} (h : s.WellFormed)
    (hleft : before = init ++ [z]) (heq : s.m = before ++ x :: after) :
    WellFormed ⟨cutOut before x after⟩ := by
  have hreduced := h.reduced
  have hkeys := h.keys
  obtain ⟨w, rest, hhead⟩ := h.head
  rw [heq] at hreduced hkeys
  rw [heq] at hhead
  have hlast : before.getLast? = some z := by simp [hleft]
  have hcut : IntervalVector.cutOut before x after = before ++ dropRepeated z.2 after := by
    simp [IntervalVector.cutOut, hlast]
  rw [hcut]
  obtain ⟨hb, hxa, -⟩ := reduced_append.mp hreduced
  obtain ⟨hdrop, hdiff⟩ := dropRepeated_reduced (v := z.2) (List.IsChain.tail hxa)
  refine ⟨reduced_append.mpr ⟨hb, hdrop, fun u hu y hy => ?_⟩, ?_, fun e he => ?_⟩
  · have huz : z = u := by simpa [hlast] using hu
    subst huz
    have hmem := mem_of_mem_dropRepeated (List.mem_of_mem_head? hy)
    have hsorted := (List.pairwise_append.mp hreduced.sorted).2.2
    exact ⟨hsorted z (by simp [hleft]) y (List.mem_cons_of_mem x hmem), (hdiff y hy).symm⟩
  · cases before with
    | nil => simp at hlast
    | cons e es =>
      rw [List.cons_append, List.cons.injEq] at hhead
      exact ⟨w, es ++ dropRepeated z.2 after, by simp [hhead.1]⟩
  · rcases List.mem_append.mp he with he | he
    · exact hkeys e (by simp [he])
    · exact hkeys e (by simp [mem_of_mem_dropRepeated he])

/-- Cutting out an entry keeps the vector well formed. -/
theorem cutOut [Inhabited V] (h : s.WellFormed) (heq : s.m = before ++ x :: after) :
    WellFormed ⟨cutOut before x after⟩ := by
  rcases List.eq_nil_or_concat' before with hnil | ⟨init, z, hleft⟩
  · subst hnil
    exact h.cutOut_first heq
  · exact h.cutOut_inner hleft heq

end WellFormed

end Toyos.Util.IntervalVector
