import Toyos.Util.IntervalMapRuns

/-!
# Removing, fitting and iterating

A removed interval falls to the interval before it, or else to the one behind it.
A run of points with one value lies inside one stored interval, because
neighbours differ, so looking at the stored intervals one by one finds the last
fit. Iterating a range looks up its first point without checking that an entry
follows, and so uses the end iterator for points inside the last interval.
-/

namespace Toyos.Util.IntervalVector

open Toyos.Core Toyos.Core.Steps

variable {V : Type} {s : IntervalVector V} {before after : List (ℕ × V)} {x : ℕ × V} {p : ℕ}

/-- The end of the interval that an entry begins. -/
def nextKey (after : List (ℕ × V)) : ℕ := (after.head?.map Prod.fst).getD ivalLast

theorem lt_of_nextKey (hsorted : after.Pairwise fun x y => x.1 < y.1) (hp : p < nextKey after) :
    ∀ e ∈ after, p < e.1 := by
  cases after with
  | nil => simp
  | cons y ys =>
    have hy : p < y.1 := hp
    intro e he
    cases he with
    | head => exact hy
    | tail _ he => exact hy.trans ((List.pairwise_cons.mp hsorted).1 e he)

namespace WellFormed

/-- The parts of the vector around an entry. -/
theorem sorted_parts (h : s.WellFormed) (heq : s.m = before ++ x :: after) :
    (∀ e ∈ before, e.1 < x.1) ∧ (∀ e ∈ after, x.1 < e.1) ∧
      after.Pairwise (fun x y => x.1 < y.1) := by
  have hsorted := h.reduced.sorted
  rw [heq, List.pairwise_append, List.pairwise_cons] at hsorted
  exact ⟨fun e he => hsorted.2.2 e he x (by simp), hsorted.2.1.1, hsorted.2.1.2⟩

/-- An entry gives its value up to the next key. -/
theorem valueAt_of_mem (h : s.WellFormed) (heq : s.m = before ++ x :: after) (hx : x.1 ≤ p)
    (hp : p < nextKey after) : s.valueAt p = some x.2 := by
  rw [h.valueAt_eq, heq]
  exact evalFrom_concat hx (lt_of_nextKey (h.sorted_parts heq).2.2 hp)

/-- The interval of an entry is not empty and ends with the keys. -/
theorem nextKey_spec (h : s.WellFormed) (heq : s.m = before ++ x :: after) :
    x.1 < nextKey after ∧ nextKey after ≤ ivalLast := by
  cases after with
  | nil => exact ⟨h.keys x (by simp [heq]), le_rfl⟩
  | cons y ys => exact ⟨(h.sorted_parts heq).2.1 y (by simp), (h.keys y (by simp [heq])).le⟩

/-- `find` returns the interval of the entry whose points it is asked for. -/
theorem find_of_mem (h : s.WellFormed) (heq : s.m = before ++ x :: after) (hx : x.1 ≤ p)
    (hp : p < nextKey after) : s.find p = .ok (some (⟨x.1, nextKey after⟩, x.2)) := by
  obtain ⟨hbefore, -, hsorted⟩ := h.sorted_parts heq
  exact (find_at heq (fun e he => (hbefore e he).le.trans hx) hx (lt_of_nextKey hsorted hp)).2

end WellFormed

section Removing

variable [Inhabited V] [DecidableEq V]

/-- The value that an interval falls to when it is removed. -/
def heir (before after : List (ℕ × V)) : V :=
  match before.getLast?, after with
  | some z, _ => z.2
  | none, y :: _ => y.2
  | none, [] => default

namespace WellFormed

/-- Without an entry that has a predecessor, the value before lasts until the next key. -/
private theorem eval_cutOut_inner {init : List (ℕ × V)} {z : ℕ × V} (h : s.WellFormed)
    (heq : s.m = before ++ x :: after) (hleft : before = init ++ [z]) (hlast : p < ivalLast) :
    eval (IntervalVector.cutOut before x after) p =
      if x.1 ≤ p ∧ p < nextKey after then some z.2 else eval s.m p := by
  obtain ⟨hbefore, hafter, hsorted⟩ := h.sorted_parts heq
  have hcut : IntervalVector.cutOut before x after = before ++ dropRepeated z.2 after := by
    simp [IntervalVector.cutOut, hleft]
  rw [hcut, heq, eval, eval, evalFrom_append, evalFrom_append]
  by_cases hx : x.1 ≤ p
  · have hz : z.1 ≤ p := (hbefore z (by simp [hleft])).le.trans hx
    have hfront : evalFrom none before p = some z.2 := by
      rw [hleft]
      exact evalFrom_concat hz (by simp)
    rw [hfront, evalFrom_dropRepeated, evalFrom_cons_of_le hx]
    by_cases hp : p < nextKey after
    · rw [if_pos ⟨hx, hp⟩, evalFrom_of_lt (lt_of_nextKey hsorted hp)]
    · rw [if_neg fun hin => hp hin.2]
      cases after with
      | nil => exact absurd hlast hp
      | cons y ys =>
        have hy : y.1 ≤ p := not_lt.mp hp
        rw [evalFrom_cons_of_le hy, evalFrom_cons_of_le hy]
  · have hpx : p < x.1 := not_le.mp hx
    have hfar : ∀ e ∈ x :: after, p < e.1 := by
      intro e he
      cases he with
      | head => exact hpx
      | tail _ he => exact hpx.trans (hafter e he)
    rw [if_neg fun hin => hx hin.1, evalFrom_of_lt hfar]
    exact evalFrom_of_lt fun e he => hpx.trans (hafter e (mem_of_mem_dropRepeated he))

/-- Without the first entry, the value behind it begins at key zero. -/
private theorem eval_cutOut_first (h : s.WellFormed) (heq : s.m = x :: after)
    (hlast : p < ivalLast) :
    eval (IntervalVector.cutOut [] x after) p =
      if x.1 ≤ p ∧ p < nextKey after then some (heir [] after) else eval s.m p := by
  obtain ⟨-, -, hsorted⟩ := h.sorted_parts (show s.m = [] ++ x :: after from heq)
  obtain ⟨w, rest, hhead⟩ := h.head
  rw [heq, List.cons.injEq] at hhead
  have hx : x.1 ≤ p := by simp [hhead.1]
  cases after with
  | nil =>
    rw [if_pos ⟨hx, hlast⟩]
    exact evalFrom_cons_of_le hx
  | cons y ys =>
    have hcut : eval (IntervalVector.cutOut [] x (y :: ys)) p = evalFrom (some y.2) ys p :=
      evalFrom_cons_of_le (Nat.zero_le p)
    by_cases hp : p < y.1
    · rw [if_pos ⟨hx, hp⟩, hcut]
      exact evalFrom_of_lt fun e he => lt_of_nextKey hsorted hp e (by simp [he])
    · have hy : y.1 ≤ p := not_lt.mp hp
      rw [if_neg fun hin => hp hin.2, hcut, heq, eval, evalFrom_cons_of_le hx,
        evalFrom_cons_of_le hy]

/-- Removing hands the interval over and leaves all other points. -/
theorem eval_cutOut (h : s.WellFormed) (heq : s.m = before ++ x :: after) (hlast : p < ivalLast) :
    eval (IntervalVector.cutOut before x after) p =
      if x.1 ≤ p ∧ p < nextKey after then some (heir before after) else eval s.m p := by
  rcases List.eq_nil_or_concat' before with hnil | ⟨init, z, hleft⟩
  · subst hnil
    exact h.eval_cutOut_first heq hlast
  · have hheir : heir before after = z.2 := by simp [heir, hleft]
    rw [hheir]
    exact h.eval_cutOut_inner heq hleft hlast

end WellFormed

/-- Removing a point hands the stored interval around it over to the interval directly before
it, or else to the one directly behind it, or else to the default; all other points keep their
values. -/
theorem remove_hands_over (hs : s.Reachable) {point : ℕ} (hpoint : point < ivalLast) :
    ∃ before x after s', s.m = before ++ x :: after ∧ x.1 ≤ point ∧ point < nextKey after ∧
      s.find point = .ok (some (⟨x.1, nextKey after⟩, x.2)) ∧
      s.remove point = .ok (true, s') ∧
      (∀ p, x.1 ≤ p → p < nextKey after → s'.valueAt p = some (heir before after)) ∧
      ∀ p < ivalLast, ¬(x.1 ≤ p ∧ p < nextKey after) → s'.valueAt p = s.valueAt p := by
  have h := hs.wellFormed
  obtain ⟨before, x, after, heq, hx, hafter, hremove⟩ := h.remove_eq point
  have hwell : WellFormed ⟨IntervalVector.cutOut before x after⟩ := h.cutOut heq
  have hnext : point < nextKey after := by
    cases after with
    | nil => exact hpoint
    | cons y ys => exact hafter y (by simp)
  have hend := (h.nextKey_spec heq).2
  refine ⟨before, x, after, _, heq, hx, hnext, h.find_of_mem heq hx hnext, hremove, ?_, ?_⟩
  · intro p hxp hp
    rw [hwell.valueAt_eq, h.eval_cutOut heq (hp.trans_le hend), if_pos ⟨hxp, hp⟩]
  · intro p hp hout
    rw [hwell.valueAt_eq, h.valueAt_eq, h.eval_cutOut heq hp, if_neg hout]

/-- Removing the inner interval of the small map. -/
theorem remove_hands_over_twoPoints : twoPoints.Reachable ∧ ∃ before x after s',
    twoPoints.m = before ++ x :: after ∧ x.1 ≤ 4 ∧ twoPoints.remove 4 = .ok (true, s') ∧
      s'.valueAt 4 = some (heir before after) := by
  obtain ⟨before, x, after, s', heq, hx, hnext, -, hremove, hin, -⟩ :=
    remove_hands_over twoPoints_reachable (show 4 < ivalLast by decide)
  exact ⟨twoPoints_reachable, before, x, after, s', heq, hx, hremove, hin 4 hx hnext⟩

end Removing

section Fitting

variable {size limit : ℕ} {key : V} {i r : Interval}

/-- An interval of the size below the limit, all of whose points are mapped to the key. -/
structure Fits (s : IntervalVector V) (size : ℕ) (key : V) (limit : ℕ) (i : Interval) : Prop where
  /-- The interval has the size. -/
  size_eq : i.b = i.a + size
  /-- The interval ends at the limit or before. -/
  le_limit : i.b ≤ limit
  /-- The interval ends at the last key or before. -/
  le_last : i.b ≤ ivalLast
  /-- All points have the key. -/
  mapped : ∀ p, i.a ≤ p → p < i.b → s.valueAt p = some key

/-- The last fit among those that end at the bound or before, or else the empty interval. -/
def LastFit (s : IntervalVector V) (size : ℕ) (key : V) (limit bound : ℕ) (r : Interval) : Prop :=
  (s.Fits size key limit r ∧ r.b ≤ bound ∧
    ∀ i, s.Fits size key limit i → i.b ≤ bound → i.a ≤ r.a) ∨
  (r = ⟨0, 0⟩ ∧ ∀ i, s.Fits size key limit i → ¬i.b ≤ bound)

/-- A fit that ends inside the interval of an entry lies inside it altogether. -/
theorem Fits.inside (hi : s.Fits size key limit i) (h : s.WellFormed) (hsize : 0 < size)
    (heq : s.m = before ++ x :: after) (hx : x.1 < i.b) (hnext : i.b ≤ nextKey after) :
    x.1 ≤ i.a ∧ x.2 = key := by
  have hlen := hi.size_eq
  have hlast : x.1 ≤ i.b - 1 := by omega
  have hbound : ∀ y ∈ after.head?, i.b - 1 < y.1 := by
    intro y hy
    have hkey : nextKey after = y.1 := by simp [nextKey, Option.mem_def.mp hy]
    omega
  have hvalue : x.2 = key := by
    have hmapped := hi.mapped (i.b - 1) (by omega) (by omega)
    rw [h.valueAt_of_mem heq hlast (by omega)] at hmapped
    exact Option.some.inj hmapped
  have hconst : ∀ q, i.a ≤ q → q < i.b → eval (before ++ x :: after) q = some x.2 := by
    intro q hq hqb
    rw [← heq, ← h.valueAt_eq, hi.mapped q hq hqb, hvalue]
  have hreduced := h.reduced
  rw [heq] at hreduced
  exact ⟨(hreduced.maximal hlast hbound (by omega) (by omega) hconst).1, hvalue⟩

/-- The interval that a round computes is the last fit up to the next key. -/
theorem LastFit.candidate (h : s.WellFormed) (heq : s.m = before ++ x :: after) (hkey : x.2 = key)
    (hfit : x.1 + size ≤ nextKey after) (hlimit : x.1 + size ≤ limit) :
    s.LastFit size key limit (nextKey after)
      ⟨min (nextKey after) limit - size, min (nextKey after) limit⟩ := by
  have hend := (h.nextKey_spec heq).2
  have hfits : s.Fits size key limit
      ⟨min (nextKey after) limit - size, min (nextKey after) limit⟩ := by
    refine ⟨by simp only; omega, by simp, by simp only; omega, fun p hp hpb => ?_⟩
    simp only at hp hpb
    rw [h.valueAt_of_mem heq (by omega) (by omega), hkey]
  refine .inl ⟨hfits, by simp, fun i hi hib => ?_⟩
  have hlen := hi.size_eq
  have hle := hi.le_limit
  simp only
  omega

/-- An entry without room for a fit leaves the last fit. -/
theorem LastFit.skip (hr : s.LastFit size key limit x.1 r) (h : s.WellFormed) (hsize : 0 < size)
    (heq : s.m = before ++ x :: after)
    (hnone : ¬(x.2 = key ∧ x.1 + size ≤ nextKey after ∧ x.1 + size ≤ limit)) :
    s.LastFit size key limit (nextKey after) r := by
  have hback : ∀ i, s.Fits size key limit i → i.b ≤ nextKey after → i.b ≤ x.1 := by
    intro i hi hib
    by_contra hlt
    obtain ⟨hxa, hkey⟩ := hi.inside h hsize heq (not_le.mp hlt) hib
    have hlen := hi.size_eq
    have hle := hi.le_limit
    exact hnone ⟨hkey, by omega, by omega⟩
  rcases hr with ⟨hfits, hrb, hlast⟩ | ⟨hempty, hno⟩
  · have hnext : r.b ≤ nextKey after := hrb.trans (h.nextKey_spec heq).1.le
    exact .inl ⟨hfits, hnext, fun i hi hib => hlast i hi (hback i hi hib)⟩
  · exact .inr ⟨hempty, fun i hi hib => hno i hi (hback i hi hib)⟩

variable [DecidableEq V]

/-- A round extends the last fit to the interval of its entry. -/
theorem LastFit.round (hr : s.LastFit size key limit x.1 r) (h : s.WellFormed) (hsize : 0 < size)
    (heq : s.m = before ++ x :: after) :
    ∃ r', s.fitRound size key limit r x = .ok r' ∧ s.LastFit size key limit (nextKey after) r' := by
  obtain ⟨hlt, hend⟩ := h.nextKey_spec heq
  have hfind := h.find_of_mem heq le_rfl hlt
  have hword : nextKey after < 2 ^ 64 := lt_of_le_of_lt hend (by decide)
  by_cases hkey : x.2 = key
  · by_cases hroom : x.1 + size ≤ nextKey after ∧ x.1 + size ≤ limit
    · have hcond : size ≤ (Interval.mk x.1 (nextKey after)).size ∧ wrap (x.1 + size) ≤ limit := by
        rw [Interval.size_eq hword, wrap_of_lt (by omega)]
        simp only
        omega
      have hstop : wsub (min (nextKey after) limit) size = min (nextKey after) limit - size :=
        wsub_of_le (by omega) (by omega)
      refine ⟨_, ?_, LastFit.candidate h heq hkey hroom.1 hroom.2⟩
      simp only [fitRound, if_pos hkey, hfind, ok_bind, if_pos hcond, hstop, pure_eq_ok]
    · have hcond : ¬(size ≤ (Interval.mk x.1 (nextKey after)).size ∧
          wrap (x.1 + size) ≤ limit) := by
        rw [Interval.size_eq hword]
        rintro ⟨hfit, hlimit⟩
        simp only at hfit
        rw [wrap_of_lt (by omega)] at hlimit
        exact hroom ⟨by omega, hlimit⟩
      refine ⟨r, ?_, hr.skip h hsize heq fun hall => hroom hall.2⟩
      simp only [fitRound, if_pos hkey, hfind, ok_bind, if_neg hcond, pure_eq_ok]
  · exact ⟨r, by simp [fitRound, hkey], hr.skip h hsize heq fun hall => hkey hall.1⟩

/-- The rounds over a part of the vector extend the last fit to its end. -/
theorem LastFit.rounds {rest : List (ℕ × V)} (h : s.WellFormed) (hsize : 0 < size)
    (heq : s.m = before ++ rest) (hr : s.LastFit size key limit (nextKey rest) r) :
    ∃ r', rest.foldlM (s.fitRound size key limit) r = .ok r' ∧
      s.LastFit size key limit ivalLast r' := by
  induction rest generalizing before r with
  | nil => exact ⟨r, rfl, hr⟩
  | cons x after ih =>
    obtain ⟨r₁, hround, hr₁⟩ := LastFit.round hr h hsize heq
    have hsplit : s.m = (before ++ [x]) ++ after := by simpa using heq
    obtain ⟨r', hrest, hr'⟩ := ih hsplit hr₁
    exact ⟨r', by rw [List.foldlM_cons, hround, ok_bind, hrest], hr'⟩

variable [Inhabited V]

/-- The search returns the last interval of the size below the limit that is mapped to the key,
and an empty interval if there is none. -/
theorem findLastFit_optimal (hs : s.Reachable) (hsize : 0 < size) (key : V) (limit : ℕ) :
    ∃ r, s.findLastFit size key limit = .ok r ∧
      ((∃ i, s.Fits size key limit i) → s.Fits size key limit r ∧
        ∀ i, s.Fits size key limit i → i.a ≤ r.a) ∧
      ((¬∃ i, s.Fits size key limit i) → r.empty = true) := by
  have h := hs.wellFormed
  have hstart : s.LastFit size key limit (nextKey s.m) ⟨0, 0⟩ := by
    obtain ⟨w, rest, hhead⟩ := h.head
    refine .inr ⟨rfl, fun i hi hib => ?_⟩
    have hlen := hi.size_eq
    simp only [hhead, nextKey, List.head?_cons, Option.map_some, Option.getD_some] at hib
    omega
  obtain ⟨r, hfold, hr⟩ := LastFit.rounds h hsize (show s.m = [] ++ s.m from rfl) hstart
  refine ⟨r, hfold, ?_⟩
  rcases hr with ⟨hfits, -, hlast⟩ | ⟨rfl, hno⟩
  · have hmax : ∀ i, s.Fits size key limit i → i.a ≤ r.a := fun i hi => hlast i hi hi.le_last
    exact ⟨fun _ => ⟨hfits, hmax⟩, fun hnone => absurd ⟨r, hfits⟩ hnone⟩
  · exact ⟨fun ⟨i, hi⟩ => absurd hi.le_last (hno i hi), fun _ => rfl⟩

/-- The small map has one fit of two points with the value one. -/
theorem findLastFit_optimal_twoPoints : twoPoints.Reachable ∧ twoPoints.Fits 2 1 100 ⟨3, 5⟩ ∧
    ∃ r, twoPoints.findLastFit 2 1 100 = .ok r ∧ twoPoints.Fits 2 1 100 r ∧ 3 ≤ r.a := by
  have hfit : twoPoints.Fits 2 1 100 ⟨3, 5⟩ := by
    refine ⟨rfl, by decide, by decide, fun p hp hpb => ?_⟩
    simp only at hp hpb
    obtain rfl | rfl : p = 3 ∨ p = 4 := by omega
    · decide +kernel
    · decide +kernel
  obtain ⟨r, hcall, hlast, -⟩ := findLastFit_optimal twoPoints_reachable Nat.two_pos 1 100
  obtain ⟨hfits, hmax⟩ := hlast ⟨_, hfit⟩
  exact ⟨twoPoints_reachable, hfit, r, hcall, hfits, hmax _ hfit⟩

end Fitting

section Iterating

variable {b e stop : ℕ} {l A B C : List (ℕ × V)} {g : Interval × V}

/-- The intervals of the entries, the last of which ends at `stop`. -/
def segments (stop : ℕ) : List (ℕ × V) → List (Interval × V)
  | [] => []
  | x :: rest => (⟨x.1, (rest.head?.map Prod.fst).getD stop⟩, x.2) :: segments stop rest

/-- The stored intervals that intersect a range. -/
def meeting (stop b e : ℕ) (l : List (ℕ × V)) : List (Interval × V) :=
  (segments stop l).filter fun g => g.1.intersects ⟨b, e⟩

/-- An interval as the entry that begins it. -/
def entry (g : Interval × V) : ℕ × V := (g.1.a, g.2)

theorem map_entry_segments (stop : ℕ) (l : List (ℕ × V)) : (segments stop l).map entry = l := by
  induction l with
  | nil => rfl
  | cons x rest ih => rw [segments, List.map_cons, ih, entry]

theorem segments_append (stop : ℕ) (A B : List (ℕ × V)) :
    segments stop (A ++ B) = segments ((B.head?.map Prod.fst).getD stop) A ++ segments stop B := by
  induction A with
  | nil => rfl
  | cons x rest ih =>
    rw [List.cons_append, segments, segments, List.cons_append, ih]
    cases rest with
    | nil => rfl
    | cons y ys => rfl

/-- The bounds of an interval are a key and a later key or the stop. -/
theorem bounds_of_mem_segments (hsorted : l.Pairwise fun x y => x.1 < y.1)
    (hstop : ∀ x ∈ l, x.1 < stop) (hg : g ∈ segments stop l) :
    (∃ x ∈ l, g.1.a = x.1) ∧ g.1.a < g.1.b ∧ (g.1.b = stop ∨ ∃ x ∈ l, g.1.b = x.1) := by
  induction l with
  | nil => simp [segments] at hg
  | cons x rest ih =>
    obtain ⟨hx, hrest⟩ := List.pairwise_cons.mp hsorted
    cases hg with
    | head =>
      cases rest with
      | nil => exact ⟨⟨x, by simp, rfl⟩, hstop x (by simp), .inl rfl⟩
      | cons y ys => exact ⟨⟨x, by simp, rfl⟩, hx y (by simp), .inr ⟨y, by simp, rfl⟩⟩
    | tail _ hg =>
      obtain ⟨⟨u, hu, ha⟩, hlt, hb⟩ := ih hrest (fun u hu => hstop u (by simp [hu])) hg
      refine ⟨⟨u, by simp [hu], ha⟩, hlt, hb.imp_right ?_⟩
      rintro ⟨w, hw, hb⟩
      exact ⟨w, by simp [hw], hb⟩

theorem meeting_append (stop b e : ℕ) (A B : List (ℕ × V)) :
    meeting stop b e (A ++ B) =
      meeting ((B.head?.map Prod.fst).getD stop) b e A ++ meeting stop b e B := by
  rw [meeting, segments_append, List.filter_append]
  rfl

theorem intersects_iff {i : Interval} (hi : i.a < i.b) (hbe : b < e) :
    i.intersects ⟨b, e⟩ = true ↔ i.a < e ∧ b < i.b := by
  simp [Interval.intersects, Interval.empty, hi, hbe]

/-- Intervals that end before the range do not meet it. -/
theorem meeting_of_le (hbe : b < e) (hsorted : A.Pairwise fun x y => x.1 < y.1)
    (hkeys : ∀ x ∈ A, x.1 < stop) (hstop : stop ≤ b) : meeting stop b e A = [] := by
  refine List.filter_eq_nil_iff.mpr fun g hg => ?_
  obtain ⟨-, hlt, hend⟩ := bounds_of_mem_segments hsorted hkeys hg
  rw [intersects_iff hlt hbe]
  rintro ⟨-, hb⟩
  rcases hend with hend | ⟨x, hx, hend⟩
  · omega
  · have := hkeys x hx
    omega

/-- Intervals that begin behind the range do not meet it. -/
theorem meeting_of_ge (hbe : b < e) (hsorted : C.Pairwise fun x y => x.1 < y.1)
    (hkeys : ∀ x ∈ C, x.1 < stop) (hC : ∀ x ∈ C, e ≤ x.1) : meeting stop b e C = [] := by
  refine List.filter_eq_nil_iff.mpr fun g hg => ?_
  obtain ⟨⟨x, hx, ha⟩, hlt, -⟩ := bounds_of_mem_segments hsorted hkeys hg
  rw [intersects_iff hlt hbe]
  have := hC x hx
  omega

/-- Intervals that begin before the end of the range and end behind its begin all meet it. -/
theorem meeting_of_mem (hbe : b < e) (hsorted : B.Pairwise fun x y => x.1 < y.1)
    (hkeys : ∀ x ∈ B, x.1 < stop) (hB : ∀ x ∈ B, x.1 < e)
    (hends : ∀ g ∈ segments stop B, b < g.1.b) : meeting stop b e B = segments stop B := by
  refine List.filter_eq_self.mpr fun g hg => ?_
  obtain ⟨⟨x, hx, ha⟩, hlt, -⟩ := bounds_of_mem_segments hsorted hkeys hg
  rw [intersects_iff hlt hbe]
  have := hB x hx
  exact ⟨by omega, hends g hg⟩

namespace WellFormed

/-- The keys of a first part lie before the next key. -/
theorem lt_nextKey (h : s.WellFormed) (heq : s.m = A ++ B) : ∀ x ∈ A, x.1 < nextKey B := by
  intro x hx
  cases B with
  | nil => exact h.keys x (by simp [heq, hx])
  | cons y ys =>
    have hsorted := h.reduced.sorted
    rw [heq, List.pairwise_append] at hsorted
    exact hsorted.2.2 x hx y (by simp)

/-- The stored intervals that meet a range are those of a middle part of the vector. -/
theorem meeting_eq (h : s.WellFormed) (heq : s.m = A ++ (B ++ C)) (hbe : b < e)
    (hA : nextKey (B ++ C) ≤ b) (hB : ∀ x ∈ B, x.1 < e)
    (hends : ∀ g ∈ segments (nextKey C) B, b < g.1.b) (hC : ∀ x ∈ C, e ≤ x.1) :
    meeting ivalLast b e s.m = segments (nextKey C) B := by
  have hsorted := h.reduced.sorted
  rw [heq, List.pairwise_append, List.pairwise_append] at hsorted
  have hlast : s.m = (A ++ B) ++ C := by simpa using heq
  have hfront := meeting_of_le hbe hsorted.1 (h.lt_nextKey heq) hA
  have hmid := meeting_of_mem hbe hsorted.2.1.1
    (fun x hx => h.lt_nextKey hlast x (by simp [hx])) hB hends
  have hback := meeting_of_ge hbe hsorted.2.1.2.1 (fun x hx => h.keys x (by simp [heq, hx])) hC
  rw [heq, meeting_append, meeting_append, hback, List.append_nil]
  exact (congrArg₂ (· ++ ·) hfront hmid).trans (List.nil_append _)

end WellFormed

/-- A loop between two iterators visits the part of the vector between them. -/
theorem between_append (heq : s.m = A ++ (B ++ C)) {first last : ℤ} (hfirst : first = A.length)
    (hlast : last = A.length + B.length) : s.between first last = B := by
  have hlen : (last - first).toNat = B.length := by omega
  rw [between, hlen, hfirst, heq]
  simp

/-- The returned iterators enumerate the stored intervals that meet the range, from the one that
contains the begin point on. -/
structure Enumerates (s : IntervalVector V) (b e : ℕ) (first last : ℤ) : Prop where
  /-- The iterators delimit a part of the vector. -/
  inside : 0 ≤ first ∧ first ≤ last ∧ last ≤ s.m.length
  /-- The entries between them are those of the intervals that meet the range, in order. -/
  exact_eq : s.between first last = (meeting ivalLast b e s.m).map entry
  /-- The first of these contains the begin point. -/
  starts : ∃ g rest, meeting ivalLast b e s.m = g :: rest ∧ g.1.a ≤ b ∧ b < g.1.b

/-- The part of the vector from the entry of the begin point up to the end point is
enumerated. -/
theorem WellFormed.enumerates (h : s.WellFormed) (heq : s.m = A ++ ((x :: B) ++ C)) (hbe : b < e)
    (hx : x.1 ≤ b) (hb : b < nextKey (B ++ C)) (hB : ∀ y ∈ x :: B, y.1 < e)
    (hC : ∀ y ∈ C, e ≤ y.1) {first last : ℤ} (hfirst : first = A.length)
    (hlast : last = A.length + (x :: B).length) : s.Enumerates b e first last := by
  have hsorted := h.reduced.sorted
  rw [heq, List.pairwise_append, List.cons_append, List.pairwise_cons] at hsorted
  have hbehind : ∀ y ∈ B ++ C, b < y.1 := lt_of_nextKey hsorted.2.1.2 hb
  have hsplit : s.m = (A ++ (x :: B)) ++ C := by simpa using heq
  have hnext : (B.head?.map Prod.fst).getD (nextKey C) = nextKey (B ++ C) := by
    cases B with
    | nil => rfl
    | cons y ys => rfl
  have hends : ∀ g ∈ segments (nextKey C) (x :: B), b < g.1.b := by
    intro g hg
    cases hg with
    | head => simpa only [hnext] using hb
    | tail _ hg =>
      obtain ⟨⟨u, hu, ha⟩, hlt, -⟩ := bounds_of_mem_segments
        (List.pairwise_append.mp hsorted.2.1.2).1
        (fun y hy => h.lt_nextKey hsplit y (by simp [hy])) hg
      have := hbehind u (by simp [hu])
      omega
  have hmeeting := h.meeting_eq heq hbe hx hB hends hC
  refine ⟨⟨by omega, by omega, ?_⟩, ?_, ⟨_, _, hmeeting, hx, by simpa only [hnext] using hb⟩⟩
  · simp only [heq, hlast, List.length_append]
    omega
  · rw [between_append heq hfirst hlast, hmeeting, map_entry_segments]

/-- Behind the last key the search for the begin point yields the end iterator, which is then
used. -/
theorem iterateRange_eq_error (hall : ∀ x ∈ s.m, x.1 < b) :
    s.iterateRange b e = .error .badIterator := by
  have hlower : lowerBound s.m b = .ok (s.m.length : ℤ) := by
    have hsplit : s.m = s.m ++ [] := (List.append_nil _).symm
    rw [hsplit, lowerBound_append hall (by simp)]
    simp
  have hderef : Vec.deref IntervalFault.badIterator s.m (s.m.length : ℤ) = .error .badIterator := by
    simp [Vec.deref]
  simp only [iterateRange, hlower, ok_bind, hderef, error_bind]

/-- The search for a begin point that is not behind the last key yields an entry. -/
theorem exists_behind {before mid after : List (ℕ × V)} (hc : Cut s.m b e before mid after)
    (hbe : b < e) (hin : ∃ x ∈ s.m, b ≤ x.1) :
    ∃ y ys, mid ++ after = y :: ys ∧ b ≤ y.1 := by
  have hge : ∀ z ∈ mid ++ after, b ≤ z.1 := by
    intro z hz
    rcases List.mem_append.mp hz with hz | hz
    · exact hc.mid_ge z hz
    · exact hbe.le.trans (hc.after_ge z hz)
  obtain ⟨x, hx, hbx⟩ := hin
  rw [hc.eq, List.mem_append] at hx
  rcases hx with hx | hx
  · exact absurd (hc.before_lt x hx) (not_lt.mpr hbx)
  · obtain ⟨y, ys, hrest⟩ := List.exists_cons_of_ne_nil (List.ne_nil_of_mem hx)
    exact ⟨y, ys, hrest, hge y (by simp [hrest])⟩

/-- No key behind a positive one is zero. -/
theorem WellFormed.pos_behind (h : s.WellFormed) {y : ℕ × V} (heq : s.m = A ++ y :: B)
    (hy : 0 < y.1) : ∀ z ∈ y :: B, 0 < z.1 := by
  have hsorted := h.reduced.sorted
  rw [heq, List.pairwise_append, List.pairwise_cons] at hsorted
  exact List.forall_mem_cons.mpr ⟨hy, fun z hz => Nat.zero_lt_of_lt (hsorted.2.1.1 z hz)⟩

/-- From a begin point that is not behind the last key on, the intervals that meet the range are
enumerated. -/
theorem WellFormed.iterateRange_ok (h : s.WellFormed) (hbe : b < e) (hin : ∃ x ∈ s.m, b ≤ x.1) :
    ∃ first last, s.iterateRange b e = .ok (first, last) ∧ s.Enumerates b e first last := by
  obtain ⟨before, mid, after, hc⟩ := exists_cut h.reduced.sorted b e
  obtain ⟨hfirst, hlast⟩ := lowerBound_cut hc hbe
  obtain ⟨y, ys, hrest, hy⟩ := exists_behind hc hbe hin
  have hderef : Vec.deref IntervalFault.badIterator s.m (before.length : ℤ) = .ok y := by
    rw [hc.eq, hrest, Vec.deref_append _ rfl]
  simp only [iterateRange, hfirst, hlast, ok_bind, hderef, pure_eq_ok]
  by_cases hyb : y.1 = b
  · cases mid with
    | nil =>
      have hafter := hc.after_ge y (by simpa using congrArg (y ∈ ·) hrest)
      omega
    | cons z mid =>
      obtain ⟨rfl, -⟩ := List.cons.inj hrest
      have heq := hc.eq
      refine ⟨_, _, rfl, h.enumerates heq hbe hyb.le ?_ hc.mid_lt hc.after_ge (by simp [hyb])
        (by simp)⟩
      exact hyb ▸ (h.nextKey_spec heq).1
  · have hpos : ∀ z ∈ mid ++ after, 0 < z.1 := by
      rw [hrest]
      exact h.pos_behind (hrest ▸ hc.eq) (by omega)
    obtain ⟨init, x, rfl⟩ := h.exists_concat hc.eq hpos
    have heq : s.m = init ++ ((x :: mid) ++ after) := by simpa using hc.eq
    have hx : x.1 < b := hc.before_lt x (by simp)
    refine ⟨_, _, rfl, h.enumerates heq hbe hx.le ?_ ?_ hc.after_ge ?_ ?_⟩
    · rw [hrest]
      exact lt_of_le_of_ne hy (Ne.symm hyb)
    · exact List.forall_mem_cons.mpr ⟨hx.trans hbe, hc.mid_lt⟩
    · simp [hyb]
    · simp

variable [DecidableEq V] [Inhabited V]

/-- Iterating a range uses only entries of the vector and enumerates the stored intervals that
meet the range exactly when the begin point is not behind the last key. -/
theorem iterateRange_exact_iff (hs : s.Reachable) (hbe : b < e) :
    (∃ first last, s.iterateRange b e = .ok (first, last) ∧ s.Enumerates b e first last) ↔
      ∃ x ∈ s.m, b ≤ x.1 := by
  constructor
  · rintro ⟨first, last, hcall, -⟩
    by_contra hnone
    have hall : ∀ x ∈ s.m, x.1 < b := fun x hx => not_le.mp fun hle => hnone ⟨x, hx, hle⟩
    simp [iterateRange_eq_error hall] at hcall
  · exact hs.wellFormed.iterateRange_ok hbe

/-- Iterating from inside the first interval of the small map. -/
theorem iterateRange_exact_iff_twoPoints : twoPoints.Reachable ∧
    ∃ first last, twoPoints.iterateRange 1 4 = .ok (first, last) ∧
      twoPoints.Enumerates 1 4 first last :=
  ⟨twoPoints_reachable, (iterateRange_exact_iff twoPoints_reachable (by decide)).mpr
    ⟨(3, 1), by decide, by decide⟩⟩

/-- A fresh map has one interval; a range that begins inside it uses the end iterator. -/
theorem fresh_map_not_iterable : (new 0 : IntervalVector ℕ).Reachable ∧
    (new 0 : IntervalVector ℕ).iterateRange 1 2 = .error .badIterator :=
  ⟨⟨0, [], .nil⟩, by decide +kernel⟩

end Iterating

end Toyos.Util.IntervalVector
