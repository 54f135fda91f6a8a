import Mathlib.Data.List.Chain
import Mathlib.Order.Lattice

/-!
# Piecewise constant maps

A piecewise constant map is listed by its boundaries: every entry gives the
value from its key up to the next key. A listing is reduced when the keys
increase and neighbours have different values; it then has no superfluous entry.
Overwriting an interval cuts the listing before and behind the interval and
fuses the parts around the new value.
-/

namespace Toyos.Core.Steps

variable {K V : Type*}

/-- A listing that is closed already ends with the value. -/
theorem exists_concat_of_last {before : List (K × V)} {v : V}
    (h : before.getLast?.map Prod.snd = some v) :
    ∃ init x, before = init ++ [x] ∧ x.2 = v := by
  rcases List.eq_nil_or_concat' before with hnil | ⟨init, x, rfl⟩
  · simp [hnil] at h
  · exact ⟨init, x, rfl, by simpa using h⟩

section

variable [DecidableEq V] {v : V} {a : K} {x y : K × V} {before rest after : List (K × V)}

/-- Drop a first entry that repeats the value in force. -/
def dropRepeated (v : V) : List (K × V) → List (K × V)
  | [] => []
  | x :: rest => if x.2 = v then rest else x :: rest

@[simp] theorem dropRepeated_of_eq (hx : x.2 = v) : dropRepeated v (x :: rest) = rest :=
  if_pos hx

@[simp] theorem dropRepeated_of_ne (hx : x.2 ≠ v) : dropRepeated v (x :: rest) = x :: rest :=
  if_neg hx

theorem mem_of_mem_dropRepeated (hy : y ∈ dropRepeated v after) : y ∈ after := by
  cases after with
  | nil => exact hy
  | cons x rest =>
    by_cases hx : x.2 = v
    · rw [dropRepeated_of_eq hx] at hy
      exact List.mem_cons_of_mem x hy
    · rwa [dropRepeated_of_ne hx] at hy

/-- End a listing with the value `v` from `a` on. -/
def closeOff (before : List (K × V)) (a : K) (v : V) : List (K × V) :=
  if before.getLast?.map Prod.snd = some v then before else before ++ [(a, v)]

/-- Join two listings with the value `v` from `a` on between them. -/
def fuse (before : List (K × V)) (a : K) (v : V) (after : List (K × V)) : List (K × V) :=
  closeOff before a v ++ dropRepeated v after

theorem mem_fuse (hy : y ∈ fuse before a v after) : y ∈ before ∨ y = (a, v) ∨ y ∈ after := by
  rw [fuse, List.mem_append] at hy
  rcases hy with hy | hy
  · unfold closeOff at hy
    split at hy
    · exact Or.inl hy
    · rw [List.mem_append, List.mem_singleton] at hy
      exact hy.imp_right Or.inl
  · exact Or.inr (Or.inr (mem_of_mem_dropRepeated hy))

end

variable [LinearOrder K]

/-- The value at a point; `d` is the value before the first key. -/
def evalFrom (d : Option V) : List (K × V) → K → Option V
  | [], _ => d
  | x :: rest, p => evalFrom (if x.1 ≤ p then some x.2 else d) rest p

/-- The value at a point of a listing. -/
def eval (l : List (K × V)) (p : K) : Option V := evalFrom none l p

/-- Consecutive entries: the key increases and the value changes. -/
def Boundary (x y : K × V) : Prop := x.1 < y.1 ∧ x.2 ≠ y.2

/-- A listing without superfluous entries. -/
def Reduced (l : List (K × V)) : Prop := l.IsChain Boundary

variable {d : Option V} {l before after rest : List (K × V)} {x y : K × V} {a b p : K} {v : V}

theorem evalFrom_append (before after : List (K × V)) :
    evalFrom d (before ++ after) p = evalFrom (evalFrom d before p) after p := by
  induction before generalizing d with
  | nil => rfl
  | cons x xs ih => exact ih

/-- Entries behind the point do not matter. -/
theorem evalFrom_of_lt (h : ∀ x ∈ l, p < x.1) : evalFrom d l p = d := by
  induction l with
  | nil => rfl
  | cons x xs ih =>
    rw [evalFrom, if_neg (not_le.mpr (h x (by simp)))]
    exact ih fun y hy => h y (by simp [hy])

/-- The last entry that is not behind the point decides. -/
theorem evalFrom_concat (hx : x.1 ≤ p) (h : ∀ y ∈ after, p < y.1) :
    evalFrom d (before ++ x :: after) p = some x.2 := by
  rw [evalFrom_append, evalFrom, if_pos hx, evalFrom_of_lt h]

/-- From an entry on that is not behind the point, nothing before matters. -/
theorem evalFrom_cons_of_le (hx : x.1 ≤ p) :
    evalFrom d (x :: rest) p = evalFrom (some x.2) rest p := by
  rw [evalFrom, if_pos hx]

/-- The keys of a reduced listing increase throughout. -/
theorem Reduced.sorted (h : Reduced l) : l.Pairwise fun x y => x.1 < y.1 :=
  List.isChain_iff_pairwise.mp (List.IsChain.imp (fun _ _ hxy => hxy.1) h)

theorem reduced_append : Reduced (before ++ after) ↔
    Reduced before ∧ Reduced after ∧
      ∀ x ∈ before.getLast?, ∀ y ∈ after.head?, Boundary x y :=
  List.isChain_append

/-- Between an entry and the next one, the listing has the value of the entry. -/
theorem Reduced.eval_of_mem (hr : Reduced (before ++ x :: after)) (hx : x.1 ≤ p)
    (hnext : ∀ y ∈ after.head?, p < y.1) : eval (before ++ x :: after) p = some x.2 := by
  apply evalFrom_concat hx
  intro y hy
  cases after with
  | nil => simp at hy
  | cons z zs =>
    have hz : p < z.1 := hnext z (by simp)
    cases hy with
    | head => exact hz
    | tail _ hy =>
      have hsorted := (List.pairwise_append.mp hr.sorted).2.1
      rw [List.pairwise_cons, List.pairwise_cons] at hsorted
      exact hz.trans (hsorted.2.1 y hy)

/-- The value before an entry differs, so a constant range does not begin before it. -/
private theorem le_of_constant {lo : K} (hr : Reduced (before ++ x :: after)) (hlo : lo ≤ p)
    (hx : x.1 ≤ p)
    (hconst : ∀ q, lo ≤ q → q ≤ p → eval (before ++ x :: after) q = some x.2) : x.1 ≤ lo := by
  by_contra hlt
  have hlt : lo < x.1 := not_le.mp hlt
  rcases List.eq_nil_or_concat' before with hnil | ⟨init, z, rfl⟩
  · subst hnil
    have hnone : eval ([] ++ x :: after) lo = none := by
      apply evalFrom_of_lt
      intro y hy
      cases hy with
      | head => exact hlt
      | tail _ hy => exact hlt.trans ((List.pairwise_cons.mp hr.sorted).1 y hy)
    rw [hconst lo le_rfl hlo] at hnone
    simp at hnone
  · simp only [List.append_assoc, List.singleton_append] at hr hconst
    have hzx : Boundary z x := (List.isChain_append_cons_cons.mp hr).2.1
    have hmax : max lo z.1 < x.1 := max_lt hlt hzx.1
    have hval : eval (init ++ z :: x :: after) (max lo z.1) = some z.2 :=
      hr.eval_of_mem (le_max_right _ _) (by simpa using hmax)
    rw [hconst _ (le_max_left _ _) (hmax.le.trans hx)] at hval
    exact hzx.2 (Option.some.inj hval).symm

/-- The value from the next entry on differs, so a constant range does not reach behind it. -/
private theorem constant_le {hi : K} (hr : Reduced (before ++ x :: after))
    (hnext : ∀ y ∈ after.head?, p < y.1)
    (hconst : ∀ q, p ≤ q → q < hi → eval (before ++ x :: after) q = some x.2) :
    ∀ y ∈ after.head?, hi ≤ y.1 := by
  intro y hy
  by_contra hlt
  have hlt : y.1 < hi := not_le.mp hlt
  cases after with
  | nil => simp at hy
  | cons z zs =>
    simp only [List.head?_cons, Option.mem_some_iff] at hy
    subst hy
    obtain ⟨-, hxz, htail⟩ := List.isChain_append_cons_cons.mp hr
    have hsplit : before ++ x :: z :: zs = (before ++ [x]) ++ z :: zs := by simp
    have hval : eval (before ++ x :: z :: zs) z.1 = some z.2 := by
      rw [hsplit] at hr ⊢
      apply hr.eval_of_mem le_rfl
      intro w hw
      cases zs with
      | nil => simp at hw
      | cons u us =>
        simp only [List.head?_cons, Option.mem_some_iff] at hw
        exact hw ▸ (List.isChain_cons_cons.mp htail).1.1
    rw [hconst z.1 (hnext z (by simp)).le hlt] at hval
    exact hxz.2 (Option.some.inj hval)

/-- Between an entry and the next one lies a maximal range of constant value. -/
theorem Reduced.maximal {lo hi : K} (hr : Reduced (before ++ x :: after)) (hx : x.1 ≤ p)
    (hnext : ∀ y ∈ after.head?, p < y.1) (hlo : lo ≤ p) (hhi : p < hi)
    (hconst : ∀ q, lo ≤ q → q < hi → eval (before ++ x :: after) q = some x.2) :
    x.1 ≤ lo ∧ ∀ y ∈ after.head?, hi ≤ y.1 :=
  ⟨le_of_constant hr hlo hx fun q hq hqp => hconst q hq (hqp.trans_lt hhi),
    constant_le hr hnext fun q hq hqhi => hconst q (hlo.trans hq) hqhi⟩

/-- A listing cut before `a` and before `b`. -/
structure Cut (l : List (K × V)) (a b : K) (before mid after : List (K × V)) : Prop where
  /-- The parts make up the listing. -/
  eq : l = before ++ (mid ++ after)
  /-- The first part is before `a`. -/
  before_lt : ∀ x ∈ before, x.1 < a
  /-- The middle part starts at `a` or later. -/
  mid_ge : ∀ x ∈ mid, a ≤ x.1
  /-- The middle part is before `b`. -/
  mid_lt : ∀ x ∈ mid, x.1 < b
  /-- The last part starts at `b` or later. -/
  after_ge : ∀ x ∈ after, b ≤ x.1

/-- A sorted listing splits at every key. -/
theorem exists_split (h : l.Pairwise fun x y => x.1 < y.1) (a : K) :
    ∃ before after, l = before ++ after ∧ (∀ x ∈ before, x.1 < a) ∧ ∀ x ∈ after, a ≤ x.1 := by
  induction l with
  | nil => exact ⟨[], [], rfl, by simp, by simp⟩
  | cons x xs ih =>
    rw [List.pairwise_cons] at h
    by_cases hx : x.1 < a
    · obtain ⟨before, after, rfl, hb, ha⟩ := ih h.2
      refine ⟨x :: before, after, rfl, fun y hy => ?_, ha⟩
      cases hy with
      | head => exact hx
      | tail _ hy => exact hb y hy
    · refine ⟨[], x :: xs, rfl, by simp, fun y hy => ?_⟩
      cases hy with
      | head => exact not_lt.mp hx
      | tail _ hy => exact (not_lt.mp hx).trans (h.1 y hy).le

/-- A sorted listing can be cut before any two keys. -/
theorem exists_cut (h : l.Pairwise fun x y => x.1 < y.1) (a b : K) :
    ∃ before mid after, Cut l a b before mid after := by
  obtain ⟨before, rest, rfl, hbefore, hrest⟩ := exists_split h a
  obtain ⟨mid, after, rfl, hmid, hafter⟩ := exists_split (List.pairwise_append.mp h).2.1 b
  exact ⟨before, mid, after, rfl, hbefore, fun x hx => hrest x (by simp [hx]), hmid, hafter⟩

/-- Take up a listing from `b` on, with the value `v` until its first key; nothing is left
at the end `stop` of all keys. -/
def resume (stop b : K) (v : V) : List (K × V) → List (K × V)
  | [] => if b = stop then [] else [(b, v)]
  | x :: rest => if b = stop then [] else if x.1 = b then x :: rest else (b, v) :: x :: rest

theorem resume_keys {stop : K} (hb : b ≤ stop) (h : ∀ x ∈ after, b ≤ x.1 ∧ x.1 < stop) :
    ∀ y ∈ resume stop b v after, b ≤ y.1 ∧ y.1 < stop := by
  intro y hy
  by_cases hstop : b = stop
  · cases after <;> simp [resume, hstop] at hy
  · have hlt : b < stop := lt_of_le_of_ne hb hstop
    cases after with
    | nil =>
      simp only [resume, hstop, if_false, List.mem_singleton] at hy
      exact hy ▸ ⟨le_rfl, hlt⟩
    | cons x rest =>
      by_cases hx : x.1 = b
      · simp only [resume, hstop, hx, if_false, if_true] at hy
        exact h y hy
      · simp only [resume, hstop, hx, if_false] at hy
        cases hy with
        | head => exact ⟨le_rfl, hlt⟩
        | tail _ hy => exact h y hy

theorem resume_reduced {stop : K} (hr : Reduced after) (h : ∀ x ∈ after, b ≤ x.1)
    (hv : ∀ y ∈ after.head?, v ≠ y.2) : Reduced (resume stop b v after) := by
  by_cases hstop : b = stop
  · cases after <;> simp [resume, hstop, Reduced]
  · cases after with
    | nil => simp [resume, hstop, Reduced]
    | cons x rest =>
      by_cases hx : x.1 = b
      · simpa only [resume, hstop, hx, if_false, if_true] using hr
      · simp only [resume, hstop, hx, if_false]
        exact List.isChain_cons_cons.mpr
          ⟨⟨lt_of_le_of_ne (h x (by simp)) (Ne.symm hx), hv x (by simp)⟩, hr⟩

/-- From `b` on, the resumed listing continues the value and then the listing. -/
theorem evalFrom_resume {stop : K} (hbp : b ≤ p) (hp : p < stop) :
    evalFrom d (resume stop b v after) p = evalFrom (some v) after p := by
  have hstop : b ≠ stop := (hbp.trans_lt hp).ne
  cases after with
  | nil => simp [resume, hstop, evalFrom, hbp]
  | cons x rest =>
    by_cases hx : x.1 = b
    · simp only [resume, hstop, hx, if_false, if_true]
      rw [evalFrom_cons_of_le (hx ▸ hbp), evalFrom_cons_of_le (hx ▸ hbp)]
    · simp only [resume, hstop, hx, if_false]
      rw [evalFrom_cons_of_le hbp]

variable [DecidableEq V]

/-- Resuming with a value and dropping it again leaves the listing. -/
theorem dropRepeated_resume {stop : K} (h : ∀ x ∈ after, b ≤ x.1 ∧ x.1 < stop)
    (hv : ∀ y ∈ after.head?, v ≠ y.2) : dropRepeated v (resume stop b v after) = after := by
  cases after with
  | nil =>
    by_cases hstop : b = stop
    · simp [resume, hstop, dropRepeated]
    · simp [resume, hstop]
  | cons x rest =>
    have hx := h x (by simp)
    have hstop : b ≠ stop := (hx.1.trans_lt hx.2).ne
    by_cases hxb : x.1 = b
    · simp [resume, hstop, hxb, (hv x (by simp)).symm]
    · simp [resume, hstop, hxb]

/-- An entry that repeats the value in force does not matter. -/
theorem evalFrom_dropRepeated :
    evalFrom (some v) (dropRepeated v after) p = evalFrom (some v) after p := by
  cases after with
  | nil => rfl
  | cons x rest =>
    by_cases hx : x.2 = v
    · rw [dropRepeated_of_eq hx, evalFrom, hx, ite_self]
    · rw [dropRepeated_of_ne hx]

/-- A closed listing ends with the given value, at the latest from the given key on. -/
theorem closeOff_eq (h : ∀ x ∈ before, x.1 < a) :
    ∃ init k, closeOff before a v = init ++ [(k, v)] ∧ k ≤ a := by
  unfold closeOff
  split
  · rename_i hlast
    obtain ⟨init, x, rfl, rfl⟩ := exists_concat_of_last hlast
    exact ⟨init, x.1, rfl, (h x (by simp)).le⟩
  · exact ⟨before, a, rfl, le_rfl⟩

theorem closeOff_reduced (hr : Reduced before) (h : ∀ x ∈ before, x.1 < a) :
    Reduced (closeOff before a v) := by
  unfold closeOff
  split
  · exact hr
  · rename_i hlast
    rw [reduced_append]
    refine ⟨hr, List.isChain_singleton _, fun x hx y hy => ?_⟩
    simp only [List.head?_cons, Option.mem_some_iff] at hy
    subst hy
    refine ⟨h x (List.mem_of_getLast? hx), fun he => hlast ?_⟩
    rw [hx, Option.map_some, he]

theorem dropRepeated_reduced (hr : Reduced after) :
    Reduced (dropRepeated v after) ∧ ∀ y ∈ (dropRepeated v after).head?, y.2 ≠ v := by
  cases after with
  | nil => exact ⟨hr, by simp [dropRepeated]⟩
  | cons x rest =>
    by_cases hx : x.2 = v
    · rw [dropRepeated_of_eq hx]
      refine ⟨hr.tail, fun y hy => ?_⟩
      cases rest with
      | nil => simp at hy
      | cons z zs =>
        simp only [List.head?_cons, Option.mem_some_iff] at hy
        subst hy
        exact fun he => (List.isChain_cons_cons.mp hr).1.2 (hx.trans he.symm)
    · rw [dropRepeated_of_ne hx]
      refine ⟨hr, fun y hy => ?_⟩
      simp only [List.head?_cons, Option.mem_some_iff] at hy
      exact hy ▸ hx

/-- Fusing reduced listings gives a reduced listing. -/
theorem fuse_reduced (hb : Reduced before) (hba : ∀ x ∈ before, x.1 < a) (ha : Reduced after)
    (haa : ∀ y ∈ after, a < y.1) : Reduced (fuse before a v after) := by
  obtain ⟨init, k, hclose, hk⟩ := closeOff_eq (v := v) hba
  obtain ⟨hdrop, hhead⟩ := dropRepeated_reduced (v := v) ha
  rw [fuse, reduced_append]
  refine ⟨closeOff_reduced hb hba, hdrop, fun x hx y hy => ?_⟩
  simp only [hclose, List.getLast?_concat, Option.mem_some_iff] at hx
  subst hx
  exact ⟨hk.trans_lt (haa y (mem_of_mem_dropRepeated (List.mem_of_mem_head? hy))),
    (hhead y hy).symm⟩

/-- Fusing lists the same map as the plain concatenation. -/
theorem evalFrom_fuse (hba : ∀ x ∈ before, x.1 < a) (haa : ∀ y ∈ after, a < y.1) :
    evalFrom d (fuse before a v after) p = evalFrom d (before ++ (a, v) :: after) p := by
  have hclose : evalFrom d (closeOff before a v) p = evalFrom d (before ++ [(a, v)]) p := by
    unfold closeOff
    split
    · rename_i hlast
      obtain ⟨init, x, rfl, rfl⟩ := exists_concat_of_last hlast
      rw [evalFrom_append (init ++ [x]), evalFrom, evalFrom]
      split
      · rename_i hle
        have hx : x.1 ≤ p := (hba x (by simp)).le.trans hle
        rw [evalFrom_concat hx (by simp)]
      · rfl
    · rfl
  have happ : before ++ (a, v) :: after = (before ++ [(a, v)]) ++ after := by simp
  rw [fuse, happ, evalFrom_append, evalFrom_append (before ++ [(a, v)]), hclose]
  cases after with
  | nil => rfl
  | cons x rest =>
    by_cases hx : x.2 = v
    · rw [dropRepeated_of_eq hx, evalFrom]
      split
      · rename_i hle
        have hap : a ≤ p := (haa x (by simp)).le.trans hle
        rw [evalFrom_concat hap (by simp), hx]
      · rfl
    · rw [dropRepeated_of_ne hx]

/-- Overwriting: between `a` and `b` the new value, elsewhere the old map. -/
theorem Cut.evalFrom_overwrite {mid init : List (K × V)} {stop : K}
    (hc : Cut l a b before mid after) (hab : a < b) (hstop : b ≤ stop)
    (hkeys : ∀ y ∈ after, y.1 < stop) (hleft : before ++ mid = init ++ [x]) (hp : p < stop) :
    evalFrom d (fuse before a v (resume stop b x.2 after)) p =
      if a ≤ p ∧ p < b then some v else evalFrom d l p := by
  have hresume : ∀ y ∈ resume stop b x.2 after, b ≤ y.1 ∧ y.1 < stop :=
    resume_keys hstop fun y hy => ⟨hc.after_ge y hy, hkeys y hy⟩
  rw [evalFrom_fuse hc.before_lt fun y hy => hab.trans_le (hresume y hy).1, hc.eq]
  by_cases hbp : b ≤ p
  · have hx : x.1 ≤ p := by
      have hmem : x ∈ before ++ mid := by simp [hleft]
      rcases List.mem_append.mp hmem with hx | hx
      · exact (hc.before_lt x hx).le.trans (hab.le.trans hbp)
      · exact (hc.mid_lt x hx).le.trans hbp
    rw [if_neg fun h => not_le.mpr h.2 hbp, evalFrom_append,
      evalFrom_cons_of_le (hab.le.trans hbp), evalFrom_resume hbp hp, ← List.append_assoc, hleft,
      evalFrom_append (init ++ [x]), evalFrom_concat hx (by simp)]
  · have hpb : p < b := not_le.mp hbp
    have htail : ∀ y ∈ resume stop b x.2 after, p < y.1 :=
      fun y hy => hpb.trans_le (hresume y hy).1
    by_cases hap : a ≤ p
    · rw [if_pos ⟨hap, hpb⟩, evalFrom_concat hap htail]
    · have hpa : p < a := not_le.mp hap
      rw [if_neg fun h => hap h.1, evalFrom_append, evalFrom_append]
      rw [evalFrom_of_lt (l := (a, v) :: resume stop b x.2 after),
        evalFrom_of_lt (l := mid ++ after)]
      · intro y hy
        rcases List.mem_append.mp hy with hy | hy
        · exact hpa.trans_le (hc.mid_ge y hy)
        · exact hpb.trans_le (hc.after_ge y hy)
      · intro y hy
        cases hy with
        | head => exact hpa
        | tail _ hy => exact htail y hy

/-- Overwriting a reduced listing gives a reduced listing. -/
theorem Cut.overwrite_reduced {mid init : List (K × V)} {stop : K}
    (hc : Cut l a b before mid after) (hr : Reduced l) (hab : a < b) (hstop : b ≤ stop)
    (hkeys : ∀ y ∈ after, y.1 < stop) (hleft : before ++ mid = init ++ [x]) :
    Reduced (fuse before a v (resume stop b x.2 after)) := by
  rw [hc.eq, ← List.append_assoc, reduced_append, reduced_append] at hr
  obtain ⟨⟨hbefore, -, -⟩, hafter, hnext⟩ := hr
  have hresume : ∀ y ∈ resume stop b x.2 after, b ≤ y.1 ∧ y.1 < stop :=
    resume_keys hstop fun y hy => ⟨hc.after_ge y hy, hkeys y hy⟩
  apply fuse_reduced hbefore hc.before_lt
  · exact resume_reduced hafter hc.after_ge fun y hy => (hnext x (by simp [hleft]) y hy).2
  · exact fun y hy => hab.trans_le (hresume y hy).1

end Toyos.Core.Steps
