import Toyos.Memory.Reclaim

/-!
# The splitting buddy

`splitting_buddy` serves requests of any byte size. A request is rounded up to a
power of two, and the tail of the allocated block goes back to the buddy in
aligned chunks. Interval bounds are 64-bit values, so the last address of the
address space belongs to no interval: it is never given to the buddy, and the
end of an allocated block never wraps.
-/

namespace Toyos.Memory

open Toyos.Core Toyos.Util

/-- A buddy for ranges of arbitrary size. -/
structure SplittingBuddy where
  /-- The buddy that holds the free memory. -/
  internalAllocator : BuddyImpl
  deriving DecidableEq

/-- What one call did. -/
inductive SplittingEvent
  /-- A call of `alloc` and its result. -/
  | alloc (size : ℕ) (result : Option Interval)
  /-- A call of `free`. -/
  | free (ival : Interval)
  deriving DecidableEq, Repr

namespace SplittingBuddy

/-- A splitting buddy without memory. -/
def new (maxOrd : ℕ) : Except BuddyFault SplittingBuddy := do
  return ⟨← BuddyImpl.new maxOrd⟩

/-- Make an interval available for allocation. -/
def free (s : SplittingBuddy) (ival : Interval) : Except BuddyFault SplittingBuddy := do
  return ⟨← s.internalAllocator.freeRanges orderEnvelope ival⟩

/-- Take an interval of the given size and return the overhead to the buddy. -/
def alloc (s : SplittingBuddy) (size : ℕ) :
    Except BuddyFault (Option Interval × SplittingBuddy) := do
  let allocOrder := orderEnvelope size
  let (allocStart, internal) ← s.internalAllocator.alloc allocOrder
  match allocStart with
  | none => return (none, ⟨internal⟩)
  | some allocStart =>
    let allocIval := Interval.fromOrder allocStart allocOrder
    let remaining := wsub allocIval.size size
    let remainingIval := Interval.fromSize (wrap (allocIval.a + size)) remaining
    let s ← free ⟨internal⟩ remainingIval
    return (some ⟨allocStart, remainingIval.a⟩, s)

/-- The free addresses. -/
def freeSet (s : SplittingBuddy) : Set ℕ := s.internalAllocator.freeSet

/-- An interval that may be freed in a state. -/
structure FreeLegal (s : SplittingBuddy) (ival : Interval) : Prop where
  /-- The begin is a 64-bit value. -/
  a_lt : ival.a < 2 ^ 64
  /-- The end is a 64-bit value. -/
  b_lt : ival.b < 2 ^ 64
  /-- No part of the interval is free. -/
  disjoint : Disjoint ival.points s.freeSet

/-- One call that returns: an allocation of a 64-bit size, or a legal free. -/
inductive Step : SplittingBuddy → SplittingEvent → SplittingBuddy → Prop
  | alloc {s size r s'} : size < 2 ^ 64 → s.alloc size = .ok (r, s') → Step s (.alloc size r) s'
  | free {s ival s'} : s.FreeLegal ival → s.free ival = .ok s' → Step s (.free ival) s'

/-- The states reached from an empty splitting buddy of the given maximal order. -/
def Reachable (maxOrd : ℕ) (s : SplittingBuddy) : Prop :=
  ∃ init es, new maxOrd = .ok init ∧ Run Step init es s

/-- The buddy is well formed and the last address is not free. -/
structure Inv (top : ℕ) (s : SplittingBuddy) : Prop where
  /-- The internal buddy satisfies its invariant. -/
  buddy : s.internalAllocator.Inv top
  /-- Free addresses are below the last address. -/
  below : s.freeSet ⊆ Set.Iio (2 ^ 64 - 1)

variable {top : ℕ} {s t : SplittingBuddy} {e : SplittingEvent} {ival : Interval}

theorem new_ok (htop : top ≤ maximalOrder) : ∃ s, new top = .ok s ∧ s.Inv top := by
  obtain ⟨b, hb, hinv, hempty⟩ := BuddyImpl.new_ok htop
  refine ⟨⟨b⟩, by simp [new, hb], hinv, ?_⟩
  rw [freeSet, hempty]
  exact Set.empty_subset _

/-- A legal free adds exactly its interval. -/
theorem Inv.free_ok (h : s.Inv top) (hl : s.FreeLegal ival) :
    ∃ s', s.free ival = .ok s' ∧ s'.Inv top ∧ s'.freeSet = s.freeSet ∪ ival.points := by
  obtain ⟨b, hfree, hb, hset⟩ :=
    h.buddy.freeRanges_ok (fun _ hk => orderEnvelope_two_pow hk) hl.a_lt hl.b_lt hl.disjoint
  refine ⟨⟨b⟩, by simp [free, hfree], ⟨hb, ?_⟩, hset⟩
  rw [freeSet, hset]
  refine Set.union_subset h.below fun x hx => ?_
  have hlt : x < ival.b := hx.2
  have hb := hl.b_lt
  simp only [Set.mem_Iio]
  omega

/-- Inside the address space the tail of an allocated block is the plain difference. -/
theorem remaining_eq {a k size : ℕ} (hend : a + 2 ^ k < 2 ^ 64) (hsize : size ≤ 2 ^ k) :
    Interval.fromSize (wrap ((Interval.fromOrder a k).a + size))
      (wsub (Interval.fromOrder a k).size size) = ⟨a + size, a + 2 ^ k⟩ := by
  have hk : k < 64 := (Nat.pow_lt_pow_iff_right (by decide : 1 < 2)).mp (by omega)
  have hival : Interval.fromOrder a k = ⟨a, a + 2 ^ k⟩ := by
    rw [Interval.fromOrder, Interval.fromSize, wrap_one_shiftLeft hk, wrap_of_lt hend]
  rw [hival, Interval.size_eq hend]
  simp only [Nat.add_sub_cancel_left]
  rw [wsub_of_le (by omega) hsize, wrap_of_lt (by omega), Interval.fromSize,
    wrap_of_lt (by omega)]
  congr 1
  omega

/-- Giving back the tail of a range leaves only its beginning taken. -/
theorem sdiff_union_tail {S : Set ℕ} {a b c : ℕ} (hsub : Set.Ico a c ⊆ S) (hab : a ≤ b)
    (hbc : b ≤ c) : (S \ Set.Ico a c) ∪ Set.Ico b c = S \ Set.Ico a b := by
  ext x
  have hx := @hsub x
  simp only [Set.mem_union, Set.mem_sdiff, Set.mem_Ico] at hx ⊢
  by_cases hS : x ∈ S
  · simp only [hS, true_and]
    omega
  · simp only [hS, false_and, false_or, iff_false]
    exact fun hmem => hS (hx ⟨by omega, by omega⟩)

/-- Allocation either finds no sufficient block and changes nothing, or takes exactly the
requested bytes at the start of an aligned free block. -/
theorem Inv.alloc_ok (h : s.Inv top) {size : ℕ} (hsize : size < 2 ^ 64) :
    (s.alloc size = .ok (none, s) ∧
      ∀ b ∈ s.internalAllocator.blocks.blockSet, b.ord < Nat.clog 2 size) ∨
      ∃ a s', s.alloc size = .ok (some ⟨a, a + size⟩, s') ∧ s'.Inv top ∧ a + size < 2 ^ 64 ∧
        2 ^ Nat.clog 2 size ∣ a ∧ Set.Ico a (a + size) ⊆ s.freeSet ∧
        s'.freeSet = s.freeSet \ Set.Ico a (a + size) := by
  have horder := orderEnvelope_eq_clog hsize
  rcases h.buddy.alloc_ok (Nat.clog 2 size) with ⟨hfail, hall⟩ |
    ⟨a, b, hok, hb, -, hdvd, hsub, hset⟩
  · exact Or.inl ⟨by simp [alloc, horder, hfail], hall⟩
  · have hle : size ≤ 2 ^ Nat.clog 2 size := Nat.le_pow_clog (by decide) size
    generalize Nat.clog 2 size = k at horder hok hdvd hsub hset hle
    have hpos := Nat.two_pow_pos k
    have hend : a + 2 ^ k < 2 ^ 64 := by
      have hlast : a + 2 ^ k - 1 ∈ s.freeSet := hsub ⟨by omega, by omega⟩
      have hlt := h.below hlast
      simp only [Set.mem_Iio] at hlt
      omega
    have hb' : SplittingBuddy.Inv top ⟨b⟩ :=
      ⟨hb, fun x hx => h.below (by rw [freeSet, hset] at hx; exact hx.1)⟩
    have htail : Disjoint (Set.Ico (a + size) (a + 2 ^ k)) b.freeSet := by
      rw [hset]
      exact Set.disjoint_sdiff_right.mono_left (Set.Ico_subset_Ico_left (by omega))
    have hlegal : FreeLegal ⟨b⟩ ⟨a + size, a + 2 ^ k⟩ := ⟨by simp only; omega, hend, htail⟩
    obtain ⟨s', hfree, hs', hset'⟩ := hb'.free_ok hlegal
    refine Or.inr ⟨a, s', ?_, hs', by omega, hdvd, ?_, ?_⟩
    · simp only [alloc, horder, hok, ok_bind, remaining_eq hend hle, hfree, pure_eq_ok]
    · exact (Set.Ico_subset_Ico_right (by omega)).trans hsub
    · rw [hset', freeSet, hset, Interval.points]
      exact sdiff_union_tail hsub (Nat.le_add_right a size) (Nat.add_le_add_left hle a)

/-- Every step keeps the invariant. -/
theorem Inv.step (h : s.Inv top) (hs : Step s e t) : t.Inv top := by
  cases hs with
  | @alloc size r _ hsize hcall =>
    rcases h.alloc_ok hsize with hnone | ⟨a, s', hok, hinv, -⟩
    · obtain ⟨-, rfl⟩ := Prod.mk.inj (ok_unique hcall hnone.1)
      exact h
    · obtain ⟨-, rfl⟩ := Prod.mk.inj (ok_unique hcall hok)
      exact hinv
  | free hl hcall =>
    obtain ⟨s', hok, hinv, -⟩ := h.free_ok hl
    obtain rfl := ok_unique hcall hok
    exact hinv

/-- The invariant holds in every reachable state. -/
theorem Reachable.inv {maxOrd : ℕ} (hbyte : maxOrd < 2 ^ 8) (h : Reachable maxOrd s) :
    s.Inv maxOrd ∧ maxOrd ≤ maximalOrder := by
  obtain ⟨init, es, hinit, hrun⟩ := h
  have hle : maxOrd ≤ maximalOrder := by
    obtain ⟨b, hb, -⟩ := bind_eq_ok.mp hinit
    exact BuddyImpl.le_of_new_eq_ok hbyte hb
  obtain ⟨init', hnew, hinv⟩ := new_ok hle
  obtain rfl := ok_unique hinit hnew
  exact ⟨hrun.invariant (fun s => s.Inv maxOrd) hinv fun _ _ _ hs hstep => hs.step hstep, hle⟩

/-- States with the invariant and the same free memory are equal. -/
theorem Inv.eq_of_freeSet_eq (hs : s.Inv top) (ht : t.Inv top) (h : s.freeSet = t.freeSet) :
    s = t := by
  have hbuddy := hs.buddy.eq_of_freeSet_eq ht.buddy h
  cases s
  cases t
  simp_all

/-- Allocation takes exactly the requested bytes at an aligned start, or fails without
effect because no aligned free range of the rounded size exists; freeing adds exactly the
interval, and freeing what was allocated restores the state. -/
theorem alloc_free_exact {maxOrd : ℕ} (hbyte : maxOrd < 2 ^ 8) (hs : Reachable maxOrd s) :
    (∀ size < 2 ^ 64,
      (s.alloc size = .ok (none, s) ∧
        ¬∃ a, Nat.clog 2 size ≤ maxOrd ∧ 2 ^ Nat.clog 2 size ∣ a ∧
          Set.Ico a (a + 2 ^ Nat.clog 2 size) ⊆ s.freeSet) ∨
      ∃ ival s', s.alloc size = .ok (some ival, s') ∧
        ival.size = size ∧ ival.points = Set.Ico ival.a (ival.a + size) ∧
        2 ^ Nat.clog 2 size ∣ ival.a ∧ ival.points ⊆ s.freeSet ∧
        s'.freeSet = s.freeSet \ ival.points ∧ s'.free ival = .ok s) ∧
    (∀ ival, s.FreeLegal ival →
      ∃ s', s.free ival = .ok s' ∧ s'.freeSet = s.freeSet ∪ ival.points) := by
  obtain ⟨h, -⟩ := hs.inv hbyte
  constructor
  · intro size hsize
    rcases h.alloc_ok hsize with ⟨hfail, hall⟩ | ⟨a, s', hok, hinv, hend, hdvd, hsub, hset⟩
    · refine Or.inl ⟨hfail, ?_⟩
      rintro ⟨a, ho, hdvd, hsub⟩
      exact h.buddy.no_free_range ho hall ⟨a, hdvd, hsub⟩
    · have hlegal : s'.FreeLegal ⟨a, a + size⟩ := by
        refine ⟨by simp only; omega, hend, ?_⟩
        rw [hset]
        exact Set.disjoint_sdiff_right
      obtain ⟨t, hback, ht, hset'⟩ := hinv.free_ok hlegal
      have hsame : t = s := by
        apply ht.eq_of_freeSet_eq h
        rw [hset', hset]
        exact Set.sdiff_union_of_subset hsub
      refine Or.inr ⟨⟨a, a + size⟩, s', hok, ?_, rfl, hdvd, hsub, hset, hsame ▸ hback⟩
      rw [Interval.size_eq hend]
      simp
  · intro ival hl
    obtain ⟨s', hok, -, hset⟩ := h.free_ok hl
    exact ⟨s', hok, hset⟩

/-- A splitting buddy of maximal order five without memory. -/
def emptyFive : SplittingBuddy := ⟨BuddyImpl.emptyFive⟩

/-- The exactness result while a block of 32 bytes is free: eleven bytes at a multiple of
sixteen are taken and the tail stays free. -/
theorem alloc_free_exact_eleven :
    ∃ s, Reachable 5 s ∧ emptyFive.free ⟨32, 64⟩ = .ok s ∧
      ∃ s', s.alloc 11 = .ok (some ⟨32, 43⟩, s') ∧ s'.free ⟨32, 43⟩ = .ok s := by
  have hnew : new 5 = .ok emptyFive := by decide +kernel
  have hlegal : emptyFive.FreeLegal ⟨32, 64⟩ := by
    refine ⟨by decide, by decide, ?_⟩
    exact (BuddyImpl.emptyFive_freeLegal (by decide) (le_refl 5) (by decide)).disjoint
  have hfree : emptyFive.free ⟨32, 64⟩ = .ok ⟨⟨5, ⟨[∅, ∅, ∅, ∅, ∅, {32}], 5⟩⟩⟩ := by
    decide +kernel
  have hs : Reachable 5 ⟨⟨5, ⟨[∅, ∅, ∅, ∅, ∅, {32}], 5⟩⟩⟩ :=
    ⟨emptyFive, _, hnew, Run.nil.snoc (.free hlegal hfree)⟩
  have halloc : alloc ⟨⟨5, ⟨[∅, ∅, ∅, ∅, ∅, {32}], 5⟩⟩⟩ 11 =
      .ok (some ⟨32, 43⟩, ⟨⟨5, ⟨[{43}, ∅, {44}, ∅, {48}, ∅], 5⟩⟩⟩) := by decide +kernel
  refine ⟨_, hs, hfree, _, halloc, ?_⟩
  rcases (alloc_free_exact (by decide) hs).1 11 (by decide) with hnone |
    ⟨ival, s', hok, -, -, -, -, -, hback⟩
  · rw [halloc] at hnone
    simp at hnone
  · obtain ⟨hival, rfl⟩ := Prod.mk.inj (ok_unique halloc hok)
    obtain rfl := Option.some.inj hival
    exact hback

end SplittingBuddy

end Toyos.Memory
