import Toyos.Memory.SimpleBuddy

/-!
# Claimed memory

The allocation function of a simple buddy is assumed to hand out fresh memory:
what it returns is disjoint from everything it returned before. Free memory and
the live ranges are then disjoint parts of the claimed memory. Allocation, with
or without a refill, and freeing keep this division.
-/

namespace Toyos.Memory

open Toyos.Core Toyos.Util

/-- A stateful allocation function that hands out fresh memory. -/
structure FreshAlloc (ε ω : Type) where
  /-- The call: a state and a size give an address, null on failure, and a new state. -/
  call : ω → ℕ → Except ε (ℕ × ω)
  /-- The memory handed out so far. -/
  claimed : ω → Set ℕ
  /-- A returned range lies in the address space and was not handed out before. -/
  fresh : ∀ {w size p w'}, call w size = .ok (p, w') → p ≠ 0 →
    p + size ≤ 2 ^ 64 ∧ Disjoint (Set.Ico p (p + size)) (claimed w)
  /-- A returned range counts as handed out. -/
  claimed_range : ∀ {w size p w'}, call w size = .ok (p, w') → p ≠ 0 →
    Set.Ico p (p + size) ⊆ claimed w'
  /-- Memory that was handed out stays so. -/
  claimed_mono : ∀ {w size p w'}, call w size = .ok (p, w') → claimed w ⊆ claimed w'

/-- Free memory and the live ranges are disjoint parts of claimed memory. -/
structure Partitioned (top : ℕ) (b : BuddyImpl) (claimed : Set ℕ) (live : List Block) : Prop where
  /-- The buddy is well formed. -/
  buddy : b.Inv top
  /-- Free memory was claimed. -/
  free_claimed : b.freeSet ⊆ claimed
  /-- Live ranges are aligned and not larger than the largest block. -/
  live_aligned : ∀ l ∈ live, l.Aligned ∧ l.ord ≤ top
  /-- Live ranges were claimed and lie in the address space. -/
  live_claimed : ∀ l ∈ live, l.range ⊆ claimed ∧ l.addr < 2 ^ 64
  /-- Live ranges are not free. -/
  live_used : ∀ l ∈ live, Disjoint l.range b.freeSet
  /-- Live ranges do not overlap. -/
  live_disjoint : live.Pairwise fun l m => Disjoint l.range m.range

/-- The live range that an allocation result adds. -/
def granted (order : ℕ) : Option ℕ → List Block
  | none => []
  | some addr => [⟨order, addr⟩]

/-- The orders that are claimed fit the word. -/
theorem SimpleBuddy.claimOrder_lt (order : ℕ) : SimpleBuddy.claimOrder order < 64 := by
  unfold claimOrder clamp minClaimOrder maxClaimOrder pageBits
  split
  · decide
  · split
    · decide
    · omega

namespace Partitioned

variable {top : ℕ} {b : BuddyImpl} {C D : Set ℕ} {l : Block} {live live' : List Block}
  {ε ω : Type} {f : FreshAlloc ε ω} {w : ω}

/-- The order of the live ranges does not matter. -/
theorem perm (h : Partitioned top b C live) (hp : live.Perm live') :
    Partitioned top b C live' where
  buddy := h.buddy
  free_claimed := h.free_claimed
  live_aligned l hl := h.live_aligned l (hp.mem_iff.mpr hl)
  live_claimed l hl := h.live_claimed l (hp.mem_iff.mpr hl)
  live_used l hl := h.live_used l (hp.mem_iff.mpr hl)
  live_disjoint := (hp.pairwise_iff fun hlm => hlm.symm).mp h.live_disjoint

/-- More memory may count as claimed. -/
theorem mono (h : Partitioned top b C live) (hCD : C ⊆ D) : Partitioned top b D live where
  buddy := h.buddy
  free_claimed := h.free_claimed.trans hCD
  live_aligned := h.live_aligned
  live_claimed l hl := ⟨(h.live_claimed l hl).1.trans hCD, (h.live_claimed l hl).2⟩
  live_used := h.live_used
  live_disjoint := h.live_disjoint

/-- An allocation from the buddy moves a range from free memory to the live ranges. -/
theorem alloc_ok (h : Partitioned top b C live) (order : ℕ) :
    b.alloc order = .ok (none, b) ∨
      ∃ a b', b.alloc order = .ok (some a, b') ∧ Partitioned top b' C (⟨order, a⟩ :: live) := by
  rcases h.buddy.alloc_ok order with hnone | ⟨a, b', hok, hb', hle, hdvd, hsub, hset⟩
  · exact Or.inl hnone.1
  · refine Or.inr ⟨a, b', hok, ?_⟩
    have hsub' : b'.freeSet ⊆ b.freeSet := by
      rw [hset]
      exact Set.sdiff_subset
    constructor
    · exact hb'
    · exact hsub'.trans h.free_claimed
    · intro l hl
      cases hl with
      | head => exact ⟨hdvd, hle⟩
      | tail _ hl => exact h.live_aligned l hl
    · intro l hl
      cases hl with
      | head =>
        exact ⟨hsub.trans h.free_claimed, h.buddy.inside (hsub (Block.addr_mem_range ⟨order, a⟩))⟩
      | tail _ hl => exact h.live_claimed l hl
    · intro l hl
      cases hl with
      | head =>
        rw [hset]
        exact Set.disjoint_sdiff_right
      | tail _ hl => exact (h.live_used l hl).mono_right hsub'
    · rw [List.pairwise_cons]
      exact ⟨fun l hl => ((h.live_used l hl).mono_right hsub).symm, h.live_disjoint⟩

/-- A live range can be freed and becomes free memory. -/
theorem free_ok (h : Partitioned top b C (l :: live)) :
    ∃ b', b.free l.addr l.ord = .ok b' ∧ Partitioned top b' C live := by
  obtain ⟨hal, hle⟩ := h.live_aligned l (by simp)
  obtain ⟨hcl, hlt⟩ := h.live_claimed l (by simp)
  have hpair := List.pairwise_cons.mp h.live_disjoint
  obtain ⟨b', hfree, hb', hset⟩ := h.buddy.free_ok hlt hle hal (h.live_used l (by simp))
  refine ⟨b', hfree, ?_⟩
  constructor
  · exact hb'
  · rw [hset]
    exact Set.union_subset h.free_claimed hcl
  · exact fun m hm => h.live_aligned m (by simp [hm])
  · exact fun m hm => h.live_claimed m (by simp [hm])
  · intro m hm
    rw [hset, Set.disjoint_union_right]
    exact ⟨h.live_used m (by simp [hm]), (hpair.1 m hm).symm⟩
  · exact hpair.2

/-- Fresh memory can be reclaimed; an interval that ends the address space adds nothing. -/
theorem reclaim_ok (h : Partitioned top b C live) {p k : ℕ} (hk : k < 64)
    (hend : p + 2 ^ k ≤ 2 ^ 64) (hfresh : Disjoint (Set.Ico p (p + 2 ^ k)) C) (hCD : C ⊆ D)
    (hD : Set.Ico p (p + 2 ^ k) ⊆ D) :
    ∃ b', b.reclaimRange (.fromOrder p k) = .ok b' ∧ Partitioned top b' D live := by
  have hpos := Nat.two_pow_pos k
  have hival : Interval.fromOrder p k = ⟨p, wrap (p + 2 ^ k)⟩ := by
    rw [Interval.fromOrder, Interval.fromSize, wrap_one_shiftLeft hk]
  have hpoints : Interval.points ⟨p, wrap (p + 2 ^ k)⟩ ⊆ Set.Ico p (p + 2 ^ k) :=
    Set.Ico_subset_Ico_right (Nat.mod_le _ _)
  rw [hival]
  obtain ⟨b', hok, hb', hset⟩ := h.buddy.reclaimRange_ok (show p < 2 ^ 64 by omega) (wrap_lt _)
    (hfresh.mono hpoints h.free_claimed)
  refine ⟨b', hok, ?_⟩
  constructor
  · exact hb'
  · rw [hset]
    exact Set.union_subset (h.free_claimed.trans hCD) (hpoints.trans hD)
  · exact h.live_aligned
  · exact fun l hl => ⟨(h.live_claimed l hl).1.trans hCD, (h.live_claimed l hl).2⟩
  · intro l hl
    rw [hset, Set.disjoint_union_right]
    exact ⟨h.live_used l hl, (hfresh.mono hpoints (h.live_claimed l hl).1).symm⟩
  · exact h.live_disjoint

/-- A refill either fails in the allocation function or keeps the division of memory. -/
theorem refill_ok (h : Partitioned top b (f.claimed w) live) (order : ℕ) :
    (∃ e, SimpleBuddy.refill f.call b w order = .error (.allocFunc e)) ∨
      ∃ r b' w', SimpleBuddy.refill f.call b w order = .ok (r, b', w') ∧
        Partitioned top b' (f.claimed w') (granted order r ++ live) := by
  have hk := SimpleBuddy.claimOrder_lt order
  cases hcall : f.call w (2 ^ SimpleBuddy.claimOrder order) with
  | error e =>
    left
    exact ⟨e, by simp [SimpleBuddy.refill, wrap_one_shiftLeft hk, hcall]⟩
  | ok reply =>
    right
    obtain ⟨p, w'⟩ := reply
    by_cases hp : p = 0
    · exact ⟨none, b, w', by simp [SimpleBuddy.refill, wrap_one_shiftLeft hk, hcall, hp],
        h.mono (f.claimed_mono hcall)⟩
    · obtain ⟨hend, hfresh⟩ := f.fresh hcall hp
      obtain ⟨b₁, hreclaim, h₁⟩ := h.reclaim_ok hk hend hfresh (f.claimed_mono hcall)
        (f.claimed_range hcall hp)
      rcases h₁.alloc_ok order with hnone | ⟨a, b₂, hok, h₂⟩
      · exact ⟨none, b₁, w', by
          simp [SimpleBuddy.refill, wrap_one_shiftLeft hk, hcall, hp, hreclaim, hnone], h₁⟩
      · exact ⟨some a, b₂, w', by
          simp [SimpleBuddy.refill, wrap_one_shiftLeft hk, hcall, hp, hreclaim, hok], h₂⟩

/-- An allocation with refill either fails in the allocation function or keeps the division
of memory, with the returned range live. -/
theorem allocBuddy_ok (h : Partitioned top b (f.claimed w) live) (order : ℕ) :
    (∃ e, SimpleBuddy.allocBuddy f.call b w order = .error (.allocFunc e)) ∨
      ∃ r b' w', SimpleBuddy.allocBuddy f.call b w order = .ok (r, b', w') ∧
        Partitioned top b' (f.claimed w') (granted order r ++ live) := by
  rcases h.alloc_ok order with hnone | ⟨a, b', hok, h'⟩
  · have hrefill : SimpleBuddy.allocBuddy f.call b w order =
        SimpleBuddy.refill f.call b w order := by
      simp [SimpleBuddy.allocBuddy, hnone]
    rw [hrefill]
    exact h.refill_ok order
  · exact Or.inr ⟨some a, b', w, by simp [SimpleBuddy.allocBuddy, hok], h'⟩

end Partitioned

end Toyos.Memory
