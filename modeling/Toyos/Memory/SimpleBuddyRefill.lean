import Toyos.Memory.SimpleBuddyRuns

/-!
# The refill of the simple buddy

A claimed range of twice the requested size contains a naturally aligned range of
the requested size, wherever it starts, and free memory with such a range serves
the request. The second attempt of `alloc` therefore succeeds in every run. What
it returns may still be trapped: the merged block may begin at an address whose
entry a free through the proxy left in the map.
-/

namespace Toyos.Memory

open Toyos.Core Toyos.Util

/-- The claimed range is at least twice as large as the requested one. -/
theorem SimpleBuddy.succ_le_claimOrder {order : ℕ} (h : order ≤ 62) :
    order + 1 ≤ claimOrder order := by
  rw [claimOrder, Nat.mod_eq_of_lt (by omega)]
  unfold clamp minClaimOrder maxClaimOrder pageBits
  split
  · omega
  · split <;> omega

/-- A range of twice the size contains a naturally aligned range, wherever it starts. -/
theorem exists_aligned {p order k : ℕ} (hk : order + 1 ≤ k) :
    ∃ a, 2 ^ order ∣ a ∧ Set.Ico a (a + 2 ^ order) ⊆ Set.Ico p (p + 2 ^ k) := by
  have hpos := Nat.two_pow_pos order
  have htwice : 2 * 2 ^ order ≤ 2 ^ k := by
    rw [← pow_succ']
    exact Nat.pow_le_pow_right (by decide) hk
  refine ⟨(p + (2 ^ order - 1)) / 2 ^ order * 2 ^ order, Nat.dvd_mul_left _ _, ?_⟩
  have hdiv := Nat.div_add_mod (p + (2 ^ order - 1)) (2 ^ order)
  have hmod := Nat.mod_lt (p + (2 ^ order - 1)) hpos
  rw [Nat.mul_comm] at hdiv
  exact Set.Ico_subset_Ico (by omega) (by omega)

namespace BuddyImpl

variable {top : ℕ} {s : BuddyImpl}

/-- After a range of twice the size was reclaimed, an allocation succeeds. -/
theorem Inv.alloc_after_reclaim (h : s.Inv top) {order k p : ℕ} (ho : order ≤ top)
    (hk : order + 1 ≤ k) (hword : k < 64) (hend : p + 2 ^ k < 2 ^ 64)
    (hfresh : Disjoint (Set.Ico p (p + 2 ^ k)) s.freeSet) :
    ∃ s' a s'', s.reclaimRange (.fromOrder p k) = .ok s' ∧ s'.alloc order = .ok (some a, s'') := by
  have hival : Interval.fromOrder p k = ⟨p, p + 2 ^ k⟩ := by
    rw [Interval.fromOrder, Interval.fromSize, wrap_one_shiftLeft hword, wrap_of_lt hend]
  rw [hival]
  obtain ⟨s', hreclaim, hs', hset⟩ := h.reclaimRange_ok
    (show p < 2 ^ 64 from lt_of_le_of_lt (Nat.le_add_right p _) hend) hend
    (show Disjoint (Interval.points ⟨p, p + 2 ^ k⟩) s.freeSet from hfresh)
  obtain ⟨a, hdvd, hsub⟩ := exists_aligned (p := p) hk
  have hfree : Set.Ico a (a + 2 ^ order) ⊆ s'.freeSet := by
    rw [hset]
    exact hsub.trans Set.subset_union_right
  rcases hs'.alloc_ok order with hnone | ⟨a', s'', hok, -⟩
  · exact absurd ⟨a, hdvd, hfree⟩ (hs'.no_free_range ho hnone.2)
  · exact ⟨s', a', s'', hreclaim, hok⟩

end BuddyImpl

namespace Partitioned

variable {top : ℕ} {b : BuddyImpl} {C : Set ℕ} {live : List Block} {ε ω : Type}
  {call : ω → ℕ → Except ε (ℕ × ω)} {w w' : ω} {order p : ℕ}

/-- Free memory and the live ranges are all that has to count as claimed. -/
theorem held (h : Partitioned top b C live) :
    Partitioned top b (b.freeSet ∪ {x | ∃ l ∈ live, x ∈ l.range}) live where
  buddy := h.buddy
  free_claimed := Set.subset_union_left
  live_aligned := h.live_aligned
  live_claimed l hl := ⟨fun _ hx => Or.inr ⟨l, hl, hx⟩, (h.live_claimed l hl).2⟩
  live_used := h.live_used
  live_disjoint := h.live_disjoint

/-- A refill with fresh memory serves the request. -/
theorem refill_some (h : Partitioned top b C live) (ho : order ≤ top) (hword : order ≤ 62)
    (hcall : call w (2 ^ SimpleBuddy.claimOrder order) = .ok (p, w')) (hp : p ≠ 0)
    (hend : p + 2 ^ SimpleBuddy.claimOrder order < 2 ^ 64)
    (hfresh : Disjoint (Set.Ico p (p + 2 ^ SimpleBuddy.claimOrder order)) C) :
    ∃ a b', SimpleBuddy.refill call b w order = .ok (some a, b', w') ∧
      (⟨order, a⟩ :: live).Pairwise fun l m => Disjoint l.range m.range := by
  have hk := SimpleBuddy.claimOrder_lt order
  obtain ⟨b₁, a, b₂, hreclaim, halloc⟩ := h.buddy.alloc_after_reclaim ho
    (SimpleBuddy.succ_le_claimOrder hword) hk hend (hfresh.mono_right h.free_claimed)
  obtain ⟨b₁', hreclaim', h₁⟩ := h.reclaim_ok hk hend.le hfresh Set.subset_union_left
    Set.subset_union_right
  obtain rfl := ok_unique hreclaim hreclaim'
  rcases h₁.alloc_ok order with hnone | ⟨a', b₂', hok, h₂⟩
  · simp [halloc] at hnone
  · refine ⟨a', b₂', ?_, h₂.live_disjoint⟩
    simp [SimpleBuddy.refill, wrap_one_shiftLeft hk, hcall, hp, hreclaim, hok]

/-- With fresh memory behind it, an allocation is served, by the buddy or after a refill. -/
theorem allocBuddy_some (h : Partitioned top b C live) (ho : order ≤ top) (hword : order ≤ 62)
    (hcall : call w (2 ^ SimpleBuddy.claimOrder order) = .ok (p, w')) (hp : p ≠ 0)
    (hend : p + 2 ^ SimpleBuddy.claimOrder order < 2 ^ 64)
    (hfresh : Disjoint (Set.Ico p (p + 2 ^ SimpleBuddy.claimOrder order)) C) :
    ∃ a b' w'', SimpleBuddy.allocBuddy call b w order = .ok (some a, b', w'') ∧
      (⟨order, a⟩ :: live).Pairwise fun l m => Disjoint l.range m.range := by
  rcases h.alloc_ok order with hnone | ⟨a, b', hok, h'⟩
  · obtain ⟨a, b', hrefill, hlive⟩ := h.refill_some ho hword hcall hp hend hfresh
    exact ⟨a, b', w', by simpa [SimpleBuddy.allocBuddy, hnone] using hrefill, hlive⟩
  · exact ⟨a, b', w, by simp [SimpleBuddy.allocBuddy, hok], h'.live_disjoint⟩

end Partitioned

/-- A served request returns its address if the map has no entry for it. -/
theorem SimpleBuddy.alloc_of_notMem {ε ω : Type} {call : ω → ℕ → Except ε (ℕ × ω)}
    {s : SimpleBuddy} {w w' : ω} {order a : ℕ} {b : BuddyImpl}
    (h : allocBuddy call s.buddy w order = .ok (some a, b, w')) (hnew : a ∉ s.allocMap) :
    s.alloc call w order = .ok (some a, ⟨b, s.allocMap.insert a order⟩, w') := by
  simp [SimpleBuddy.alloc, h, hnew]

namespace Tracked

variable {ε ω : Type}

/-- The memory that was given to the pool: it is free or part of a live allocation. -/
def pool (t : Tracked ω) : Set ℕ :=
  t.impl.buddy.freeSet ∪ {x | ∃ l ∈ t.live, x ∈ l.range}

/-- What the pool holds was claimed. -/
theorem Inv.pool_subset {f : FreshAlloc ε ω} {top : ℕ} {t : Tracked ω} (h : t.Inv top f) :
    t.pool ⊆ f.claimed t.world := by
  rintro x (hx | ⟨l, hl, hx⟩)
  · exact h.memory.free_claimed hx
  · exact (h.memory.live_claimed l hl).1 hx

/-- Memory that the allocation function returns is disjoint from the pool. -/
theorem Inv.fresh_pool {f : FreshAlloc ε ω} {top : ℕ} {t : Tracked ω} (h : t.Inv top f)
    {size p : ℕ} {w' : ω} (hcall : f.call t.world size = .ok (p, w')) (hp : p ≠ 0) :
    Disjoint (Set.Ico p (p + size)) t.pool :=
  (f.fresh hcall hp).2.mono_right h.pool_subset

/-- With an exact map, a range that is disjoint from the live ranges has no entry. -/
theorem MapExact.notMem {t : Tracked ω} (h : t.MapExact) {order a : ℕ}
    (hlive : (⟨order, a⟩ :: t.live).Pairwise fun l m => Disjoint l.range m.range) :
    a ∉ t.impl.allocMap := by
  intro hmem
  obtain ⟨o, ho⟩ := Finmap.mem_iff.mp hmem
  have hdisj := (List.pairwise_cons.mp hlive).1 _ ((h a o).mp ho)
  exact Block.addr_ne_of_disjoint hdisj rfl

/-- In every run fresh memory lets the second attempt succeed, and the call returns an address
unless an earlier call freed through the two-argument proxy. -/
theorem refill_sufficient {f : FreshAlloc ε ω} {maxOrd : ℕ} (hbyte : maxOrd < 2 ^ 8)
    {s : SimpleBuddy} {w : ω} {es : List SimpleEvent} {t : Tracked ω}
    (hnew : SimpleBuddy.new maxOrd true = (.ok s : Except (SimpleBuddyFault ε) SimpleBuddy))
    (hrun : Run (Step f) ⟨s, w, []⟩ es t) {order : ℕ} (ho : order ≤ maxOrd)
    (hword : order ≤ 62) {call : ω → ℕ → Except ε (ℕ × ω)} {p : ℕ} {w' : ω}
    (hcall : call t.world (2 ^ SimpleBuddy.claimOrder order) = .ok (p, w')) (hp : p ≠ 0)
    (hend : p + 2 ^ SimpleBuddy.claimOrder order < 2 ^ 64)
    (hfresh : Disjoint (Set.Ico p (p + 2 ^ SimpleBuddy.claimOrder order)) t.pool) :
    (∃ a b', SimpleBuddy.refill call t.impl.buddy t.world order = .ok (some a, b', w')) ∧
      ((∀ e ∈ es, e.isProxy = false) →
        ∃ a s' w'', t.impl.alloc call t.world order = .ok (some a, s', w'')) := by
  obtain ⟨hinit, hstart⟩ := new_inv hbyte hnew w
  obtain ⟨hinv, hstale⟩ := hinit.run hstart hrun
  have hheld := hinv.memory.held
  obtain ⟨a, b', hrefill, -⟩ := hheld.refill_some ho hword hcall hp hend hfresh
  refine ⟨⟨a, b', hrefill⟩, fun hproxy => ?_⟩
  obtain ⟨c, b'', w'', hserved, hlive⟩ := hheld.allocBuddy_some ho hword hcall hp hend hfresh
  have hexact : t.MapExact := by
    rw [hinv.mapExact_iff, hstale]
    simpa using hproxy
  exact ⟨c, _, w'', SimpleBuddy.alloc_of_notMem hserved (hexact.notMem hlive)⟩

/-- A state of `bump` reached from a new simple buddy of maximal order thirteen. -/
theorem thirteen_inv {w : ℕ} {es : List SimpleEvent} {t : Tracked ℕ}
    (hrun : Run (Step bump) ⟨emptyThirteen, w, []⟩ es t) : t.Inv 13 bump :=
  ((new_inv (by decide) new_thirteen w).1.run (new_inv (f := bump) (by decide) new_thirteen w).2
    hrun).1

/-- With half a block free, a request for a whole block is served by a refill. -/
theorem refill_sufficient_half :
    Run (Step bump) ⟨emptyThirteen, 65536, []⟩ [.alloc 12 (some 65536)]
      ⟨halfThirteen, 73728, [⟨12, 65536⟩]⟩ ∧
    (∃ a b', SimpleBuddy.refill bump.call halfThirteen.buddy 73728 13 =
      .ok (some a, b', 90112)) ∧
    ∃ a s' w', halfThirteen.alloc bump.call 73728 13 = .ok (some a, s', w') := by
  have hcall : bump.call 73728 (2 ^ SimpleBuddy.claimOrder 13) = .ok (73728, 90112) := by
    decide +kernel
  have hfresh := (thirteen_inv halfThirteen_run).fresh_pool hcall (by decide)
  obtain ⟨hrefill, hserved⟩ := refill_sufficient (by decide) new_thirteen halfThirteen_run
    (le_refl 13) (by decide) hcall (by decide) (by decide) hfresh
  exact ⟨halfThirteen_run, hrefill, hserved (by simp [SimpleEvent.isProxy])⟩

/-- The lower half of a claimed range that is aligned to pages only is allocated. -/
def lowerThirteen : SimpleBuddy :=
  ⟨⟨13, ⟨List.replicate 12 ∅ ++ [{73728}, ∅], 13⟩⟩, Finmap.insert 69632 12 ∅⟩

/-- Both halves of the range are allocated. -/
def bothThirteen : SimpleBuddy :=
  ⟨⟨13, ⟨List.replicate 14 ∅, 13⟩⟩, Finmap.insert 73728 12 (Finmap.insert 69632 12 ∅)⟩

/-- Both halves were allocated and the upper one was freed through the proxy. -/
def staleThirteen : SimpleBuddy := ⟨lowerThirteen.buddy, bothThirteen.allocMap⟩

theorem staleThirteen_run :
    Run (Step bump) ⟨emptyThirteen, 69632, []⟩
      [.alloc 12 (some 69632), .alloc 12 (some 73728), .freeOrder 73728 12]
      ⟨staleThirteen, 77824, [⟨12, 69632⟩]⟩ := by
  have hlower : emptyThirteen.alloc bump.call 69632 12 =
      .ok (some 69632, lowerThirteen, 77824) := by decide +kernel
  have hupper : lowerThirteen.alloc bump.call 77824 12 =
      .ok (some 73728, bothThirteen, 77824) := by decide +kernel
  have hfree : bothThirteen.freeOrder 73728 12 =
      (.ok staleThirteen : Except (SimpleBuddyFault Empty) SimpleBuddy) := by decide +kernel
  have hone : Run (Step bump) ⟨emptyThirteen, 69632, []⟩ [.alloc 12 (some 69632)]
      ⟨lowerThirteen, 77824, [⟨12, 69632⟩]⟩ := Run.nil.snoc (.alloc (by decide) hlower)
  have htwo : Run (Step bump) ⟨emptyThirteen, 69632, []⟩
      [.alloc 12 (some 69632), .alloc 12 (some 73728)]
      ⟨bothThirteen, 77824, [⟨12, 73728⟩, ⟨12, 69632⟩]⟩ := hone.snoc (.alloc (by decide) hupper)
  have hlast := htwo.snoc (.freeOrder (l := ⟨12, 73728⟩) (by simp) hfree)
  rwa [List.erase_cons_head] at hlast

/-- The refill merges fresh memory with the free upper half, and the merged block begins at the
address whose entry is stale: the request is trapped. -/
theorem refilled_alloc_trapped :
    ¬∀ s es t order p w', SimpleBuddy.new 13 true =
        (.ok s : Except (SimpleBuddyFault Empty) SimpleBuddy) →
      Run (Step bump) ⟨s, 69632, []⟩ es t → order ≤ 13 → order ≤ 62 →
      bump.call t.world (2 ^ SimpleBuddy.claimOrder order) = .ok (p, w') → p ≠ 0 →
      p + 2 ^ SimpleBuddy.claimOrder order < 2 ^ 64 →
      Disjoint (Set.Ico p (p + 2 ^ SimpleBuddy.claimOrder order)) t.pool →
      ∃ a s' w'', t.impl.alloc bump.call t.world order = .ok (some a, s', w'') := by
  intro h
  have hcall : bump.call 77824 (2 ^ SimpleBuddy.claimOrder 13) = .ok (77824, 94208) := by
    decide +kernel
  have htrap : staleThirteen.alloc bump.call 77824 13 = .error .addressInMap := by
    decide +kernel
  have hfresh := (thirteen_inv staleThirteen_run).fresh_pool hcall (by decide)
  obtain ⟨a, s', w'', hok⟩ := h _ _ _ 13 77824 94208 new_thirteen staleThirteen_run
    (by decide) (by decide) hcall (by decide) (by decide) hfresh
  simp [htrap] at hok

end Tracked

end Toyos.Memory
