import Toyos.Core.Run
import Toyos.Memory.BuddyRefinement
import Mathlib.Order.Interval.Set.Disjoint

/-!
# Runs of the buddy allocator

A run starts with an empty buddy and performs allocations and frees in any
order. A free is legal when the range is naturally aligned, not larger than the
maximal order and disjoint from the memory that is free at that moment. Every
reached state stores a canonical tiling; the results on conservation, complete
coalescing and canonicity follow from the tiling alone.
-/

namespace Toyos.Memory

open Toyos.Core Toyos.Util

/-- What one call did. -/
inductive BuddyEvent
  /-- A call of `alloc` and its result. -/
  | alloc (order : ℕ) (result : Option ℕ)
  /-- A call of `free`. -/
  | free (addr order : ℕ)
  deriving DecidableEq, Repr

namespace BuddyEvent

/-- The addresses that the call handed out. -/
def taken : BuddyEvent → Set ℕ
  | .alloc order (some a) => Set.Ico a (a + 2 ^ order)
  | .alloc _ none => ∅
  | .free _ _ => ∅

/-- The addresses that the call gave back. -/
def given : BuddyEvent → Set ℕ
  | .alloc _ _ => ∅
  | .free addr order => Set.Ico addr (addr + 2 ^ order)

end BuddyEvent

namespace BuddyImpl

/-- The addresses stored for one order. -/
def freeBlocks (s : BuddyImpl) (k : ℕ) : Finset ℕ := s.blocks.freeBlocks.getD k ∅

theorem mem_freeBlocks {s : BuddyImpl} {k a : ℕ} :
    a ∈ s.freeBlocks k ↔ ⟨k, a⟩ ∈ s.blocks.blockSet := by
  simp only [freeBlocks, HeapBlockManager.blockSet, Set.mem_ofPred_eq, List.getD_eq_getElem?_getD]
  cases s.blocks.freeBlocks[k]? with
  | none => simp
  | some t => simp

/-- A range that may be freed in a state. -/
structure FreeLegal (s : BuddyImpl) (addr order : ℕ) : Prop where
  /-- The address is a 64-bit value. -/
  addr_lt : addr < 2 ^ 64
  /-- The range is not larger than the largest block. -/
  order_le : order ≤ s.maxOrder
  /-- The range is naturally aligned. -/
  aligned : 2 ^ order ∣ addr
  /-- No part of the range is free. -/
  disjoint : Disjoint (Set.Ico addr (addr + 2 ^ order)) s.freeSet

/-- One call that returns: an allocation, or a legal free. -/
inductive Step : BuddyImpl → BuddyEvent → BuddyImpl → Prop
  | alloc {s order r s'} : s.alloc order = .ok (r, s') → Step s (.alloc order r) s'
  | free {s addr order s'} : s.FreeLegal addr order → s.free addr order = .ok s' →
      Step s (.free addr order) s'

/-- The states reached from an empty buddy of the given maximal order. -/
def Reachable (maxOrd : ℕ) (s : BuddyImpl) : Prop :=
  ∃ init es, new maxOrd = .ok init ∧ Run Step init es s

variable {top : ℕ} {s t : BuddyImpl} {e : BuddyEvent} {es : List BuddyEvent}

/-- A legal free succeeds. -/
theorem Inv.free_legal (h : s.Inv top) {addr order : ℕ} (hl : s.FreeLegal addr order) :
    ∃ s', s.free addr order = .ok s' ∧ s'.Inv top ∧
      s'.freeSet = s.freeSet ∪ Set.Ico addr (addr + 2 ^ order) :=
  h.free_ok hl.addr_lt (h.maxOrder_eq ▸ hl.order_le) hl.aligned hl.disjoint

/-- Every step keeps the invariant and moves exactly the recorded addresses. -/
theorem Inv.step (h : s.Inv top) (hs : Step s e t) :
    t.Inv top ∧ e.taken ⊆ s.freeSet ∧ t.freeSet = (s.freeSet \ e.taken) ∪ e.given := by
  cases hs with
  | @alloc order r _ hcall =>
    rcases h.alloc_ok order with ⟨hfail, -⟩ | ⟨a, s', hok, hinv, -, -, hsub, hfree⟩
    · obtain ⟨rfl, rfl⟩ := Prod.mk.inj (ok_unique hcall hfail)
      exact ⟨h, by simp [BuddyEvent.taken], by simp [BuddyEvent.taken, BuddyEvent.given]⟩
    · obtain ⟨rfl, rfl⟩ := Prod.mk.inj (ok_unique hcall hok)
      exact ⟨hinv, hsub, by simp [BuddyEvent.taken, BuddyEvent.given, hfree]⟩
  | free hl hcall =>
    obtain ⟨s', hok, hinv, hfree⟩ := h.free_legal hl
    obtain rfl := ok_unique hcall hok
    exact ⟨hinv, by simp [BuddyEvent.taken], by simp [BuddyEvent.taken, BuddyEvent.given, hfree]⟩

/-- The invariant holds along every run. -/
theorem Inv.run (h : s.Inv top) (hrun : Run Step s es t) : t.Inv top :=
  hrun.invariant (fun s => s.Inv top) h fun _ _ _ hs hstep => (hs.step hstep).1

/-- The invariant holds in every reachable state. -/
theorem Reachable.inv (htop : top ≤ maximalOrder) (h : Reachable top s) : s.Inv top := by
  obtain ⟨init, es, hinit, hrun⟩ := h
  obtain ⟨init', hnew, hinv, -⟩ := new_ok htop
  obtain rfl := ok_unique hinit hnew
  exact hinv.run hrun

/-- The constructor accepts an eight-bit order only up to the maximum. -/
theorem le_of_new_eq_ok {maxOrd : ℕ} (hbyte : maxOrd < 2 ^ 8) (h : new maxOrd = .ok s) :
    maxOrd ≤ maximalOrder := by
  have hmod : maxOrd % 256 = maxOrd := Nat.mod_eq_of_lt hbyte
  by_contra hgt
  simp [new, HeapBlockManager.new, hmod, hgt] at h

/-- An address that is free stays free until a call hands it out. -/
theorem Inv.free_of_not_taken (h : s.Inv top) (hrun : Run Step s es t) {x : ℕ}
    (hx : x ∈ s.freeSet) (hnot : ∀ e ∈ es, x ∉ e.taken) : x ∈ t.freeSet := by
  refine (hrun.invariant_of_good (fun u => u.Inv top ∧ x ∈ u.freeSet) (fun e => x ∈ e.taken)
    ⟨h, hx⟩ ?_ hnot).2
  rintro u e v ⟨hu, hfree⟩ hstep htaken
  obtain ⟨hv, -, hset⟩ := hu.step hstep
  exact ⟨hv, hset ▸ Or.inl ⟨hfree, htaken⟩⟩

/-- An address that is not free stays so until a call gives it back. -/
theorem Inv.not_free_of_not_given (h : s.Inv top) (hrun : Run Step s es t) {x : ℕ}
    (hx : x ∉ s.freeSet) (hnot : ∀ e ∈ es, x ∉ e.given) : x ∉ t.freeSet := by
  refine (hrun.invariant_of_good (fun u => u.Inv top ∧ x ∉ u.freeSet) (fun e => x ∈ e.given)
    ⟨h, hx⟩ ?_ hnot).2
  rintro u e v ⟨hu, hfree⟩ hstep hgiven
  obtain ⟨hv, -, hset⟩ := hu.step hstep
  refine ⟨hv, ?_⟩
  rw [hset]
  rintro (⟨hmem, -⟩ | hmem)
  · exact hfree hmem
  · exact hgiven hmem

/-- States with the invariant and the same free memory are equal. -/
theorem Inv.eq_of_freeSet_eq (hs : s.Inv top) (ht : t.Inv top) (h : s.freeSet = t.freeSet) :
    s = t := by
  have hset := hs.canonical.eq_of_cover_eq ht.canonical h
  have hblocks := hs.represents.unique (hset ▸ ht.represents)
  have hmax := hs.maxOrder_eq.trans ht.maxOrder_eq.symm
  cases s
  cases t
  simp_all

/-- A buddy of maximal order five without memory. -/
def emptyFive : BuddyImpl := ⟨5, ⟨[∅, ∅, ∅, ∅, ∅, ∅], 5⟩⟩

/-- A small reachable state: the upper half of one block is free. -/
def halfFree : BuddyImpl := ⟨5, ⟨[∅, ∅, ∅, ∅, {48}, ∅], 5⟩⟩

theorem new_five : new 5 = .ok emptyFive := by decide +kernel

/-- Every aligned range of the small orders may be freed into the empty buddy. -/
theorem emptyFive_freeLegal {addr order : ℕ} (haddr : addr < 2 ^ 64) (ho : order ≤ 5)
    (ha : 2 ^ order ∣ addr) : emptyFive.FreeLegal addr order := by
  obtain ⟨init, hinit, -, hempty⟩ := new_ok (show 5 ≤ maximalOrder by decide)
  rw [new_five] at hinit
  simp only [Except.ok.injEq] at hinit
  subst hinit
  exact ⟨haddr, ho, ha, hempty ▸ Set.disjoint_empty _⟩

/-- The run that frees one block and takes its lower half. -/
theorem halfFree_run : Run Step emptyFive [.free 32 5, .alloc 4 (some 32)] halfFree := by
  have hfree : emptyFive.free 32 5 = .ok ⟨5, ⟨[∅, ∅, ∅, ∅, ∅, {32}], 5⟩⟩ := by decide +kernel
  have halloc : BuddyImpl.alloc ⟨5, ⟨[∅, ∅, ∅, ∅, ∅, {32}], 5⟩⟩ 4 = .ok (some 32, halfFree) := by
    decide +kernel
  have hlegal := emptyFive_freeLegal (show 32 < 2 ^ 64 by decide) le_rfl (by decide)
  exact (Run.nil.snoc (.free hlegal hfree)).snoc (.alloc halloc)

theorem halfFree_reachable : Reachable 5 halfFree :=
  ⟨emptyFive, _, new_five, halfFree_run⟩

/-- Free blocks of every order are aligned and pairwise disjoint, no two buddies below the
maximal order are both free, and no call of a legal run stops at an assertion. -/
theorem reachable_tiling {maxOrd : ℕ} (hmax : maxOrd ≤ 63) :
    (∃ init, new maxOrd = .ok init) ∧ ∀ s, Reachable maxOrd s →
      (∀ k, ∀ a ∈ s.freeBlocks k, 2 ^ k ∣ a) ∧
      (∀ k l, ∀ a ∈ s.freeBlocks k, ∀ b ∈ s.freeBlocks l, (k, a) ≠ (l, b) →
        Disjoint (Set.Ico a (a + 2 ^ k)) (Set.Ico b (b + 2 ^ l))) ∧
      (∀ k < maxOrd, ∀ a ∈ s.freeBlocks k, a ^^^ 2 ^ k ∉ s.freeBlocks k) ∧
      (∀ order, ∃ r s', s.alloc order = .ok (r, s')) ∧
      (∀ addr order, s.FreeLegal addr order → ∃ s', s.free addr order = .ok s') := by
  refine ⟨(new_ok hmax).imp fun _ h => h.1, fun s hs => ?_⟩
  have h := hs.inv hmax
  refine ⟨?_, ?_, ?_, ?_, ?_⟩
  · intro k a ha
    exact h.canonical.aligned _ (mem_freeBlocks.mp ha)
  · intro k l a ha b hb hne
    refine h.canonical.disjoint (mem_freeBlocks.mp ha) (mem_freeBlocks.mp hb) fun he => hne ?_
    simpa using he
  · intro k hk a ha hb
    exact h.canonical.joined _ (mem_freeBlocks.mp ha) hk (mem_freeBlocks.mp hb)
  · intro order
    rcases h.alloc_ok order with hnone | ⟨a, s', hok, -⟩
    · exact ⟨none, s, hnone.1⟩
    · exact ⟨some a, s', hok⟩
  · intro addr order hl
    obtain ⟨s', hok, -⟩ := h.free_legal hl
    exact ⟨s', hok⟩

/-- The tiling result at a state in which one half of a block is in use. -/
theorem reachable_tiling_halfFree : Reachable 5 halfFree ∧ halfFree.freeBlocks 4 = {48} ∧
    (48 ^^^ 2 ^ 4 ∉ halfFree.freeBlocks 4) ∧ (∃ r s', halfFree.alloc 3 = .ok (r, s')) := by
  obtain ⟨-, h⟩ := reachable_tiling (show 5 ≤ 63 by decide)
  obtain ⟨-, -, hbuddy, halloc, -⟩ := h halfFree halfFree_reachable
  exact ⟨halfFree_reachable, by decide +kernel, hbuddy 4 (by decide) 48 (by decide +kernel),
    halloc 3⟩

/-- An address that is taken twice is given back in between. -/
theorem Inv.given_between (h : s.Inv top) {pre mid post : List BuddyEvent} {e e' : BuddyEvent}
    {x : ℕ} (hrun : Run Step s (pre ++ e :: (mid ++ e' :: post)) t) (hx : x ∈ e.taken)
    (hx' : x ∈ e'.taken) : ∃ f ∈ mid, x ∈ f.given := by
  by_contra hnone
  push Not at hnone
  obtain ⟨u, hpre, hrest⟩ := hrun.split
  obtain ⟨u', hfirst, hrest⟩ := hrest.cons_inv
  obtain ⟨v, hmid, hrest⟩ := hrest.split
  obtain ⟨v', hsecond, -⟩ := hrest.cons_inv
  obtain ⟨hu', -, hfree⟩ := (h.run hpre).step hfirst
  have hgone : x ∉ u'.freeSet := by
    rw [hfree]
    cases e with
    | alloc order r => simp [BuddyEvent.given, hx]
    | free addr order => simp [BuddyEvent.taken] at hx
  exact hu'.not_free_of_not_given hmid hgone hnone (((hu'.run hmid).step hsecond).2.1 hx')

/-- An address that is given back stays free until it is taken. -/
theorem Inv.not_lost (h : s.Inv top) {pre post : List BuddyEvent} {e : BuddyEvent} {x : ℕ}
    (hrun : Run Step s (pre ++ e :: post) t) (hx : x ∈ e.given) (hnot : ∀ f ∈ post, x ∉ f.taken) :
    x ∈ t.freeSet := by
  obtain ⟨u, hpre, hrest⟩ := hrun.split
  obtain ⟨u', hfirst, hrest⟩ := hrest.cons_inv
  obtain ⟨hu', -, hfree⟩ := (h.run hpre).step hfirst
  exact hu'.free_of_not_taken hrest (hfree ▸ Or.inr hx) hnot

/-- Memory conservation: allocation removes exactly the returned range from free memory or
changes nothing, freeing adds exactly the freed range, no address is handed out twice
without being given back in between, and no address that was given back is lost. -/
theorem run_conserves_memory {maxOrd : ℕ} (hmax : maxOrd ≤ 63) {init s : BuddyImpl}
    {es : List BuddyEvent} (hinit : new maxOrd = .ok init) (hrun : Run Step init es s) :
    (∀ order, s.alloc order = .ok (none, s) ∨ ∃ a s', s.alloc order = .ok (some a, s') ∧
      2 ^ order ∣ a ∧ Set.Ico a (a + 2 ^ order) ⊆ s.freeSet ∧
      s'.freeSet = s.freeSet \ Set.Ico a (a + 2 ^ order)) ∧
    (∀ addr order, s.FreeLegal addr order → ∃ s', s.free addr order = .ok s' ∧
      s'.freeSet = s.freeSet ∪ Set.Ico addr (addr + 2 ^ order)) ∧
    (∀ pre mid post e e' x, es = pre ++ e :: (mid ++ e' :: post) → x ∈ e.taken → x ∈ e'.taken →
      ∃ f ∈ mid, x ∈ f.given) ∧
    (∀ pre post e x, es = pre ++ e :: post → x ∈ e.given → (∀ f ∈ post, x ∉ f.taken) →
      x ∈ s.freeSet) := by
  have h := Reachable.inv hmax ⟨init, es, hinit, hrun⟩
  have hinv := Reachable.inv hmax ⟨init, [], hinit, .nil⟩
  refine ⟨?_, ?_, ?_, ?_⟩
  · intro order
    rcases h.alloc_ok order with hnone | ⟨a, s', hok, -, -, hdvd, hsub, hfree⟩
    · exact Or.inl hnone.1
    · exact Or.inr ⟨a, s', hok, hdvd, hsub, hfree⟩
  · intro addr order hl
    obtain ⟨s', hok, -, hfree⟩ := h.free_legal hl
    exact ⟨s', hok, hfree⟩
  · rintro pre mid post e e' x rfl hx hx'
    exact hinv.given_between hrun hx hx'
  · rintro pre post e x rfl hx hnot
    exact hinv.not_lost hrun hx hnot

/-- Conservation at the sample run: the lower half that was taken is not free, and the upper
half, which was given back and not taken, is. -/
theorem run_conserves_memory_halfFree : new 5 = .ok emptyFive ∧
    Run Step emptyFive [.free 32 5, .alloc 4 (some 32)] halfFree ∧ 48 ∈ halfFree.freeSet := by
  obtain ⟨-, -, -, hlost⟩ := run_conserves_memory (show 5 ≤ 63 by decide) new_five halfFree_run
  exact ⟨new_five, halfFree_run, hlost [] [.alloc 4 (some 32)] (.free 32 5) 48 rfl
    (by simp [BuddyEvent.given]) (by simp [BuddyEvent.taken])⟩

/-- When every stored block is smaller than an order, no aligned range of that order is
entirely free. -/
theorem Inv.no_free_range (h : s.Inv top) {order : ℕ} (ho : order ≤ top)
    (hall : ∀ b ∈ s.blocks.blockSet, b.ord < order) :
    ¬∃ a, 2 ^ order ∣ a ∧ Set.Ico a (a + 2 ^ order) ⊆ s.freeSet := by
  rintro ⟨a, hdvd, hsub⟩
  obtain ⟨c, hc, hle, -⟩ := h.canonical.exists_block (b := ⟨order, a⟩) hdvd ho hsub
  exact absurd (hall c hc) (not_lt.mpr hle)

/-- Coalescing is complete: an allocation fails exactly when no aligned range of its size is
entirely free. -/
theorem alloc_fails_iff {maxOrd : ℕ} (hmax : maxOrd ≤ 63) {s : BuddyImpl}
    (hs : Reachable maxOrd s) {order : ℕ} (ho : order ≤ maxOrd) :
    (∃ s', s.alloc order = .ok (none, s')) ↔
      ¬∃ a, 2 ^ order ∣ a ∧ Set.Ico a (a + 2 ^ order) ⊆ s.freeSet := by
  have h := hs.inv hmax
  constructor
  · rintro ⟨s', hfail⟩
    rcases h.alloc_ok order with hnone | ⟨a', s'', hok, -⟩
    · exact h.no_free_range ho hnone.2
    · rw [hfail] at hok
      simp at hok
  · intro hnone
    rcases h.alloc_ok order with hfail | ⟨a, s', -, -, -, hdvd, hsub, -⟩
    · exact ⟨s, hfail.1⟩
    · exact absurd ⟨a, hdvd, hsub⟩ hnone

/-- The sample state has no free aligned range of the maximal order. -/
theorem alloc_fails_iff_halfFree : Reachable 5 halfFree ∧
    ¬∃ a, 2 ^ 5 ∣ a ∧ Set.Ico a (a + 2 ^ 5) ⊆ halfFree.freeSet :=
  ⟨halfFree_reachable, (alloc_fails_iff (show 5 ≤ 63 by decide) halfFree_reachable le_rfl).mp
    ⟨halfFree, by decide +kernel⟩⟩

/-- Free a list of ranges one after another. -/
def freeAll (s : BuddyImpl) (ranges : List Block) : Except BuddyFault BuddyImpl :=
  ranges.foldlM (fun s b => s.free b.addr b.ord) s

/-- Freeing disjoint legal ranges succeeds and adds exactly their points. -/
theorem Inv.freeAll_ok {ranges : List Block} (h : s.Inv top)
    (hlegal : ∀ b ∈ ranges, s.FreeLegal b.addr b.ord)
    (hdisj : ranges.Pairwise fun b c => Disjoint b.range c.range) :
    ∃ t, s.freeAll ranges = .ok t ∧ t.Inv top ∧
      t.freeSet = s.freeSet ∪ cover {b | b ∈ ranges} := by
  induction ranges generalizing s with
  | nil =>
    refine ⟨s, rfl, h, ?_⟩
    simp [cover]
  | cons b bs ih =>
    rw [List.pairwise_cons] at hdisj
    obtain ⟨u, hfree, hu, hset⟩ := h.free_legal (hlegal b (by simp))
    have hrest : ∀ c ∈ bs, u.FreeLegal c.addr c.ord := by
      intro c hc
      have hcl := hlegal c (by simp [hc])
      refine ⟨hcl.addr_lt, ?_, hcl.aligned, ?_⟩
      · rw [hu.maxOrder_eq, ← h.maxOrder_eq]
        exact hcl.order_le
      · rw [hset, Set.disjoint_union_right]
        exact ⟨hcl.disjoint, (hdisj.1 c hc).symm⟩
    obtain ⟨t, hall, ht, htset⟩ := ih hu hrest hdisj.2
    refine ⟨t, ?_, ht, ?_⟩
    · unfold freeAll at hall ⊢
      rw [List.foldlM_cons, hfree]
      exact hall
    · rw [htset, hset, cover_cons, Set.union_assoc]
      rfl

/-- The stored sets are a function of free memory: reachable states with the same free
addresses store the same sets, disjoint ranges may be freed in any order, and freeing an
allocation undoes it. -/
theorem reachable_state_canonical {maxOrd : ℕ} (hmax : maxOrd ≤ 63) :
    (∀ s t, Reachable maxOrd s → Reachable maxOrd t → s.freeSet = t.freeSet →
      s.blocks.freeBlocks = t.blocks.freeBlocks) ∧
    (∀ s ranges ranges', Reachable maxOrd s → (∀ b ∈ ranges, s.FreeLegal b.addr b.ord) →
      ranges.Pairwise (fun b c => Disjoint b.range c.range) → ranges.Perm ranges' →
      ∃ t t', s.freeAll ranges = .ok t ∧ s.freeAll ranges' = .ok t' ∧
        t.blocks.freeBlocks = t'.blocks.freeBlocks) ∧
    (∀ s order a s', Reachable maxOrd s → s.alloc order = .ok (some a, s') →
      ∃ t, s'.free a order = .ok t ∧ t.blocks.freeBlocks = s.blocks.freeBlocks) := by
  refine ⟨?_, ?_, ?_⟩
  · intro s t hs ht he
    rw [(hs.inv hmax).eq_of_freeSet_eq (ht.inv hmax) he]
  · intro s ranges ranges' hs hlegal hdisj hperm
    have h := hs.inv hmax
    have hdisj' : ranges'.Pairwise fun b c => Disjoint b.range c.range :=
      (hperm.pairwise_iff fun hbc => hbc.symm).mp hdisj
    obtain ⟨t, hall, ht, hset⟩ := h.freeAll_ok hlegal hdisj
    obtain ⟨t', hall', ht', hset'⟩ :=
      h.freeAll_ok (fun b hb => hlegal b (hperm.mem_iff.mpr hb)) hdisj'
    have hsame : {b | b ∈ ranges} = {b | b ∈ ranges'} := by
      ext b
      exact hperm.mem_iff
    exact ⟨t, t', hall, hall', by
      rw [ht.eq_of_freeSet_eq ht' (by rw [hset, hset', hsame])]⟩
  · intro s order a s' hs hcall
    have h := hs.inv hmax
    rcases h.alloc_ok order with hnone | hsome
    · rw [hcall] at hnone
      simp at hnone
    · obtain ⟨a', s'', hok, hinv, ho, hdvd, hsub, hfree⟩ := hsome
      obtain ⟨hsome, rfl⟩ := Prod.mk.inj (ok_unique hcall hok)
      obtain rfl := Option.some.inj hsome
      have haddr : a < 2 ^ 64 := h.inside (hsub (Block.addr_mem_range ⟨order, a⟩))
      obtain ⟨t, hback, ht, hset⟩ := hinv.free_ok haddr ho hdvd
        (hfree ▸ Set.disjoint_sdiff_right)
      refine ⟨t, hback, ?_⟩
      rw [ht.eq_of_freeSet_eq h (by rw [hset, hfree]; exact Set.sdiff_union_of_subset hsub)]

/-- Canonicity at concrete ranges: two orders of freeing three ranges agree, and taking a
quarter of the free half back and forth restores the stored sets. -/
theorem reachable_state_canonical_halfFree :
    (∃ t t', emptyFive.freeAll [⟨3, 0⟩, ⟨3, 8⟩, ⟨4, 16⟩] = .ok t ∧
      emptyFive.freeAll [⟨4, 16⟩, ⟨3, 8⟩, ⟨3, 0⟩] = .ok t' ∧
      t.blocks.freeBlocks = t'.blocks.freeBlocks) ∧
    ∃ a s' t, halfFree.alloc 3 = .ok (some a, s') ∧ s'.free a 3 = .ok t ∧
      t.blocks.freeBlocks = halfFree.blocks.freeBlocks := by
  obtain ⟨-, hperm, hundo⟩ := reachable_state_canonical (show 5 ≤ 63 by decide)
  constructor
  · apply hperm _ _ _ ⟨emptyFive, [], new_five, .nil⟩
    · intro b hb
      simp only [List.mem_cons, List.not_mem_nil, or_false] at hb
      obtain rfl | rfl | rfl := hb <;>
        exact emptyFive_freeLegal (by decide) (by decide) (by decide)
    · simp [Block.range, Set.Ico_disjoint_Ico]
    · decide
  · have hcall : halfFree.alloc 3 =
        .ok (some 48, ⟨5, ⟨[∅, ∅, ∅, {56}, ∅, ∅], 5⟩⟩) := by decide +kernel
    obtain ⟨t, hback, hsame⟩ := hundo halfFree 3 48 _ halfFree_reachable hcall
    exact ⟨48, _, t, hcall, hback, hsame⟩

end BuddyImpl

end Toyos.Memory
