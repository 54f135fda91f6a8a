import Toyos.Boot.AlignedNew

/-!
# Runs of the aligned operators

The order of an aligned request is the largest order that does not exceed the
request. A size that is larger than its alignment and no power of two therefore
gets a block that is too small for it. Returned pointers are aligned in every
run; the requested ranges are disjoint in every run whose requests fit.
-/

namespace Toyos.Boot

open Toyos.Core Toyos.Util Toyos.Memory

/-- A live aligned allocation. -/
structure Allocation where
  /-- The returned pointer. -/
  addr : ℕ
  /-- The requested size. -/
  size : ℕ
  /-- The requested alignment. -/
  alignment : ℕ
  deriving DecidableEq, Repr

namespace Allocation

/-- The bytes that the caller may use. -/
def bytes (a : Allocation) : Set ℕ := Set.Ico a.addr (a.addr + a.size)

/-- The block of the aligned heap behind the allocation. -/
def block (a : Allocation) : Block := ⟨orderMax (max a.size a.alignment), a.addr⟩

end Allocation

/-- What one call did. -/
inductive AlignedEvent
  /-- A call of the aligned `operator new` and its result. -/
  | new (size alignment p : ℕ)
  /-- A call of the aligned `operator delete`. -/
  | delete (p alignment : ℕ)
  /-- Other uses of the default heap. -/
  | other
  deriving DecidableEq, Repr

/-- A size that its block can hold: not above the alignment, or a power of two. -/
def Fits (size alignment : ℕ) : Prop := size ≤ alignment ∨ ∃ j, size = 2 ^ j

/-- The call requests a size that fits. -/
def AlignedEvent.Fits : AlignedEvent → Prop
  | .new size alignment _ => Boot.Fits size alignment
  | _ => True

/-- The allocators and the live aligned allocations. -/
structure AlignedState (ω : Type) where
  /-- The heaps. -/
  allocators : Allocators ω
  /-- The live allocations. -/
  live : List Allocation

variable {φ ω : Type}

/-- One call that returns. Alignments are powers of two beyond the heap alignment, and every
delete names a live allocation. -/
inductive AlignedState.Step (heap : FreshHeap φ ω) :
    AlignedState ω → AlignedEvent → AlignedState ω → Prop
  | new {s size k p m} : size < 2 ^ 64 → k < 64 → heapAlignment < 2 ^ k →
      alignedNew heap.toDefaultHeap s.allocators size (2 ^ k) = .ok (p, m) →
      Step heap s (.new size (2 ^ k) p) ⟨m, ⟨p, size, 2 ^ k⟩ :: s.live⟩
  | delete {s a m} : a ∈ s.live →
      alignedDelete heap.toDefaultHeap s.allocators a.addr a.alignment = .ok m →
      Step heap s (.delete a.addr a.alignment) ⟨m, s.live.erase a⟩
  | other {s w w'} : s.allocators.currentHeap = some w → heap.claimed w ⊆ heap.claimed w' →
      Step heap s .other ⟨{ s.allocators with currentHeap := some w' }, s.live⟩

/-- The block of a request holds the requested bytes exactly when the size fits. -/
theorem le_two_pow_orderMax_iff {size k : ℕ} (hsize : size < 2 ^ 64) (hk : k < 64) :
    size ≤ 2 ^ orderMax (max size (2 ^ k)) ↔ Fits size (2 ^ k) := by
  unfold Fits
  by_cases hle : size ≤ 2 ^ k
  · rw [max_eq_right hle, orderMax_two_pow hk]
    simp [hle]
  · have hpos : size ≠ 0 := by
      intro h
      exact hle (h ▸ Nat.zero_le _)
    rw [max_eq_left (by omega), orderMax_eq_log hsize]
    constructor
    · intro h
      exact Or.inr ⟨_, le_antisymm h (Nat.pow_log_le_self 2 hpos)⟩
    · intro h
      obtain ⟨j, rfl⟩ := h.resolve_left hle
      rw [Nat.log_pow (by decide)]

/-- A returning call of the aligned `operator new` beyond the heap alignment is an allocation
of the aligned heap. -/
theorem alignedNew_eq_ok {heap : DefaultHeap φ ω} {s m : Allocators ω} {size alignment p : ℕ}
    {b : SimpleBuddy} (hb : s.alignedHeap = some b) (ha : heapAlignment < alignment)
    (h : alignedNew heap s size alignment = .ok (p, m)) :
    ∃ b' o', b.alloc (operatorNew heap) s.currentHeap (orderMax (max size alignment)) =
      .ok (some p, b', o') ∧ m = ⟨o', some b'⟩ := by
  cases hcur : s.currentHeap with
  | none => simp [alignedNew, hcur] at h
  | some w =>
    simp only [alignedNew, hcur, hb, if_neg (not_le.mpr ha)] at h
    obtain ⟨-, -, h⟩ := bind_eq_ok.mp h
    cases halloc : b.alloc (operatorNew heap) (some w) (orderMax (max size alignment)) with
    | error e => simp [halloc] at h
    | ok r =>
      obtain ⟨tmp, b', o'⟩ := r
      cases tmp with
      | none => simp [halloc] at h
      | some q =>
        simp only [halloc, mapError_ok, ok_bind, pure_eq_ok, Except.ok.injEq,
          Prod.mk.injEq] at h
        obtain ⟨rfl, rfl⟩ := h
        exact ⟨b', o', rfl, rfl⟩

/-- A returning call of the aligned `operator delete` is a free of the aligned heap. -/
theorem alignedDelete_eq_ok {heap : DefaultHeap φ ω} {s m : Allocators ω} {p alignment : ℕ}
    {b : SimpleBuddy} (hb : s.alignedHeap = some b) (ha : heapAlignment < alignment)
    (h : alignedDelete heap s p alignment = .ok m) :
    ∃ b', b.free p = (.ok b' : Except (SimpleBuddyFault (NewFault φ)) SimpleBuddy) ∧
      m = { s with alignedHeap := some b' } := by
  cases hcur : s.currentHeap with
  | none => simp [alignedDelete, hcur] at h
  | some w =>
    simp only [alignedDelete, hcur, hb, if_neg (not_le.mpr ha)] at h
    cases hfree : (b.free p : Except (SimpleBuddyFault (NewFault φ)) SimpleBuddy) with
    | error e => simp [hfree] at h
    | ok b' =>
      simp only [hfree, mapError_ok, ok_bind, pure_eq_ok, Except.ok.injEq] at h
      exact ⟨b', rfl, h.symm⟩

namespace AlignedState

/-- The aligned heap is consistent with the blocks of the live allocations. -/
structure Inv (heap : FreshHeap φ ω) (top : ℕ) (s : AlignedState ω) : Prop where
  /-- The aligned heap tracks the blocks behind the live allocations. -/
  tracked : ∃ b, s.allocators.alignedHeap = some b ∧
    Tracked.Inv top heap.allocFunc ⟨b, s.allocators.currentHeap, s.live.map Allocation.block⟩
  /-- Live allocations were requested with a large power of two as alignment. -/
  requested : ∀ a ∈ s.live,
    a.size < 2 ^ 64 ∧ heapAlignment < a.alignment ∧ ∃ k < 64, a.alignment = 2 ^ k

variable {heap : FreshHeap φ ω} {top : ℕ} {s t : AlignedState ω} {e : AlignedEvent}

/-- The blocks without one allocation are the others' blocks. -/
theorem perm_map_block_erase {live : List Allocation} {a : Allocation} (ha : a ∈ live) :
    ((live.map Allocation.block).erase a.block).Perm ((live.erase a).map Allocation.block) := by
  have hblocks := List.perm_cons_erase (List.mem_map_of_mem (f := Allocation.block) ha)
  have hlive := (List.perm_cons_erase ha).map Allocation.block
  exact (hblocks.symm.trans hlive).cons_inv

/-- Live pointers are aligned as requested. -/
theorem Inv.aligned (h : s.Inv heap top) {a : Allocation} (ha : a ∈ s.live) :
    a.alignment ∣ a.addr := by
  obtain ⟨b, -, htracked⟩ := h.tracked
  obtain ⟨hsize, -, k, hk, halign⟩ := h.requested a ha
  have hblock : 2 ^ orderMax (max a.size a.alignment) ∣ a.addr :=
    (htracked.memory.live_aligned a.block (List.mem_map_of_mem ha)).1
  have hle : k ≤ orderMax (max a.size a.alignment) := by
    have hpos := Nat.two_pow_pos k
    have hpow : 2 ^ k < 2 ^ 64 := Nat.pow_lt_pow_right (by decide) hk
    rw [halign, orderMax_eq_log (max_lt hsize hpow),
      Nat.le_log_iff_pow_le (by decide) (by omega)]
    exact le_max_right _ _
  rw [halign]
  exact (Nat.pow_dvd_pow 2 hle).trans hblock

/-- Live ranges of sizes that fit are disjoint. -/
theorem Inv.disjoint (h : s.Inv heap top) (hfits : ∀ a ∈ s.live, Fits a.size a.alignment) :
    s.live.Pairwise fun a c => Disjoint a.bytes c.bytes := by
  obtain ⟨b, -, htracked⟩ := h.tracked
  have hsub : ∀ a ∈ s.live, a.bytes ⊆ a.block.range := by
    intro a ha
    obtain ⟨hsize, -, k, hk, halign⟩ := h.requested a ha
    have hle := (le_two_pow_orderMax_iff hsize hk).mpr (halign ▸ hfits a ha)
    rw [← halign] at hle
    exact Set.Ico_subset_Ico_right (Nat.add_le_add_left hle _)
  have hpair := List.pairwise_map.mp htracked.memory.live_disjoint
  exact hpair.imp_of_mem fun ha hc hd => hd.mono (hsub _ ha) (hsub _ hc)

/-- Every step keeps the invariant. -/
theorem Inv.step (h : s.Inv heap top) (hs : Step heap s e t) : t.Inv heap top := by
  obtain ⟨b, hb, htracked⟩ := h.tracked
  cases hs with
  | @new size k p m hsize hk ha hcall =>
    obtain ⟨b', o', halloc, rfl⟩ := alignedNew_eq_ok hb ha hcall
    obtain ⟨hinv, -⟩ := htracked.alloc_step halloc
    refine ⟨⟨b', rfl, hinv⟩, fun a hmem => ?_⟩
    cases hmem with
    | head => exact ⟨hsize, ha, k, hk, rfl⟩
    | tail _ hmem => exact h.requested a hmem
  | @delete a m hmem hcall =>
    obtain ⟨-, ha, -⟩ := h.requested a hmem
    obtain ⟨b', hfree, rfl⟩ := alignedDelete_eq_ok hb ha hcall
    obtain ⟨b'', hok, hinv, -⟩ := htracked.free_step (l := a.block) (List.mem_map_of_mem hmem)
    have heq : b' = b'' := Except.ok.inj (hfree.symm.trans hok)
    subst heq
    exact ⟨⟨b', rfl, hinv.perm (perm_map_block_erase hmem)⟩,
      fun c hc => h.requested c (List.mem_of_mem_erase hc)⟩
  | @other w w' hw hmono =>
    refine ⟨⟨b, hb, htracked.memory.mono ?_, htracked.recorded⟩, h.requested⟩
    rw [hw]
    exact hmono

/-- After initialization the aligned heap is consistent. -/
theorem initHeap_inv {w : ω} {m : Allocators ω} (hinit : initHeap w = .ok m) :
    Inv heap 35 ⟨m, []⟩ := by
  obtain ⟨b, hnew, hm⟩ := bind_eq_ok.mp hinit
  have horder : 31 + orderMax heapAlignment = 35 := by decide
  rw [horder] at hnew
  simp only [pure_eq_ok, Except.ok.injEq] at hm
  subst hm
  have hnew' : SimpleBuddy.new 35 true =
      (.ok b : Except (SimpleBuddyFault (NewFault φ)) SimpleBuddy) := SimpleBuddy.new_eq_ok hnew
  exact ⟨⟨b, rfl, (Tracked.new_inv (by decide) hnew' (some w)).1⟩, by simp⟩

/-- In every run the invariant holds and every live allocation was requested by a call. -/
theorem Inv.run {es : List AlignedEvent} (h : s.Inv heap top) (hstart : s.live = [])
    (hrun : Run (Step heap) s es t) :
    t.Inv heap top ∧ ∀ a ∈ t.live, .new a.size a.alignment a.addr ∈ es := by
  apply hrun.history_invariant
    (fun es t => t.Inv heap top ∧ ∀ a ∈ t.live, .new a.size a.alignment a.addr ∈ es)
  · exact ⟨h, by simp [hstart]⟩
  · intro es u e t _ ih hstep
    refine ⟨ih.1.step hstep, fun a ha => ?_⟩
    rw [List.mem_append]
    cases hstep with
    | new =>
      cases ha with
      | head => exact Or.inr (by simp)
      | tail _ ha => exact Or.inl (ih.2 a ha)
    | delete => exact Or.inl (ih.2 a (List.mem_of_mem_erase ha))
    | other => exact Or.inl (ih.2 a ha)

/-- Every pointer that a run returned was aligned as requested. -/
theorem Inv.returned_aligned {es : List AlignedEvent} (h : s.Inv heap top)
    (hrun : Run (Step heap) s es t) {size alignment p : ℕ}
    (he : .new size alignment p ∈ es) : alignment ∣ p := by
  obtain ⟨before, after, rfl⟩ := List.append_of_mem he
  obtain ⟨u, hpre, hrest⟩ := hrun.split
  obtain ⟨v, hstep, -⟩ := hrest.cons_inv
  have hu := hpre.invariant (fun s => s.Inv heap top) h fun _ _ _ hs => hs.step
  have hv := hu.step hstep
  cases hstep with
  | new => exact hv.aligned (List.mem_cons_self ..)

/-- Aligned allocation is safe in every run whose requests fit: every returned pointer is
aligned as requested, without any condition, and the requested ranges of the live allocations
are pairwise disjoint in every state reached. -/
theorem fitting_requests_disjoint {w : ω} {m : Allocators ω} {es : List AlignedEvent}
    (hinit : initHeap w = .ok m) (hrun : Run (Step heap) ⟨m, []⟩ es t) :
    (∀ size alignment p, .new size alignment p ∈ es → alignment ∣ p) ∧
      ((∀ e ∈ es, e.Fits) → t.live.Pairwise fun a c => Disjoint a.bytes c.bytes) := by
  have h : Inv heap 35 ⟨m, []⟩ := initHeap_inv hinit
  refine ⟨fun _ _ _ he => h.returned_aligned hrun he, fun hfits => ?_⟩
  obtain ⟨hinv, hlive⟩ := h.run rfl hrun
  exact hinv.disjoint fun a ha => hfits _ (hlive a ha)

end AlignedState

/-- A default heap that hands out consecutive ranges. -/
def bumpHeap : FreshHeap Empty ℕ where
  alloc := bump.call
  free w _ := .ok w
  claimed := bump.claimed
  fresh := @bump.fresh
  claimed_range := @bump.claimed_range
  claimed_mono := @bump.claimed_mono

namespace AlignedState

/-- The heaps after initialization. -/
def freshHeaps : Allocators ℕ := ⟨some 65536, some ⟨⟨35, ⟨List.replicate 36 ∅, 35⟩⟩, ∅⟩⟩

/-- The heaps after one block of 32 bytes was taken from 8192 claimed bytes. -/
def oneBlockTaken : Allocators ℕ :=
  ⟨some 73728, some ⟨⟨35, ⟨List.replicate 5 ∅ ++ [{65568}, {65600}, {65664}, {65792}, {66048},
    {66560}, {67584}, {69632}] ++ List.replicate 23 ∅, 35⟩⟩, Finmap.insert 65536 5 ∅⟩⟩

/-- The heaps after the next block of 32 bytes was taken. -/
def twoBlocksTaken : Allocators ℕ :=
  ⟨some 73728, some ⟨⟨35, ⟨List.replicate 6 ∅ ++ [{65600}, {65664}, {65792}, {66048}, {66560},
    {67584}, {69632}] ++ List.replicate 23 ∅, 35⟩⟩,
    Finmap.insert 65568 5 (Finmap.insert 65536 5 ∅)⟩⟩

theorem initHeap_freshHeaps : initHeap 65536 = .ok freshHeaps := by decide +kernel

/-- Two requests with alignment 32 that get adjacent blocks of 32 bytes. -/
theorem two_requests_run {size : ℕ} (hsize : size < 2 ^ 64)
    (hfirst : alignedNew bumpHeap.toDefaultHeap freshHeaps size (2 ^ 5) =
      .ok (65536, oneBlockTaken))
    (hsecond : alignedNew bumpHeap.toDefaultHeap oneBlockTaken size (2 ^ 5) =
      .ok (65568, twoBlocksTaken)) :
    Run (Step bumpHeap) ⟨freshHeaps, []⟩ [.new size (2 ^ 5) 65536, .new size (2 ^ 5) 65568]
      ⟨twoBlocksTaken, [⟨65568, size, 2 ^ 5⟩, ⟨65536, size, 2 ^ 5⟩]⟩ := by
  have h₁ : Step bumpHeap ⟨freshHeaps, []⟩ (.new size (2 ^ 5) 65536)
      ⟨oneBlockTaken, [⟨65536, size, 2 ^ 5⟩]⟩ := .new hsize (by decide) (by decide) hfirst
  exact (Run.nil.snoc h₁).snoc (.new hsize (by decide) (by decide) hsecond)

/-- Two requests of 32 bytes with alignment 32 do not overlap. -/
theorem fitting_requests_disjoint_pair :
    Run (Step bumpHeap) ⟨freshHeaps, []⟩ [.new 32 (2 ^ 5) 65536, .new 32 (2 ^ 5) 65568]
      ⟨twoBlocksTaken, [⟨65568, 32, 2 ^ 5⟩, ⟨65536, 32, 2 ^ 5⟩]⟩ ∧
    [(⟨65568, 32, 2 ^ 5⟩ : Allocation), ⟨65536, 32, 2 ^ 5⟩].Pairwise
      fun a c => Disjoint a.bytes c.bytes := by
  have hrun := two_requests_run (show 32 < 2 ^ 64 by decide) (by decide +kernel)
    (by decide +kernel)
  refine ⟨hrun, (fitting_requests_disjoint initHeap_freshHeaps hrun).2 ?_⟩
  simp [AlignedEvent.Fits, Fits]

/-- Two requests of 48 bytes with alignment 32 get adjacent blocks of 32 bytes and overlap. -/
theorem requests_overlap :
    ¬∀ m es t, initHeap 65536 = .ok m → Run (Step bumpHeap) ⟨m, []⟩ es t →
      (∀ size alignment p, .new size alignment p ∈ es → alignment ∣ p) ∧
        t.live.Pairwise fun a c => Disjoint a.bytes c.bytes := by
  intro h
  have hrun := two_requests_run (show 48 < 2 ^ 64 by decide) (by decide +kernel)
    (by decide +kernel)
  have hpair := (h _ _ _ initHeap_freshHeaps hrun).2
  simp [Allocation.bytes, Set.Ico_disjoint_Ico] at hpair

end AlignedState

end Toyos.Boot
