import Toyos.Boot.AlignedRuns
import Toyos.Memory.FirstFitRuns

/-!
# The operators on the first-fit heap

The plain and the aligned operators of the boot code on the heap that they
really use. The aligned heap claims its memory with the plain `operator new`, so
both kinds of allocations come from one region. In every interleaving of calls
they stay apart, because what the aligned heap claimed is an allocation of the
first-fit heap that is never given back.
-/

namespace Toyos.Boot

open Toyos.Core Toyos.Util Toyos.Memory Toyos.Memory.FirstFit

/-- `current_heap`. -/
def firstFit (c : Config) : DefaultHeap HeapFault FirstFitHeap where
  alloc h size := h.alloc c size
  free h p := h.free c p

/-- The plain `operator delete`. -/
def operatorDelete {φ ω : Type} (heap : DefaultHeap φ ω) (currentHeap : Option ω) (p : ℕ) :
    Except (NewFault φ) (Option ω) :=
  match currentHeap with
  | none => .error .heapNotInitialized
  | some w => do
    let w ← (heap.free w p).mapError .heap
    return some w

/-- The heaps and what is allocated from them. -/
structure Program where
  /-- The heaps. -/
  allocators : Allocators FirstFitHeap
  /-- The allocations from the default heap. -/
  plain : List Piece
  /-- The allocations from the aligned heap. -/
  aligned : List Allocation

/-- What the program did. -/
inductive OperatorEvent
  /-- A call of the plain `operator new` and its result. -/
  | new (size p : ℕ)
  /-- A call of the plain `operator delete`. -/
  | delete (p : ℕ)
  /-- A call of the aligned `operator new` and its result. -/
  | newAligned (size alignment p : ℕ)
  /-- A call of the aligned `operator delete`. -/
  | deleteAligned (p alignment : ℕ)
  /-- The program writes a byte. -/
  | write (q : ℕ) (v : UInt8)
  deriving DecidableEq, Repr

/-- The heaps after a byte was written. -/
def Allocators.write (m : Allocators FirstFitHeap) (q : ℕ) (v : UInt8) : Allocators FirstFitHeap :=
  { m with
    currentHeap := m.currentHeap.map fun h => { h with bytes := Function.update h.bytes q v } }

/-- The program writes to its allocations and outside the region. -/
def Program.MayWrite (s : Program) (q : ℕ) : Prop :=
  (∃ a ∈ s.plain, a.Has q) ∨ (∃ a ∈ s.aligned, q ∈ a.block.range) ∨
    ∀ h, s.allocators.currentHeap = some h → q < h.mem.base ∨ h.mem.base + h.mem.size ≤ q

/-- One call that returns or one write. Requests to the default heap do not exceed what can be
rounded up, and every delete names null or a live allocation from the same heap. -/
inductive Program.Step (c : Config) : Program → OperatorEvent → Program → Prop
  | new {s size p o} : size ≤ 2 ^ 64 - c.alignment →
      operatorNew (firstFit c) s.allocators.currentHeap size = .ok (p, o) →
      Step c s (.new size p)
        ⟨⟨o, s.allocators.alignedHeap⟩, handedOut p size ++ s.plain, s.aligned⟩
  | delete {s a o} : a ∈ s.plain →
      operatorDelete (firstFit c) s.allocators.currentHeap a.addr = .ok o →
      Step c s (.delete a.addr)
        ⟨⟨o, s.allocators.alignedHeap⟩, s.plain.erase a, s.aligned⟩
  | deleteNull {s o} : operatorDelete (firstFit c) s.allocators.currentHeap 0 = .ok o →
      Step c s (.delete 0) ⟨⟨o, s.allocators.alignedHeap⟩, s.plain, s.aligned⟩
  | newSmall {s size alignment p m} : size ≤ 2 ^ 64 - c.alignment → alignment ≤ heapAlignment →
      alignedNew (firstFit c) s.allocators size alignment = .ok (p, m) →
      Step c s (.newAligned size alignment p) ⟨m, handedOut p size ++ s.plain, s.aligned⟩
  | deleteSmall {s a alignment m} : a ∈ s.plain → alignment ≤ heapAlignment →
      alignedDelete (firstFit c) s.allocators a.addr alignment = .ok m →
      Step c s (.deleteAligned a.addr alignment) ⟨m, s.plain.erase a, s.aligned⟩
  | deleteSmallNull {s alignment m} : alignment ≤ heapAlignment →
      alignedDelete (firstFit c) s.allocators 0 alignment = .ok m →
      Step c s (.deleteAligned 0 alignment) ⟨m, s.plain, s.aligned⟩
  | newAligned {s size alignment p m} : heapAlignment < alignment →
      alignedNew (firstFit c) s.allocators size alignment = .ok (p, m) →
      Step c s (.newAligned size alignment p) ⟨m, s.plain, ⟨p, size, alignment⟩ :: s.aligned⟩
  | deleteAligned {s a m} : a ∈ s.aligned →
      alignedDelete (firstFit c) s.allocators a.addr a.alignment = .ok m →
      Step c s (.deleteAligned a.addr a.alignment) ⟨m, s.plain, s.aligned.erase a⟩
  | write {s q v} : s.MayWrite q →
      Step c s (.write q v) ⟨s.allocators.write q v, s.plain, s.aligned⟩

/-- The bytes of some pieces. -/
def covered (pools : List Piece) : Set ℕ := { q | ∃ a ∈ pools, a.Has q }

/-- The allocations come from the two heaps; `pools` is what the aligned heap claimed. -/
structure Program.Divided (c : Config) (mem : FixedMemory) (s : Program) (h : FirstFitHeap)
    (b : SimpleBuddy) (pools : List Piece) : Prop where
  /-- Both heaps are initialized. -/
  allocators_eq : s.allocators = ⟨some h, some b⟩
  /-- The default heap serves the program and the aligned heap. -/
  sane : Session.Sane c mem ⟨h, pools ++ s.plain⟩
  /-- The aligned heap divides what it claimed. -/
  memory : Partitioned 35 b.buddy (covered pools) (s.aligned.map Allocation.block)
  /-- The aligned heap has recorded its allocations. -/
  recorded : ∀ a ∈ s.aligned, b.allocMap.lookup a.addr = some a.block.ord
  /-- Allocations from the aligned heap need its alignment. -/
  requested : ∀ a ∈ s.aligned, heapAlignment < a.alignment

section Heap

variable {c : Config} {mem : FixedMemory} {h : FirstFitHeap} {live live' : List Piece} {a : Piece}
  {size : ℕ}

theorem sane_perm (hs : Session.Sane c mem ⟨h, live⟩) (hp : live.Perm live') :
    Session.Sane c mem ⟨h, live'⟩ := by
  obtain ⟨hmem, l, k, hholds, hcoalesced, hperm, hfits⟩ := hs
  exact ⟨hmem, l, k, hholds, hcoalesced, hp.symm.trans hperm, hfits⟩

/-- The default heap answers every request. -/
theorem firstFit_alloc (hs : Session.Sane c mem ⟨h, live⟩) (hsize : size ≤ 2 ^ 64 - c.alignment) :
    ∃ p h', (firstFit c).alloc h size = .ok (p, h') ∧
      Session.Sane c mem ⟨h', handedOut p size ++ live⟩ := by
  obtain ⟨⟨p, h'⟩, hrun⟩ := hs.sound.allocates size hsize
  have hstep := (Session.Step.alloc (s := ⟨h, live⟩) hsize hrun).sane hs
  exact ⟨p, h', hrun, hstep.1⟩

/-- The default heap takes back every allocation. -/
theorem firstFit_free (hs : Session.Sane c mem ⟨h, live⟩) (ha : a ∈ live) :
    ∃ h', (firstFit c).free h a.addr = .ok h' ∧ Session.Sane c mem ⟨h', live.erase a⟩ := by
  obtain ⟨h', hrun⟩ := hs.sound.frees a ha
  have hstep := (Session.Step.free (s := ⟨h, live⟩) ha hrun).sane hs
  exact ⟨h', hrun, hstep.1⟩

theorem firstFit_free_null : (firstFit c).free h 0 = .ok h := by
  have hfree : h.free c 0 = .ok h := FirstFitHeap.free_ignored (.inl rfl)
  exact hfree

/-- The plain `operator new` fails only without memory. -/
theorem operatorNew_firstFit (hs : Session.Sane c mem ⟨h, live⟩) (size : ℕ)
    (hsize : size ≤ 2 ^ 64 - c.alignment) :
    operatorNew (firstFit c) (some h) size = .error .outOfMemory ∨
      ∃ p h', operatorNew (firstFit c) (some h) size = .ok (p, some h') ∧ p ≠ 0 ∧
        Session.Sane c mem ⟨h', ⟨p, size⟩ :: live⟩ := by
  obtain ⟨p, h', halloc, hs'⟩ := firstFit_alloc hs hsize
  by_cases hp : p = 0
  · exact .inl (by simp [operatorNew, halloc, hp])
  · rw [handedOut, if_neg hp] at hs'
    exact .inr ⟨p, h', by simp [operatorNew, halloc, hp], hp, hs'⟩

/-- What the deletes do that go to the default heap. -/
theorem delete_eq {m : Allocators FirstFitHeap} {h' : FirstFitHeap} {p : ℕ}
    (hcur : m.currentHeap = some h) (hfree : (firstFit c).free h p = .ok h') :
    operatorDelete (firstFit c) m.currentHeap p = .ok (some h') ∧
      ∀ alignment ≤ heapAlignment, alignedDelete (firstFit c) m p alignment =
        .ok { m with currentHeap := some h' } := by
  refine ⟨?_, fun alignment hsmall => ?_⟩
  · rw [hcur, operatorDelete, hfree, mapError_ok, ok_bind, pure_eq_ok]
  · rw [alignedDelete, hcur]
    dsimp only
    rw [if_pos hsmall, hfree, mapError_ok, ok_bind, pure_eq_ok]

theorem covered_cons_right {pools : List Piece} : covered pools ⊆ covered (a :: pools) := by
  rintro q ⟨x, hx, hq⟩
  exact ⟨x, List.mem_cons_of_mem _ hx, hq⟩

/-- A block that the aligned heap claims is apart from those before. -/
theorem disjoint_covered {pools plain : List Piece}
    (hs : Session.Sane c mem ⟨h, a :: pools ++ plain⟩) :
    Disjoint (Set.Ico a.addr (a.addr + a.size)) (covered pools) := by
  rw [Set.disjoint_left]
  rintro q ⟨hlo, hhi⟩ ⟨x, hx, hxlo, hxhi⟩
  have := (List.pairwise_cons.mp hs.sound.apart).1 x (List.mem_append_left _ hx)
  omega

/-- An allocation from the aligned heap claims at most one more block of the default heap. -/
theorem allocBuddy_firstFit {pools plain : List Piece} {b b' : BuddyImpl} {blocks : List Block}
    {o : Option FirstFitHeap} {top order p : ℕ} (hs : Session.Sane c mem ⟨h, pools ++ plain⟩)
    (hpart : Partitioned top b (covered pools) blocks)
    (hcall : SimpleBuddy.allocBuddy (operatorNew (firstFit c)) b (some h) order =
      .ok (some p, b', o)) :
    ∃ h' pools', o = some h' ∧ Session.Sane c mem ⟨h', pools' ++ plain⟩ ∧
      Partitioned top b' (covered pools') (⟨order, p⟩ :: blocks) := by
  rcases hpart.alloc_ok order with hnone | ⟨p₁, b₁, hok, hpart₁⟩
  · have hk := SimpleBuddy.claimOrder_lt order
    have hpow : 2 ^ SimpleBuddy.claimOrder order ≤ 2 ^ 63 :=
      Nat.pow_le_pow_right (by decide) (by omega)
    have halign : c.alignment < 2 ^ 62 := Nat.pow_lt_pow_right (by decide) c.order_lt
    rcases operatorNew_firstFit hs (2 ^ SimpleBuddy.claimOrder order) (by omega) with
      hfull | ⟨q, h', hnew, hq, hs'⟩
    · simp [SimpleBuddy.allocBuddy, SimpleBuddy.refill, hnone, wrap_one_shiftLeft hk,
        hfull] at hcall
    · have hinside := (hs'.sound.inside _ List.mem_cons_self).2
      have hregion : mem.base + mem.size < 2 ^ 64 := by
        obtain ⟨rfl, l, k, haccounts⟩ := hs'
        exact haccounts.holds.region.inside
      dsimp only at hinside
      obtain ⟨b₁, hreclaim, hpart₁⟩ := hpart.reclaim_ok (p := q) hk (by omega)
        (disjoint_covered hs') (D := covered (⟨q, 2 ^ SimpleBuddy.claimOrder order⟩ :: pools))
        covered_cons_right (fun x hx => ⟨_, List.mem_cons_self, hx⟩)
      rcases hpart₁.alloc_ok order with hnone₁ | ⟨p₂, b₂, hok₂, hpart₂⟩
      · simp [SimpleBuddy.allocBuddy, SimpleBuddy.refill, hnone, wrap_one_shiftLeft hk, hnew, hq,
          hreclaim, hnone₁] at hcall
      · simp only [SimpleBuddy.allocBuddy, SimpleBuddy.refill, hnone, wrap_one_shiftLeft hk, hnew,
          hq, hreclaim, hok₂, mapError_ok, ok_bind, pure_eq_ok, if_false, Except.ok.injEq,
          Prod.mk.injEq, Option.some.injEq] at hcall
        obtain ⟨rfl, rfl, rfl⟩ := hcall
        exact ⟨h', _, rfl, hs', hpart₂⟩
  · simp only [SimpleBuddy.allocBuddy, hok, mapError_ok, ok_bind, pure_eq_ok, Except.ok.injEq,
      Prod.mk.injEq, Option.some.injEq] at hcall
    obtain ⟨rfl, rfl, rfl⟩ := hcall
    exact ⟨h, pools, rfl, hs, hpart₁⟩

end Heap

namespace Program

variable {c : Config} {mem : FixedMemory} {s t : Program} {e : OperatorEvent} {h : FirstFitHeap}
  {b : SimpleBuddy} {pools : List Piece}

namespace Divided

/-- The default heap takes an allocation back from the program and keeps what the aligned heap
claimed. -/
theorem free_plain (hs : Divided c mem s h b pools) {a : Piece} (ha : a ∈ s.plain) :
    ∃ h', (firstFit c).free h a.addr = .ok h' ∧
      Divided c mem ⟨⟨some h', some b⟩, s.plain.erase a, s.aligned⟩ h' b pools := by
  obtain ⟨h', hfree, hs'⟩ := firstFit_free hs.sane (List.mem_append_right _ ha)
  refine ⟨h', hfree, rfl, sane_perm hs' ?_, hs.memory, hs.recorded, hs.requested⟩
  have hperm := ((List.perm_cons_erase ha).append_left pools).trans List.perm_middle
  have := hperm.erase a
  rwa [List.erase_cons_head] at this

/-- An allocation from the aligned heap divides what that heap has claimed by then. -/
theorem alloc_aligned (hs : Divided c mem s h b pools) {size alignment p : ℕ} {b' : SimpleBuddy}
    {o : Option FirstFitHeap} (hlarge : heapAlignment < alignment)
    (halloc : b.alloc (operatorNew (firstFit c)) (some h) (orderMax (max size alignment)) =
      .ok (some p, b', o)) :
    ∃ h' pools', Divided c mem ⟨⟨o, some b'⟩, s.plain, ⟨p, size, alignment⟩ :: s.aligned⟩
      h' b' pools' := by
  obtain ⟨hcall, hmap⟩ := SimpleBuddy.alloc_eq_ok halloc
  obtain ⟨h', pools', rfl, hs', hpart⟩ := allocBuddy_firstFit hs.sane hs.memory hcall
  obtain ⟨hnone, -⟩ | ⟨a, ha, hfresh, hinsert⟩ := hmap
  · cases hnone
  · obtain rfl := Option.some.inj ha
    refine ⟨h', pools', rfl, hs', hpart, fun x hx => ?_, fun x hx => ?_⟩
    · rw [hinsert]
      rcases List.mem_cons.mp hx with rfl | hx
      · exact Finmap.lookup_insert _
      · have hrec := hs.recorded x hx
        have hne : x.addr ≠ p := fun heq => hfresh (heq ▸ Finmap.mem_of_lookup_eq_some hrec)
        rw [Finmap.lookup_insert_of_ne _ hne, hrec]
    · rcases List.mem_cons.mp hx with rfl | hx
      · exact hlarge
      · exact hs.requested x hx

/-- The aligned heap takes back every allocation. -/
theorem free_aligned (hs : Divided c mem s h b pools) {a : Allocation} (ha : a ∈ s.aligned) :
    ∃ b', b.free a.addr =
        (.ok b' : Except (SimpleBuddyFault (NewFault HeapFault)) SimpleBuddy) ∧
      Divided c mem ⟨⟨some h, some b'⟩, s.plain, s.aligned.erase a⟩ h b' pools := by
  have hmem : a.block ∈ s.aligned.map Allocation.block := List.mem_map_of_mem ha
  have hperm := (List.perm_cons_erase ha).map Allocation.block
  have hpart := hs.memory.perm hperm
  have hpair := List.pairwise_cons.mp hpart.live_disjoint
  obtain ⟨b', hfree, hpart'⟩ := Partitioned.free_ok hpart
  refine ⟨⟨b', b.allocMap.erase a.addr⟩, ?_, rfl, hs.sane, hpart', fun x hx => ?_,
    fun x hx => hs.requested x (List.mem_of_mem_erase hx)⟩
  · simp only [SimpleBuddy.free, hs.recorded a ha]
    exact (congrArg (· >>= _) (congrArg (Except.mapError _) hfree)).trans rfl
  · have hne : x.addr ≠ a.addr :=
      (Block.addr_ne_of_disjoint (hpair.1 x.block (List.mem_map_of_mem hx))).symm
    rw [Finmap.lookup_erase_ne hne]
    exact hs.recorded x (List.mem_of_mem_erase hx)

/-- What the program may write is not the bookkeeping of the default heap. -/
theorem write (hs : Divided c mem s h b pools) {q : ℕ} (hq : s.MayWrite q) (v : UInt8) :
    Divided c mem ⟨s.allocators.write q v, s.plain, s.aligned⟩
      { h with bytes := Function.update h.bytes q v } b pools := by
  have hmay : Session.MayWrite ⟨h, pools ++ s.plain⟩ q := by
    rcases hq with ⟨a, ha, hhas⟩ | ⟨a, ha, hrange⟩ | houtside
    · exact .inl ⟨a, List.mem_append_right _ ha, hhas⟩
    · obtain ⟨x, hx, hhas⟩ := (hs.memory.live_claimed a.block (List.mem_map_of_mem ha)).1 hrange
      exact .inl ⟨x, List.mem_append_left _ hx, hhas⟩
    · exact .inr (houtside h (by rw [hs.allocators_eq]))
  refine ⟨by rw [hs.allocators_eq]; rfl, ?_, hs.memory, hs.recorded, hs.requested⟩
  exact (Session.Step.sane hs.sane (.write hmay)).1

end Divided

/-- Every call and every write keeps the division of memory. -/
theorem Step.divided (hs : Divided c mem s h b pools) (hstep : Step c s e t) :
    ∃ h' b' pools', Divided c mem t h' b' pools' := by
  have hcur : s.allocators.currentHeap = some h := by rw [hs.allocators_eq]
  have hbuddy : s.allocators.alignedHeap = some b := by rw [hs.allocators_eq]
  cases hstep with
  | @new size p o hsize hcall =>
    rw [hcur] at hcall
    rcases operatorNew_firstFit hs.sane size hsize with hfull | ⟨p', h', hnew, hp, hs'⟩
    · simp [hfull] at hcall
    · obtain ⟨rfl, rfl⟩ := Prod.mk.inj (ok_unique hnew hcall)
      refine ⟨h', b, pools, by rw [hbuddy], sane_perm hs' ?_, hs.memory, hs.recorded, hs.requested⟩
      rw [handedOut, if_neg hp]
      exact List.perm_middle.symm
  | @delete a o ha hcall =>
    obtain ⟨h', hfree, hs'⟩ := hs.free_plain ha
    obtain rfl := ok_unique (delete_eq hcur hfree).1 hcall
    exact ⟨h', b, pools, by rw [hbuddy], hs'.sane, hs'.memory, hs'.recorded, hs'.requested⟩
  | @deleteNull o hcall =>
    obtain rfl := ok_unique (delete_eq hcur firstFit_free_null).1 hcall
    exact ⟨h, b, pools, by rw [hbuddy], hs.sane, hs.memory, hs.recorded, hs.requested⟩
  | @newSmall size alignment p m hsize hsmall hcall =>
    obtain ⟨p', h', halloc, hs'⟩ := firstFit_alloc hs.sane hsize
    simp only [alignedNew, hcur, hsmall, if_true, halloc, mapError_ok, ok_bind, pure_eq_ok,
      Except.ok.injEq, Prod.mk.injEq] at hcall
    obtain ⟨rfl, rfl⟩ := hcall
    refine ⟨h', b, pools, by rw [hbuddy], sane_perm hs' ?_, hs.memory, hs.recorded, hs.requested⟩
    rw [← List.append_assoc, ← List.append_assoc]
    exact List.perm_append_comm.append_right _
  | @deleteSmall a alignment m ha hsmall hcall =>
    obtain ⟨h', hfree, hs'⟩ := hs.free_plain ha
    obtain rfl := ok_unique ((delete_eq hcur hfree).2 alignment hsmall) hcall
    exact ⟨h', b, pools, by rw [hbuddy], hs'.sane, hs'.memory, hs'.recorded, hs'.requested⟩
  | @deleteSmallNull alignment m hsmall hcall =>
    obtain rfl := ok_unique ((delete_eq hcur firstFit_free_null).2 alignment hsmall) hcall
    exact ⟨h, b, pools, by rw [hbuddy], hs.sane, hs.memory, hs.recorded, hs.requested⟩
  | @newAligned size alignment p m hlarge hcall =>
    obtain ⟨b', o', halloc, rfl⟩ := alignedNew_eq_ok hbuddy hlarge hcall
    rw [hcur] at halloc
    obtain ⟨h', pools', hs'⟩ := hs.alloc_aligned hlarge halloc
    exact ⟨h', b', pools', hs'⟩
  | @deleteAligned a m ha hcall =>
    obtain ⟨b', hfree, rfl⟩ := alignedDelete_eq_ok hbuddy (hs.requested a ha) hcall
    obtain ⟨b'', hfree', hs'⟩ := hs.free_aligned ha
    obtain rfl := ok_unique hfree' hfree
    exact ⟨h, _, pools, by rw [hcur], hs'.sane, hs'.memory, hs'.recorded, hs'.requested⟩
  | write hq => exact ⟨_, b, pools, hs.write hq _⟩

/-- What the program relies on. -/
structure Apart (c : Config) (mem : FixedMemory) (s : Program) : Prop where
  /-- Allocations from the default heap are apart and in the region. -/
  plain : s.plain.Pairwise (fun a a' => a.addr + a.size < a'.addr ∨ a'.addr + a'.size < a.addr) ∧
    ∀ a ∈ s.plain, Set.Ico a.addr (a.addr + a.size) ⊆ Set.Ico mem.base (mem.base + mem.size)
  /-- Allocations from the aligned heap are apart and in the region. -/
  aligned : s.aligned.Pairwise (fun a a' => Disjoint a.block.range a'.block.range) ∧
    ∀ a ∈ s.aligned, a.block.range ⊆ Set.Ico mem.base (mem.base + mem.size)
  /-- Both kinds are apart. -/
  mixed : ∀ a ∈ s.plain, ∀ a' ∈ s.aligned,
    Disjoint (Set.Ico a.addr (a.addr + a.size)) a'.block.range
  /-- The plain `operator new` returns or is out of memory, and the aligned one returns where the
  default heap serves it. -/
  news : ∀ size ≤ 2 ^ 64 - c.alignment,
    (operatorNew (firstFit c) s.allocators.currentHeap size = .error .outOfMemory ∨
      ∃ r, operatorNew (firstFit c) s.allocators.currentHeap size = .ok r) ∧
    ∀ alignment ≤ heapAlignment, ∃ r, alignedNew (firstFit c) s.allocators size alignment = .ok r
  /-- The default heap takes back its allocations, so the plain `operator delete` returns, and the
  aligned one where it passes the pointer on. -/
  deletes : ∀ a ∈ s.plain, ∃ h h', s.allocators.currentHeap = some h ∧ h.free c a.addr = .ok h' ∧
    operatorDelete (firstFit c) s.allocators.currentHeap a.addr = .ok (some h') ∧
    ∀ alignment ≤ heapAlignment, alignedDelete (firstFit c) s.allocators a.addr alignment =
      .ok { s.allocators with currentHeap := some h' }
  /-- The aligned `operator delete` returns for allocations from the aligned heap. -/
  deletesAligned : ∀ a ∈ s.aligned,
    ∃ m, alignedDelete (firstFit c) s.allocators a.addr a.alignment = .ok m

theorem Divided.apart (hs : Divided c mem s h b pools) : Apart c mem s := by
  have hsound := hs.sane.sound
  obtain ⟨-, hplain, hmixed⟩ := List.pairwise_append.mp hsound.apart
  have hpool : ∀ a ∈ s.aligned, ∀ q ∈ a.block.range, ∃ x ∈ pools, x.Has q := fun a ha q hq =>
    (hs.memory.live_claimed a.block (List.mem_map_of_mem ha)).1 hq
  have haligned := List.pairwise_map.mp hs.memory.live_disjoint
  have hcur : s.allocators.currentHeap = some h := by rw [hs.allocators_eq]
  refine ⟨⟨hplain, fun a ha q hq => ?_⟩, ⟨haligned, fun a ha q hq => ?_⟩, fun a ha a' ha' => ?_,
    fun size hsize => ⟨?_, fun alignment hsmall => ?_⟩, fun a ha => ?_, fun a ha => ?_⟩
  · have := hsound.inside a (List.mem_append_right _ ha)
    obtain ⟨hlo, hhi⟩ := hq
    exact ⟨by omega, by omega⟩
  · obtain ⟨x, hx, hlo, hhi⟩ := hpool a ha q hq
    have := hsound.inside x (List.mem_append_left _ hx)
    exact ⟨by omega, by omega⟩
  · rw [Set.disjoint_left]
    rintro q ⟨hlo, hhi⟩ hq
    obtain ⟨x, hx, hxlo, hxhi⟩ := hpool a' ha' q hq
    have := hmixed x hx a ha
    omega
  · rw [hcur]
    rcases operatorNew_firstFit hs.sane size hsize with hfull | ⟨p, h', hnew, -⟩
    · exact .inl hfull
    · exact .inr ⟨_, hnew⟩
  · obtain ⟨p, h', halloc, -⟩ := firstFit_alloc hs.sane hsize
    refine ⟨(p, { s.allocators with currentHeap := some h' }), ?_⟩
    simp [alignedNew, hcur, hsmall, halloc]
  · obtain ⟨h', hfree, -⟩ := hs.free_plain ha
    exact ⟨h, h', hcur, hfree, delete_eq hcur hfree⟩
  · obtain ⟨b', hfree, -⟩ := hs.free_aligned ha
    refine ⟨⟨some h, some b'⟩, ?_⟩
    simp [alignedDelete, hs.allocators_eq, not_le.mpr (hs.requested a ha), hfree]

/-- The heap of the boot code with its assertions enabled. -/
def checkedHeap : Config := { bootHeap with enableAssert := true }

/-- The results of a plain request and of an aligned one after it. -/
def mixedRequests : Option (ℕ × ℕ) := do
  let h ← (FirstFitHeap.new checkedHeap (fun _ => 0xff) ⟨0x200000, 2 ^ 20⟩).toOption
  let m ← (initHeap h).toOption
  let r ← (operatorNew (firstFit checkedHeap) m.currentHeap 24).toOption
  let r' ← (alignedNew (firstFit checkedHeap) ⟨r.2, m.alignedHeap⟩ 64 64).toOption
  return (r.1, r'.1)

end Program

end Toyos.Boot
