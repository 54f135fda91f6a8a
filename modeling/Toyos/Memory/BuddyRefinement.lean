import Toyos.Core.Tiling
import Toyos.Memory.Buddy

/-!
# The block manager refines tilings

A block manager represents a family of dyadic blocks: the block of order `k` at
address `a` belongs to it when `a` is an element of the set stored for `k`. Each
manager operation is related to one change of that family. Splitting and merging
need the family to be a focused tiling; then none of their assertions can fail.
-/

namespace Toyos.Memory

open Toyos.Core Toyos.Util

namespace HeapBlockManager

/-- The stored family of blocks. -/
def blockSet (m : HeapBlockManager) : Set Block :=
  {b | ∃ s, m.freeBlocks[b.ord]? = some s ∧ b.addr ∈ s}

/-- The manager stores exactly the blocks `B` for the orders up to `top`. -/
structure Represents (m : HeapBlockManager) (top : ℕ) (B : Set Block) : Prop where
  /-- The top order fits the 64-bit address space. -/
  top_le : top ≤ maximalOrder
  /-- The manager was built for this top order. -/
  maxOrd_eq : m.maxOrd = top
  /-- The vector has one set for each order. -/
  length_eq : m.freeBlocks.length = top + 1
  /-- The stored family. -/
  blockSet_eq : m.blockSet = B

namespace Represents

variable {m m' : HeapBlockManager} {top : ℕ} {B : Set Block} {b : Block}

/-- Every order up to the top has a stored set, whose elements are the blocks of that order. -/
theorem storage_ok (h : m.Represents top B) {ord : ℕ} (ho : ord ≤ top) :
    ∃ s, m.freeBlocks[ord]? = some s ∧ m.storage ord = .ok s ∧ ∀ a, a ∈ s ↔ ⟨ord, a⟩ ∈ B := by
  have hlt : ord < m.freeBlocks.length := by
    rw [h.length_eq]
    omega
  have hget := List.getElem?_eq_getElem hlt
  refine ⟨m.freeBlocks[ord], hget, by simp [storage, hget], fun a => ?_⟩
  rw [← h.blockSet_eq]
  simp only [blockSet, Set.mem_ofPred_eq, hget, Option.some.injEq, exists_eq_left']

/-- Replacing the set of one order changes the family at that order only. -/
theorem set_storage (h : m.Represents top B) {ord : ℕ} (ho : ord ≤ top) (s : Finset ℕ)
    {C : Set Block} (hsame : ∀ b : Block, b.ord ≠ ord → (b ∈ C ↔ b ∈ B))
    (hnew : ∀ a, ⟨ord, a⟩ ∈ C ↔ a ∈ s) :
    ({ m with freeBlocks := m.freeBlocks.set ord s } : HeapBlockManager).Represents top C := by
  have hlt : ord < m.freeBlocks.length := by
    rw [h.length_eq]
    omega
  refine ⟨h.top_le, h.maxOrd_eq, by simpa using h.length_eq, ?_⟩
  ext b
  by_cases hb : b.ord = ord
  · cases b with
    | mk bo ba =>
      simp only at hb
      subst hb
      simp [blockSet, hlt, hnew]
  · rw [hsame b hb, ← h.blockSet_eq]
    simp only [blockSet, Set.mem_ofPred_eq, List.getElem?_set_ne (Ne.symm hb)]

/-- The family determines the representation. -/
theorem unique (h : m.Represents top B) (h' : m'.Represents top B) : m = m' := by
  have hlist : m.freeBlocks = m'.freeBlocks := by
    apply List.ext_getElem?
    intro ord
    by_cases ho : ord ≤ top
    · obtain ⟨s, hs, -, hmem⟩ := h.storage_ok ho
      obtain ⟨s', hs', -, hmem'⟩ := h'.storage_ok ho
      have he : s = s' := by
        ext a
        rw [hmem, hmem']
      rw [hs, hs', he]
    · rw [List.getElem?_eq_none (by rw [h.length_eq]; omega),
        List.getElem?_eq_none (by rw [h'.length_eq]; omega)]
  have hmax := h.maxOrd_eq.trans h'.maxOrd_eq.symm
  cases m
  cases m'
  simp_all

/-- A new manager stores nothing. -/
theorem new_ok {top : ℕ} (htop : top ≤ maximalOrder) :
    ∃ m, new top = .ok m ∧ m.Represents top ∅ := by
  refine ⟨⟨List.replicate (top + 1) ∅, top⟩, by simp [new, htop],
    ⟨htop, rfl, by simp, ?_⟩⟩
  ext b
  simp only [blockSet, Set.mem_ofPred_eq, Set.mem_empty_iff_false, iff_false, not_exists, not_and]
  intro s hs
  rw [List.eq_of_mem_replicate (List.mem_of_getElem? hs)]
  exact Finset.notMem_empty _

theorem getAddr_ok (h : m.Represents top B) (hb : b ∈ B) (ho : b.ord ≤ top) :
    m.getAddr b = .ok b.addr := by
  obtain ⟨s, -, hs, hmem⟩ := h.storage_ok ho
  simp [getAddr, hs, (hmem b.addr).mpr hb]

/-- Erasing a stored block removes it from the family. -/
theorem erase_ok (h : m.Represents top B) (hb : b ∈ B) (ho : b.ord ≤ top) :
    ∃ m', m.erase b = .ok m' ∧ m'.Represents top (B \ {b}) := by
  obtain ⟨s, -, hs, hmem⟩ := h.storage_ok ho
  refine ⟨{ m with freeBlocks := m.freeBlocks.set b.ord (s.erase b.addr) },
    by simp [erase, hs, (hmem b.addr).mpr hb], h.set_storage ho _ ?_ ?_⟩
  · intro c hc
    simp only [Set.mem_sdiff, Set.mem_singleton_iff, and_iff_left_iff_imp]
    intro _ he
    exact hc (congrArg Block.ord he)
  · intro a
    rw [Finset.mem_erase, hmem, Set.mem_sdiff, Set.mem_singleton_iff]
    cases b
    simp [and_comm]

/-- Inserting an absent block adds it to the family and reports success. -/
theorem emplace_ok (h : m.Represents top B) (hb : b ∉ B) (ho : b.ord ≤ top) :
    ∃ m', m.emplace b.ord b.addr = .ok (m', true) ∧ m'.Represents top (insert b B) := by
  obtain ⟨s, -, hs, hmem⟩ := h.storage_ok ho
  have hnot : b.addr ∉ s := fun ha => hb ((hmem b.addr).mp ha)
  refine ⟨{ m with freeBlocks := m.freeBlocks.set b.ord (insert b.addr s) },
    by simp [emplace, hs, hnot], h.set_storage ho _ ?_ ?_⟩
  · intro c hc
    simp only [Set.mem_insert_iff, or_iff_right_iff_imp]
    intro he
    exact absurd (congrArg Block.ord he) hc
  · intro a
    rw [Finset.mem_insert, hmem, Set.mem_insert_iff]
    cases b
    simp

/-- One round of the search leaves at a nonempty order or behind the maximal one, and passes
an empty order otherwise. -/
private theorem getFreeRound_ok (h : m.Represents top B) (k : ℕ) :
    (m.getFreeRound k = .ok (.inr k) ∧ (k ≤ top → ∃ a, ⟨k, a⟩ ∈ B)) ∨
      (m.getFreeRound k = .ok (.inl (k + 1)) ∧ k ≤ top ∧ ∀ b ∈ B, b.ord ≠ k) := by
  by_cases hle : k ≤ top
  · obtain ⟨s, -, hs, hmem⟩ := h.storage_ok hle
    by_cases hempty : s = ∅
    · right
      refine ⟨by simp [getFreeRound, h.maxOrd_eq, hle, hs, hempty], hle, fun b hb heq => ?_⟩
      have ha : b.addr ∈ s := (hmem b.addr).mpr (heq ▸ hb)
      simp [hempty] at ha
    · left
      obtain ⟨a, ha⟩ := Finset.nonempty_iff_ne_empty.mpr hempty
      exact ⟨by simp [getFreeRound, h.maxOrd_eq, hle, hs, hempty], fun _ => ⟨a, (hmem a).mp ha⟩⟩
  · exact Or.inl ⟨by simp [getFreeRound, h.maxOrd_eq, hle], fun hle' => absurd hle' hle⟩

/-- The search returns a block of the least sufficient order, or nothing when every
sufficient order is empty. -/
theorem getFree_ok (h : m.Represents top B) (order : ℕ) :
    (m.getFree order = .ok none ∧ ∀ b ∈ B, b.ord ≤ top → b.ord < order) ∨
      ∃ b ∈ B, m.getFree order = .ok (some b) ∧ order ≤ b.ord ∧ b.ord ≤ top := by
  obtain ⟨found, hloop, hge, hskip, hstop⟩ : ∃ found,
      loop m.getFreeRound .unfinishedLoop (maximalOrder + 2) order = .ok found ∧ order ≤ found ∧
      (∀ b ∈ B, order ≤ b.ord → b.ord < found → top < b.ord) ∧
      (found ≤ top → ∃ a, ⟨found, a⟩ ∈ B) := by
    apply loop_spec (fun k => order ≤ k ∧ ∀ b ∈ B, order ≤ b.ord → b.ord < k → top < b.ord) _
      (fun k => top + 1 - k)
    · rintro k ⟨hk, hskip⟩
      rcases h.getFreeRound_ok k with hstop | ⟨hround, hle, hne⟩
      · exact Or.inl ⟨k, hstop.1, hk, hskip, hstop.2⟩
      · refine Or.inr ⟨k + 1, hround, ⟨by omega, fun b hb hob hlt => ?_⟩, by omega⟩
        have := hne b hb
        exact hskip b hb hob (by omega)
    · exact ⟨le_rfl, fun b _ hob hlt => by omega⟩
    · have := h.top_le
      omega
  by_cases hle : found ≤ top
  · right
    obtain ⟨a, ha⟩ := hstop hle
    obtain ⟨s, -, hs, hmem⟩ := h.storage_ok hle
    have hne : s.Nonempty := ⟨a, (hmem a).mpr ha⟩
    refine ⟨⟨found, s.min' hne⟩, (hmem _).mp (s.min'_mem hne), ?_, hge, hle⟩
    simp [getFree, hloop, h.maxOrd_eq, hle, hs, first, hne]
  · left
    refine ⟨by simp [getFree, hloop, h.maxOrd_eq]; omega, fun b hb hob => ?_⟩
    by_contra hlt
    have := hskip b hb (by omega) (by omega)
    omega

/-- Splitting the focus replaces it by its halves; no assertion fails. -/
theorem splitFree_ok (h : m.Represents top B) (hf : Focused top B b) (ho : b.ord ≠ 0)
    (hin : cover B ⊆ Set.Iio (2 ^ 64)) :
    ∃ m', m.splitFree b = .ok (m', b.lower) ∧
      m'.Represents top (insert b.lower (insert b.upper (B \ {b}))) := by
  have hle := hf.bounded b hf.mem
  have htop : top ≤ 63 := h.top_le
  have hshift : wrap (1 <<< (b.ord - 1)) = 2 ^ (b.ord - 1) := wrap_one_shiftLeft (by omega)
  have hmid : b.addr + 2 ^ (b.ord - 1) ∈ b.range := by
    rw [((hf.aligned b hf.mem).range_halves ho).1]
    exact Or.inr b.upper.addr_mem_range
  have hupper : wrap (b.addr + 2 ^ (b.ord - 1)) = b.upper.addr :=
    wrap_of_lt (hin (range_subset_cover hf.mem hmid))
  obtain ⟨hu, hl, -, -⟩ := hf.split ho
  obtain ⟨m₁, he₁, hm₁⟩ := h.erase_ok hf.mem hle
  obtain ⟨m₂, he₂, hm₂⟩ := hm₁.emplace_ok hu (show b.ord - 1 ≤ top by omega)
  obtain ⟨m₃, he₃, hm₃⟩ := hm₂.emplace_ok hl (show b.ord - 1 ≤ top by omega)
  refine ⟨m₃, ?_, hm₃⟩
  simp only [Block.upper_ord] at he₂
  simp only [Block.lower_ord, show b.lower.addr = b.addr from rfl] at he₃
  simp [splitFree, h.getAddr_ok hf.mem hle, ho, he₁, hshift, hupper, he₂, he₃, Block.lower]

/-- Merging the focus either changes nothing, because it cannot be joined, or replaces
the focus and its buddy by their parent; no assertion fails. -/
theorem mergeFree_ok (h : m.Represents top B) (hf : Focused top B b) :
    (m.mergeFree b = .ok (m, none) ∧ (top ≤ b.ord ∨ b.buddy ∉ B)) ∨
      ∃ m', m.mergeFree b = .ok (m', some b.parent) ∧ b.ord < top ∧ b.buddy ∈ B ∧
        m'.Represents top (insert b.parent ((B \ {b}) \ {b.buddy})) := by
  have hle := hf.bounded b hf.mem
  have htop : top ≤ 63 := h.top_le
  by_cases hmax : top ≤ b.ord
  · exact Or.inl ⟨by simp [mergeFree, h.maxOrd_eq, hmax], Or.inl hmax⟩
  · have hbuddy : m.getBuddyAddr b.addr b.ord = .ok b.buddy.addr := by
      simp [getBuddyAddr, maximalOrder, h.maxOrd_eq, show b.ord ≤ 63 by omega, hle,
        wrap_one_shiftLeft (show b.ord < 64 by omega), Block.buddy]
    obtain ⟨s, -, hs, hmem⟩ := h.storage_ok hle
    by_cases hb : b.buddy ∈ B
    · right
      have hin : b.buddy.addr ∈ s := (hmem _).mpr hb
      have hb' : b.buddy ∈ B \ {b} := ⟨hb, (hf.aligned b hf.mem).buddy_ne⟩
      obtain ⟨hnew, -, -⟩ := hf.join (by omega) hb
      obtain ⟨m₁, he₁, hm₁⟩ := h.erase_ok hf.mem hle
      obtain ⟨m₂, he₂, hm₂⟩ := hm₁.erase_ok hb' hle
      obtain ⟨m₃, he₃, hm₃⟩ := hm₂.emplace_ok hnew (show b.ord + 1 ≤ top by omega)
      have he₂' : m₁.erase ⟨b.ord, b.buddy.addr⟩ = .ok m₂ := he₂
      have he₃' : m₂.emplace (b.ord + 1) (min b.addr b.buddy.addr) = .ok (m₃, true) := he₃
      refine ⟨m₃, ?_, by omega, hb, hm₃⟩
      simp [mergeFree, h.maxOrd_eq, hmax, h.getAddr_ok hf.mem hle, hbuddy, hs, hin, he₁, he₂',
        he₃', Block.parent]
    · have hin : b.buddy.addr ∉ s := fun ha => hb ((hmem _).mp ha)
      exact Or.inl ⟨by simp [mergeFree, h.maxOrd_eq, hmax, h.getAddr_ok hf.mem hle, hbuddy, hs,
        hin], Or.inr hb⟩

/-- Adding an absent aligned block passes all assertions. -/
theorem addFree_ok (h : m.Represents top B) (hb : b ∉ B) (ha : b.Aligned) (ho : b.ord ≤ top) :
    ∃ m', m.addFree b.addr b.ord = .ok (m', b) ∧ m'.Represents top (insert b B) := by
  have htop : top ≤ 63 := h.top_le
  obtain ⟨m', he, hm'⟩ := h.emplace_ok hb ho
  refine ⟨m', ?_, hm'⟩
  have hal : isAligned b.addr b.ord = true := (isAligned_iff (by omega)).mpr ha
  simp [addFree, h.maxOrd_eq, ho, hal, h.length_eq, show b.ord < top + 1 by omega, he]

end Represents

end HeapBlockManager

namespace BuddyImpl

/-- The free addresses of an allocator state. -/
def freeSet (s : BuddyImpl) : Set ℕ := cover s.blocks.blockSet

/-- The allocator invariant: the stored blocks are a canonical tiling of free memory
inside the 64-bit address space. -/
structure Inv (top : ℕ) (s : BuddyImpl) : Prop where
  /-- The public maximal order is the top order. -/
  maxOrder_eq : s.maxOrder = top
  /-- The manager is well formed. -/
  represents : s.blocks.Represents top s.blocks.blockSet
  /-- All joinable buddies are joined. -/
  canonical : Canonical top s.blocks.blockSet
  /-- Free addresses are 64-bit addresses. -/
  inside : s.freeSet ⊆ Set.Iio (2 ^ 64)

/-- A state whose manager represents a canonical tiling satisfies the invariant. -/
theorem Inv.of_represents {s : BuddyImpl} {top : ℕ} {B : Set Block} (hmax : s.maxOrder = top)
    (hr : s.blocks.Represents top B) (hc : Canonical top B) (hin : cover B ⊆ Set.Iio (2 ^ 64)) :
    s.Inv top := by
  have hB := hr.blockSet_eq
  subst hB
  exact ⟨hmax, hr, hc, hin⟩

/-- A buddy without memory satisfies the invariant. -/
theorem new_ok {top : ℕ} (htop : top ≤ maximalOrder) :
    ∃ s, new top = .ok s ∧ s.Inv top ∧ s.freeSet = ∅ := by
  have hmod : top % 256 = top := Nat.mod_eq_of_lt (by unfold maximalOrder at htop; omega)
  obtain ⟨m, hm, hr⟩ := HeapBlockManager.Represents.new_ok htop
  refine ⟨⟨top, m⟩, by simp [new, hmod, hm, htop],
    Inv.of_represents rfl hr (Canonical.empty top) (by simp), ?_⟩
  rw [freeSet, hr.blockSet_eq, cover_empty]

variable {top : ℕ} {s : BuddyImpl}

/-- The splitting loop reaches the requested order without changing free memory. -/
private theorem splitLoop_ok {m : HeapBlockManager} {B : Set Block} {b : Block} {order : ℕ}
    (hr : m.Represents top B) (hf : Focused top B b) (hin : cover B ⊆ Set.Iio (2 ^ 64))
    (ho : order ≤ b.ord) :
    ∃ r : HeapBlockManager × Block,
      loop (allocRound order) .unfinishedLoop (maximalOrder + 2) (m, b) = .ok r ∧
      r.2.ord = order ∧ ∃ C, r.1.Represents top C ∧ Focused top C r.2 ∧ cover C = cover B := by
  apply loop_spec
    (fun r : HeapBlockManager × Block => order ≤ r.2.ord ∧
      ∃ C, r.1.Represents top C ∧ Focused top C r.2 ∧ cover C = cover B)
    _ (fun r => r.2.ord)
  · rintro ⟨m, b⟩ ⟨hle, C, hm, hfoc, hcov⟩
    by_cases hlt : b.ord > order
    · have ho : b.ord ≠ 0 := by omega
      obtain ⟨m', hsplit, hm'⟩ := hm.splitFree_ok hfoc ho (hcov ▸ hin)
      obtain ⟨-, -, hfoc', hcov'⟩ := hfoc.split ho
      exact Or.inr ⟨(m', b.lower), by simp [allocRound, hlt, hsplit],
        ⟨show order ≤ b.ord - 1 by omega, _, hm', hfoc', hcov'.trans hcov⟩,
        show b.ord - 1 < b.ord by omega⟩
    · exact Or.inl ⟨(m, b), by simp [allocRound, hlt], by simp only at hle ⊢; omega,
        C, hm, hfoc, hcov⟩
  · exact ⟨ho, B, hr, hf, rfl⟩
  · have hb := hf.bounded b hf.mem
    have htop := hr.top_le
    simp only
    omega

/-- Allocation either finds no sufficient block and changes nothing, or removes one
aligned range of the requested order from free memory. -/
theorem Inv.alloc_ok (h : s.Inv top) (order : ℕ) :
    (s.alloc order = .ok (none, s) ∧ ∀ b ∈ s.blocks.blockSet, b.ord < order) ∨
      ∃ a s', s.alloc order = .ok (some a, s') ∧ s'.Inv top ∧ order ≤ top ∧ 2 ^ order ∣ a ∧
        Set.Ico a (a + 2 ^ order) ⊆ s.freeSet ∧
        s'.freeSet = s.freeSet \ Set.Ico a (a + 2 ^ order) := by
  rcases h.represents.getFree_ok order with ⟨hget, hall⟩ | ⟨b, hb, hget, hle, -⟩
  · exact Or.inl ⟨by simp [alloc, hget], fun b hb => hall b hb (h.canonical.bounded b hb)⟩
  · obtain ⟨⟨m, c⟩, hloop, hord, C, hm, hf, hcov⟩ :=
      splitLoop_ok h.represents (h.canonical.focus hb) h.inside hle
    simp only at hord
    subst hord
    have hc := hf.bounded c hf.mem
    obtain ⟨m', herase, hm'⟩ := hm.erase_ok hf.mem hc
    have hfree : cover (C \ {c}) = s.freeSet \ c.range := by
      rw [hf.cover_diff hf.mem, hcov]
      rfl
    refine Or.inr ⟨c.addr, { s with blocks := m' }, ?_, ?_, hc, hf.aligned c hf.mem, ?_, ?_⟩
    · simp [alloc, hget, hloop, hm.getAddr_ok hf.mem hc, HeapBlockManager.markUsed, herase]
    · refine Inv.of_represents h.maxOrder_eq hm' hf.remove ?_
      rw [hfree]
      exact Set.sdiff_subset.trans h.inside
    · have hsub := range_subset_cover hf.mem
      rw [hcov] at hsub
      exact hsub
    · rw [freeSet, hm'.blockSet_eq]
      exact hfree

/-- The merging loop ends in a canonical tiling of the same memory. -/
private theorem mergeLoop_ok {m : HeapBlockManager} {B : Set Block} {b : Block}
    (hr : m.Represents top B) (hf : Focused top B b) :
    ∃ m', loop freeRound .unfinishedLoop (maximalOrder + 2) (m, b) = .ok m' ∧
      ∃ C, m'.Represents top C ∧ Canonical top C ∧ cover C = cover B := by
  apply loop_spec
    (fun r : HeapBlockManager × Block =>
      ∃ C, r.1.Represents top C ∧ Focused top C r.2 ∧ cover C = cover B)
    _ (fun r => top + 1 - r.2.ord)
  · rintro ⟨m, b⟩ ⟨C, hm, hfoc, hcov⟩
    rcases hm.mergeFree_ok hfoc with ⟨hmerge, hstop⟩ | ⟨m', hmerge, hlt, hbuddy, hm'⟩
    · exact Or.inl ⟨m, by simp [freeRound, hmerge], C, hm, hfoc.canonical hstop, hcov⟩
    · simp only at hlt
      obtain ⟨-, hfoc', hcov'⟩ := hfoc.join hlt hbuddy
      exact Or.inr ⟨(m', b.parent), by simp [freeRound, hmerge],
        ⟨_, hm', hfoc', hcov'.trans hcov⟩,
        show top + 1 - (b.ord + 1) < top + 1 - b.ord by omega⟩
  · exact ⟨B, hr, hf, rfl⟩
  · have htop := hr.top_le
    simp only
    omega

/-- Freeing an aligned range outside free memory adds exactly that range. -/
theorem Inv.free_ok (h : s.Inv top) {addr order : ℕ} (haddr : addr < 2 ^ 64) (ho : order ≤ top)
    (ha : 2 ^ order ∣ addr) (hd : Disjoint (Set.Ico addr (addr + 2 ^ order)) s.freeSet) :
    ∃ s', s.free addr order = .ok s' ∧ s'.Inv top ∧
      s'.freeSet = s.freeSet ∪ Set.Ico addr (addr + 2 ^ order) := by
  have hfoc : Focused top (insert ⟨order, addr⟩ s.blocks.blockSet) ⟨order, addr⟩ :=
    h.canonical.insert_focus ha ho hd
  obtain ⟨m₁, hadd, hm₁⟩ := h.represents.addFree_ok
    (Tiling.not_mem_of_disjoint (b := ⟨order, addr⟩) hd) ha ho
  obtain ⟨m₂, hloop, C, hm₂, hcan, hcov⟩ := mergeLoop_ok hm₁ hfoc
  have hfree : cover C = s.freeSet ∪ Set.Ico addr (addr + 2 ^ order) := by
    rw [hcov, cover_insert, Set.union_comm]
    rfl
  refine ⟨{ s with blocks := m₂ }, by simp [free, hadd, hloop], ?_, ?_⟩
  · refine Inv.of_represents h.maxOrder_eq hm₂ hcan ?_
    rw [hfree]
    refine Set.union_subset h.inside fun x hx => ?_
    have htop : top ≤ 63 := h.represents.top_le
    have hend := Block.Aligned.end_le (b := ⟨order, addr⟩) ha (show order ≤ 64 by omega) haddr
    exact lt_of_lt_of_le hx.2 hend
  · rw [freeSet, hm₂.blockSet_eq]
    exact hfree

end BuddyImpl

end Toyos.Memory
