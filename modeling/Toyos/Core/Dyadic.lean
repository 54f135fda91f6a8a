import Mathlib.Data.Nat.Bitwise
import Mathlib.Data.Set.Pairwise.Lattice
import Mathlib.Order.Interval.Set.Nat
import Mathlib.Tactic.Ring
import Mathlib.Order.CompletePartialOrder

/-!
# Dyadic blocks

A dyadic block of order `k` is a naturally aligned range of `2 ^ k` points. Two
aligned blocks are nested or disjoint, and a block and its buddy are the halves
of one block of the next order. Splitting a block and joining two buddies are
therefore inverse to each other.
-/

namespace Toyos.Core

/-- A range of `2 ^ ord` points that starts at `addr`. -/
structure Block where
  /-- Binary logarithm of the number of points. -/
  ord : ℕ
  /-- First point of the range. -/
  addr : ℕ
  deriving DecidableEq, Repr

namespace Block

/-- The points of a block. -/
def range (b : Block) : Set ℕ := Set.Ico b.addr (b.addr + 2 ^ b.ord)

/-- A naturally aligned block starts at a multiple of its own size. -/
def Aligned (b : Block) : Prop := 2 ^ b.ord ∣ b.addr

/-- The other half of the block one order up. -/
def buddy (b : Block) : Block := ⟨b.ord, b.addr ^^^ 2 ^ b.ord⟩

/-- The block that a block forms together with its buddy. -/
def parent (b : Block) : Block := ⟨b.ord + 1, min b.addr b.buddy.addr⟩

/-- The first half of a block of positive order. -/
def lower (b : Block) : Block := ⟨b.ord - 1, b.addr⟩

/-- The second half of a block of positive order. -/
def upper (b : Block) : Block := ⟨b.ord - 1, b.addr + 2 ^ (b.ord - 1)⟩

@[simp] theorem buddy_ord (b : Block) : b.buddy.ord = b.ord := rfl
@[simp] theorem parent_ord (b : Block) : b.parent.ord = b.ord + 1 := rfl
@[simp] theorem lower_ord (b : Block) : b.lower.ord = b.ord - 1 := rfl
@[simp] theorem upper_ord (b : Block) : b.upper.ord = b.ord - 1 := rfl

theorem mem_range {b : Block} {x : ℕ} : x ∈ b.range ↔ b.addr ≤ x ∧ x < b.addr + 2 ^ b.ord :=
  Iff.rfl

theorem addr_mem_range (b : Block) : b.addr ∈ b.range :=
  mem_range.mpr ⟨le_rfl, Nat.lt_add_of_pos_right (Nat.two_pow_pos _)⟩

/-- Blocks with disjoint ranges start at different addresses. -/
theorem addr_ne_of_disjoint {b c : Block} (h : Disjoint b.range c.range) : b.addr ≠ c.addr := by
  intro he
  have hc := c.addr_mem_range
  rw [← he] at hc
  exact Set.disjoint_left.mp h b.addr_mem_range hc

@[simp] theorem buddy_buddy (b : Block) : b.buddy.buddy = b := by
  simp [buddy]

/-- The points of an aligned block are those with its quotient by the block size. -/
theorem Aligned.mem_range_iff {b : Block} (h : b.Aligned) {x : ℕ} :
    x ∈ b.range ↔ x / 2 ^ b.ord = b.addr / 2 ^ b.ord := by
  obtain ⟨q, hq⟩ := h
  have hpos := Nat.two_pow_pos b.ord
  rw [mem_range, hq, Nat.mul_div_cancel_left _ hpos, Nat.div_eq_iff hpos]
  constructor
  · rintro ⟨hl, hu⟩
    rw [Nat.mul_comm] at hl hu
    omega
  · rintro ⟨hl, hu⟩
    rw [Nat.mul_comm]
    omega

/-- An aligned block that starts below a power of two of at least its size ends there. -/
theorem Aligned.end_le {b : Block} (h : b.Aligned) {k : ℕ} (hk : b.ord ≤ k)
    (hlt : b.addr < 2 ^ k) : b.addr + 2 ^ b.ord ≤ 2 ^ k := by
  obtain ⟨q, hq⟩ := h
  have hsplit : 2 ^ k = 2 ^ b.ord * 2 ^ (k - b.ord) := by
    rw [← pow_add, Nat.add_sub_of_le hk]
  rw [hq, hsplit] at hlt
  have hqr : q + 1 ≤ 2 ^ (k - b.ord) := Nat.lt_of_mul_lt_mul_left hlt
  calc b.addr + 2 ^ b.ord = 2 ^ b.ord * (q + 1) := by rw [hq]; ring
    _ ≤ 2 ^ b.ord * 2 ^ (k - b.ord) := Nat.mul_le_mul_left _ hqr
    _ = 2 ^ k := hsplit.symm

/-- Two aligned blocks that meet are nested, the smaller inside the larger. -/
theorem Aligned.range_subset {b c : Block} (hb : b.Aligned) (hc : c.Aligned)
    (hle : b.ord ≤ c.ord) {x : ℕ} (hxb : x ∈ b.range) (hxc : x ∈ c.range) :
    b.range ⊆ c.range := by
  intro y hy
  rw [hb.mem_range_iff] at hxb hy
  rw [hc.mem_range_iff] at hxc ⊢
  have hsplit : 2 ^ c.ord = 2 ^ b.ord * 2 ^ (c.ord - b.ord) := by
    rw [← pow_add, Nat.add_sub_of_le hle]
  rw [hsplit, ← Nat.div_div_eq_div_mul] at hxc ⊢
  rw [hy, ← hxb]
  exact hxc

/-- Aligned blocks of one order that meet are the same block. -/
theorem Aligned.eq_of_mem {b c : Block} (hb : b.Aligned) (hc : c.Aligned)
    (ho : b.ord = c.ord) {x : ℕ} (hxb : x ∈ b.range) (hxc : x ∈ c.range) : b = c := by
  have hbc := hb.range_subset hc ho.le hxb hxc b.addr_mem_range
  have hcb := hc.range_subset hb ho.ge hxc hxb c.addr_mem_range
  cases b
  cases c
  simp only [Block.mk.injEq]
  exact ⟨ho, le_antisymm hcb.1 hbc.1⟩

/-- The buddy of an aligned block is its neighbour on the side that the next order selects. -/
theorem Aligned.buddy_cases {b : Block} (h : b.Aligned) :
    (b.buddy.addr = b.addr + 2 ^ b.ord ∧ 2 ^ (b.ord + 1) ∣ b.addr) ∨
      (b.addr = b.buddy.addr + 2 ^ b.ord ∧ 2 ^ (b.ord + 1) ∣ b.buddy.addr) := by
  obtain ⟨q, hq⟩ := h
  have hx : b.buddy.addr = (q ^^^ 1) * 2 ^ b.ord := by
    simp only [buddy]
    rw [hq, Nat.mul_comm, ← Nat.shiftLeft_eq, ← Nat.shiftLeft_eq, Nat.shiftLeft_xor_distrib,
      Nat.one_shiftLeft]
  rcases Nat.even_or_odd q with he | ho
  · left
    rw [Nat.xor_one_of_even he] at hx
    refine ⟨by rw [hx, hq]; ring, ?_⟩
    obtain ⟨r, hr⟩ := he
    exact ⟨r, by rw [hq, hr]; ring⟩
  · right
    rw [Nat.xor_one_of_odd ho] at hx
    obtain ⟨r, hr⟩ := ho
    refine ⟨by rw [hx, hq, hr]; simp; ring, r, by rw [hx, hr]; simp; ring⟩

theorem Aligned.buddy {b : Block} (h : b.Aligned) : b.buddy.Aligned := by
  have hpos : (2 ^ b.ord : ℕ) ∣ 2 ^ (b.ord + 1) := ⟨2, by ring⟩
  rcases h.buddy_cases with ⟨ha, hd⟩ | ⟨-, hd⟩
  · unfold Aligned
    rw [ha]
    exact Nat.dvd_add (hpos.trans hd) (dvd_refl _)
  · exact hpos.trans hd

theorem Aligned.parent {b : Block} (h : b.Aligned) : b.parent.Aligned := by
  unfold Aligned Block.parent
  rcases h.buddy_cases with ⟨ha, hd⟩ | ⟨ha, hd⟩
  · rwa [min_eq_left (by omega)]
  · rwa [min_eq_right (by omega)]

/-- A block and its buddy fill their parent. -/
theorem Aligned.range_parent {b : Block} (h : b.Aligned) :
    b.parent.range = b.range ∪ b.buddy.range := by
  ext x
  have hpos := Nat.two_pow_pos b.ord
  simp only [Set.mem_union, mem_range, Block.parent, buddy_ord, pow_succ]
  rcases h.buddy_cases with ⟨ha, -⟩ | ⟨ha, -⟩
  · rw [min_eq_left (by omega)]
    omega
  · rw [min_eq_right (by omega)]
    omega

/-- A block and its buddy share no point. -/
theorem Aligned.disjoint_buddy {b : Block} (h : b.Aligned) : Disjoint b.range b.buddy.range := by
  rw [Set.disjoint_left]
  intro x hx hy
  rw [mem_range] at hx hy
  rw [buddy_ord] at hy
  rcases h.buddy_cases with ⟨ha, -⟩ | ⟨ha, -⟩ <;> omega

theorem Aligned.buddy_ne {b : Block} (h : b.Aligned) : b.buddy ≠ b := by
  intro he
  have hd := h.disjoint_buddy
  rw [he] at hd
  exact Set.disjoint_left.mp hd b.addr_mem_range b.addr_mem_range

theorem Aligned.lower {b : Block} (h : b.Aligned) : b.lower.Aligned :=
  (pow_dvd_pow 2 (Nat.sub_le _ _)).trans h

/-- The halves of an aligned block of positive order are each other's buddies: the
first half starts at a multiple of the full size, so it is no second half. -/
theorem Aligned.buddy_lower {b : Block} (h : b.Aligned) (ho : b.ord ≠ 0) :
    b.lower.buddy = b.upper := by
  have hsucc : b.ord - 1 + 1 = b.ord := by omega
  rcases h.lower.buddy_cases with ⟨ha, -⟩ | ⟨ha, hd⟩
  · simp only [Block.upper, Block.buddy, Block.mk.injEq] at ha ⊢
    exact ⟨rfl, ha⟩
  · exfalso
    simp only [lower_ord, hsucc] at hd ha
    have hfull : 2 ^ b.ord ∣ b.lower.buddy.addr + 2 ^ (b.ord - 1) := ha ▸ h
    have hhalf := (Nat.dvd_add_right hd).mp hfull
    have hlt : 2 ^ (b.ord - 1) < 2 ^ b.ord := Nat.pow_lt_pow_right (by decide) (by omega)
    exact absurd (Nat.le_of_dvd (Nat.two_pow_pos _) hhalf) (by omega)

theorem Aligned.parent_lower {b : Block} (h : b.Aligned) (ho : b.ord ≠ 0) :
    b.lower.parent = b := by
  rw [Block.parent, h.buddy_lower ho]
  cases b
  simp only [Block.lower, Block.upper] at ho ⊢
  simp only [Block.mk.injEq]
  exact ⟨by omega, min_eq_left (Nat.le_add_right _ _)⟩

theorem Aligned.upper {b : Block} (h : b.Aligned) (ho : b.ord ≠ 0) : b.upper.Aligned := by
  rw [← h.buddy_lower ho]
  exact h.lower.buddy

/-- The halves of a block are disjoint and fill it. -/
theorem Aligned.range_halves {b : Block} (h : b.Aligned) (ho : b.ord ≠ 0) :
    b.range = b.lower.range ∪ b.upper.range ∧ Disjoint b.lower.range b.upper.range := by
  have hu := h.lower.range_parent
  have hd := h.lower.disjoint_buddy
  rw [h.parent_lower ho, h.buddy_lower ho] at hu
  rw [h.buddy_lower ho] at hd
  exact ⟨hu, hd⟩

end Block

end Toyos.Core
