import Toyos.Core.Dyadic

/-!
# Canonical tilings by dyadic blocks

A tiling is a family of disjoint aligned blocks up to a top order. It is
canonical when no two buddies below the top order both occur. A canonical tiling
stores a block around every aligned range it covers, and it is determined by the
set it covers.

`Focused` weakens canonicity at one distinguished block. Splitting and joining
both move the focus by one order without changing the covered set, so the two
cascades of a buddy allocator share this one invariant.
-/

namespace Toyos.Core

open Block

/-- The points covered by a family of blocks. -/
def cover (B : Set Block) : Set ℕ := ⋃ b ∈ B, b.range

theorem mem_cover {B : Set Block} {x : ℕ} : x ∈ cover B ↔ ∃ b ∈ B, x ∈ b.range := by
  simp [cover]

theorem range_subset_cover {B : Set Block} {b : Block} (hb : b ∈ B) : b.range ⊆ cover B :=
  fun _ hx => mem_cover.mpr ⟨b, hb, hx⟩

@[simp] theorem cover_empty : cover ∅ = ∅ := by simp [cover]

@[simp] theorem cover_insert (b : Block) (B : Set Block) :
    cover (insert b B) = b.range ∪ cover B := by simp [cover]

theorem cover_cons (b : Block) (bs : List Block) :
    cover {c | c ∈ b :: bs} = b.range ∪ cover {c | c ∈ bs} := by
  rw [← cover_insert]
  congr 1
  ext c
  simp

/-- Disjoint aligned blocks whose orders stay below a common top. -/
structure Tiling (top : ℕ) (B : Set Block) : Prop where
  /-- Every block starts at a multiple of its size. -/
  aligned : ∀ b ∈ B, b.Aligned
  /-- No block is larger than the top order. -/
  bounded : ∀ b ∈ B, b.ord ≤ top
  /-- Distinct blocks of any orders share no point. -/
  disjoint : B.PairwiseDisjoint Block.range

/-- A tiling in which all joinable buddies have been joined. -/
structure Canonical (top : ℕ) (B : Set Block) : Prop extends Tiling top B where
  /-- Below the top order a block and its buddy never both occur. -/
  joined : ∀ b ∈ B, b.ord < top → b.buddy ∉ B

/-- A tiling whose only joinable buddies are one distinguished block and its buddy. -/
structure Focused (top : ℕ) (B : Set Block) (b : Block) : Prop extends Tiling top B where
  /-- The distinguished block occurs. -/
  mem : b ∈ B
  /-- Every other joinable pair of buddies has been joined. -/
  settled : ∀ c ∈ B, c.ord < top → c.buddy ∈ B → c = b ∨ c.buddy = b

theorem Canonical.empty (top : ℕ) : Canonical top ∅ := by
  constructor
  · constructor <;> simp
  · simp

namespace Tiling

variable {top : ℕ} {B : Set Block} {b c : Block}

/-- Blocks of a tiling that meet are equal. -/
theorem eq_of_mem (h : Tiling top B) (hb : b ∈ B) (hc : c ∈ B) {x : ℕ}
    (hxb : x ∈ b.range) (hxc : x ∈ c.range) : b = c := by
  by_contra hne
  exact Set.disjoint_left.mp (h.disjoint hb hc hne) hxb hxc

/-- Removing blocks keeps a tiling. -/
theorem mono (h : Tiling top B) {C : Set Block} (hC : C ⊆ B) : Tiling top C :=
  ⟨fun b hb => h.aligned b (hC hb), fun b hb => h.bounded b (hC hb), h.disjoint.subset hC⟩

/-- An aligned block that avoids the covered points may be added. -/
theorem insert (h : Tiling top B) (ha : b.Aligned) (ho : b.ord ≤ top)
    (hd : Disjoint b.range (cover B)) : Tiling top (insert b B) := by
  refine ⟨?_, ?_, ?_⟩
  · rintro c (rfl | hc)
    · exact ha
    · exact h.aligned c hc
  · rintro c (rfl | hc)
    · exact ho
    · exact h.bounded c hc
  · refine h.disjoint.insert fun c hc _ => ?_
    exact hd.mono_right (range_subset_cover hc)

/-- A block that avoids the covered points is not stored already. -/
theorem not_mem_of_disjoint (hd : Disjoint b.range (cover B)) : b ∉ B := fun hb =>
  Set.disjoint_left.mp hd b.addr_mem_range (range_subset_cover hb b.addr_mem_range)

/-- Removing one block uncovers exactly its points. -/
theorem cover_diff (h : Tiling top B) (hb : b ∈ B) :
    cover (B \ {b}) = cover B \ b.range := by
  ext x
  simp only [mem_cover, Set.mem_sdiff, Set.mem_singleton_iff]
  constructor
  · rintro ⟨c, ⟨hc, hne⟩, hx⟩
    exact ⟨⟨c, hc, hx⟩, fun hxb => hne (h.eq_of_mem hc hb hx hxb)⟩
  · rintro ⟨⟨c, hc, hx⟩, hxb⟩
    exact ⟨c, ⟨hc, fun he => hxb (he ▸ hx)⟩, hx⟩

/-- The points of a removed block are no longer covered. -/
theorem disjoint_cover_diff (h : Tiling top B) (hb : b ∈ B) :
    Disjoint b.range (cover (B \ {b})) := by
  rw [h.cover_diff hb]
  exact Set.disjoint_sdiff_right

/-- A stored block inside an aligned block is one of its parts or contains it. -/
theorem range_subset_or (h : Tiling top B) (hb : b ∈ B) (hc : c.Aligned) {x : ℕ}
    (hxb : x ∈ b.range) (hxc : x ∈ c.range) :
    (c.ord ≤ b.ord ∧ c.range ⊆ b.range) ∨ (b.ord < c.ord ∧ b.range ⊆ c.range) := by
  rcases le_or_gt c.ord b.ord with hle | hlt
  · exact Or.inl ⟨hle, hc.range_subset (h.aligned b hb) hle hxc hxb⟩
  · exact Or.inr ⟨hlt, (h.aligned b hb).range_subset hc hlt.le hxb hxc⟩

end Tiling

namespace Canonical

variable {top : ℕ} {B C : Set Block} {b : Block}

/-- Around every covered aligned range a canonical tiling stores one block. Otherwise
the range consists of smaller stored blocks; the buddy of a least one lies in the
range too, and what covers it is either that buddy itself, which is unjoined, or a
larger block that already contains the least one. -/
theorem exists_block (h : Canonical top B) (hb : b.Aligned) (ho : b.ord ≤ top)
    (hsub : b.range ⊆ cover B) : ∃ c ∈ B, b.ord ≤ c.ord ∧ b.range ⊆ c.range := by
  classical
  by_contra hnone
  push Not at hnone
  have hpart : ∀ c ∈ B, ∀ x ∈ b.range, x ∈ c.range → c.ord < b.ord ∧ c.range ⊆ b.range := by
    intro c hc x hx hxc
    rcases h.range_subset_or hc hb hxc hx with ⟨hle, hs⟩ | hlt
    · exact absurd hs (hnone c hc hle)
    · exact hlt
  have hex : ∃ k, ∃ c ∈ B, c.ord = k ∧ c.range ⊆ b.range := by
    obtain ⟨c, hc, hxc⟩ := mem_cover.mp (hsub b.addr_mem_range)
    exact ⟨c.ord, c, hc, rfl, (hpart c hc _ b.addr_mem_range hxc).2⟩
  obtain ⟨c, hc, hk, hcb⟩ := Nat.find_spec hex
  have hca := h.aligned c hc
  have hclt := (hpart c hc c.addr (hcb c.addr_mem_range) c.addr_mem_range).1
  have hparent : c.parent.range ⊆ b.range :=
    hca.parent.range_subset hb hclt (hca.range_parent ▸ Or.inl c.addr_mem_range)
      (hcb c.addr_mem_range)
  have hbuddy : c.buddy.range ⊆ b.range := by
    rw [hca.range_parent] at hparent
    exact Set.subset_union_right.trans hparent
  have hx := hbuddy c.buddy.addr_mem_range
  obtain ⟨d, hd, hxd⟩ := mem_cover.mp (hsub hx)
  have hdb := (hpart d hd _ hx hxd).2
  have hmin : c.ord ≤ d.ord := by
    rw [hk]
    exact Nat.find_min' hex ⟨d, hd, rfl, hdb⟩
  have hda := h.aligned d hd
  rcases hmin.eq_or_lt with he | hlt
  · have hdc : d = c.buddy := hda.eq_of_mem hca.buddy he.symm hxd c.buddy.addr_mem_range
    exact h.joined c hc (hclt.trans_le ho) (hdc ▸ hd)
  · have hsame : c.parent.range ⊆ d.range :=
      hca.parent.range_subset hda hlt
        (hca.range_parent ▸ Or.inr c.buddy.addr_mem_range) hxd
    have hcd : c.addr ∈ d.range := hsame (hca.range_parent ▸ Or.inl c.addr_mem_range)
    have heq := h.eq_of_mem hc hd c.addr_mem_range hcd
    rw [heq] at hlt
    exact lt_irrefl _ hlt

private theorem subset_of_cover_subset (hB : Canonical top B) (hC : Canonical top C)
    (hcover : cover B = cover C) : B ⊆ C := by
  intro b hb
  have hba := hB.aligned b hb
  obtain ⟨c, hc, hbc, hsub⟩ := hC.exists_block hba (hB.bounded b hb)
    (hcover ▸ range_subset_cover hb)
  obtain ⟨d, hd, hcd, hsub'⟩ := hB.exists_block (hC.aligned c hc) (hC.bounded c hc)
    (hcover ▸ range_subset_cover hc)
  have hdb : b = d :=
    hB.eq_of_mem hb hd b.addr_mem_range (hsub' (hsub b.addr_mem_range))
  have heq : b = c := hba.eq_of_mem (hC.aligned c hc) (by rw [hdb] at hbc ⊢; omega)
    b.addr_mem_range (hsub b.addr_mem_range)
  exact heq ▸ hc

/-- A canonical tiling is determined by the points it covers. -/
theorem eq_of_cover_eq (hB : Canonical top B) (hC : Canonical top C)
    (hcover : cover B = cover C) : B = C :=
  (subset_of_cover_subset hB hC hcover).antisymm (subset_of_cover_subset hC hB hcover.symm)

/-- Any stored block may serve as the focus. -/
theorem focus (h : Canonical top B) (hb : b ∈ B) : Focused top B b :=
  ⟨h.toTiling, hb, fun c hc hlt hbuddy => absurd hbuddy (h.joined c hc hlt)⟩

/-- Adding an uncovered aligned block focuses the tiling at that block. -/
theorem insert_focus (h : Canonical top B) (ha : b.Aligned) (ho : b.ord ≤ top)
    (hd : Disjoint b.range (cover B)) : Focused top (insert b B) b := by
  refine ⟨h.toTiling.insert ha ho hd, Set.mem_insert _ _, ?_⟩
  rintro c (rfl | hc) hlt hbuddy
  · exact Or.inl rfl
  · rcases hbuddy with he | hbuddy
    · exact Or.inr he
    · exact absurd hbuddy (h.joined c hc hlt)

end Canonical

namespace Focused

variable {top : ℕ} {B : Set Block} {b : Block}

/-- A focus that cannot be joined leaves nothing to join. -/
theorem canonical (h : Focused top B b) (hb : top ≤ b.ord ∨ b.buddy ∉ B) : Canonical top B := by
  refine ⟨h.toTiling, fun c hc hlt hbuddy => ?_⟩
  have hcases := h.settled c hc hlt hbuddy
  rcases hb with htop | hnot
  · rcases hcases with rfl | he
    · omega
    · rw [← he, buddy_ord] at htop
      omega
  · rcases hcases with rfl | he
    · exact hnot hbuddy
    · rw [← he, buddy_buddy] at hnot
      exact hnot hc

/-- Removing the focus leaves a canonical tiling of the remaining points. -/
theorem remove (h : Focused top B b) : Canonical top (B \ {b}) := by
  refine ⟨h.toTiling.mono Set.sdiff_subset, ?_⟩
  rintro c ⟨hc, hne⟩ hlt ⟨hbuddy, hne'⟩
  rcases h.settled c hc hlt hbuddy with he | he
  · exact hne he
  · exact hne' he

/-- Replacing the focus by its halves moves the focus to the first half: a joinable
pair is either the two new halves or was joinable before. -/
theorem split (h : Focused top B b) (ho : b.ord ≠ 0) :
    b.upper ∉ B \ {b} ∧ b.lower ∉ insert b.upper (B \ {b}) ∧
      Focused top (insert b.lower (insert b.upper (B \ {b}))) b.lower ∧
      cover (insert b.lower (insert b.upper (B \ {b}))) = cover B := by
  have hb := h.aligned b h.mem
  obtain ⟨hrange, hhalves⟩ := hb.range_halves ho
  have hrest := h.disjoint_cover_diff h.mem
  have hcover : cover (insert b.lower (insert b.upper (B \ {b}))) = cover B := by
    rw [cover_insert, cover_insert, ← Set.union_assoc, ← hrange, h.cover_diff h.mem]
    exact Set.union_sdiff_cancel (range_subset_cover h.mem)
  have hbound : b.ord - 1 ≤ top := (Nat.sub_le _ _).trans (h.bounded b h.mem)
  have hup : Disjoint b.upper.range (cover (B \ {b})) :=
    hrest.mono_left (hrange ▸ Set.subset_union_right)
  have hlow : Disjoint b.lower.range (cover (insert b.upper (B \ {b}))) := by
    rw [cover_insert, Set.disjoint_union_right]
    exact ⟨hhalves, hrest.mono_left (hrange ▸ Set.subset_union_left)⟩
  have htiling := ((h.toTiling.mono Set.sdiff_subset).insert (hb.upper ho) hbound hup).insert
    hb.lower hbound hlow
  refine ⟨Tiling.not_mem_of_disjoint hup, Tiling.not_mem_of_disjoint hlow,
    ⟨htiling, Set.mem_insert _ _, ?_⟩, hcover⟩
  have hlb : b.lower.buddy = b.upper := hb.buddy_lower ho
  rintro c (rfl | rfl | ⟨hc, hne⟩) hlt hbuddy
  · exact Or.inl rfl
  · exact Or.inr (by rw [← hlb, buddy_buddy])
  · rcases hbuddy with he | he | ⟨hold, hne'⟩
    · exact Or.inr he
    · have hcl : c = b.lower := by
        rw [← buddy_buddy c, he, ← hlb, buddy_buddy]
      exact Or.inl hcl
    · rcases h.settled c hc hlt hold with he | he
      · exact absurd he hne
      · exact absurd he hne'

/-- Replacing the focus and its buddy by their parent moves the focus to the parent,
because all other pairs were settled. -/
theorem join (h : Focused top B b) (hlt : b.ord < top) (hbuddy : b.buddy ∈ B) :
    b.parent ∉ (B \ {b}) \ {b.buddy} ∧
      Focused top (insert b.parent ((B \ {b}) \ {b.buddy})) b.parent ∧
      cover (insert b.parent ((B \ {b}) \ {b.buddy})) = cover B := by
  have hb := h.aligned b h.mem
  have hmem : b.buddy ∈ B \ {b} := ⟨hbuddy, hb.buddy_ne⟩
  have hrest := h.toTiling.mono (C := B \ {b}) Set.sdiff_subset
  have hcov : cover ((B \ {b}) \ {b.buddy}) = cover B \ b.parent.range := by
    rw [hrest.cover_diff hmem, h.cover_diff h.mem, Set.sdiff_sdiff, hb.range_parent]
  have hcover : cover (insert b.parent ((B \ {b}) \ {b.buddy})) = cover B := by
    rw [cover_insert, hcov]
    refine Set.union_sdiff_cancel ?_
    rw [hb.range_parent]
    exact Set.union_subset (range_subset_cover h.mem) (range_subset_cover hbuddy)
  have hdisj : Disjoint b.parent.range (cover ((B \ {b}) \ {b.buddy})) := by
    rw [hcov]
    exact Set.disjoint_sdiff_right
  refine ⟨Tiling.not_mem_of_disjoint hdisj,
    ⟨(hrest.mono Set.sdiff_subset).insert hb.parent hlt hdisj, Set.mem_insert _ _, ?_⟩, hcover⟩
  rintro c (rfl | ⟨⟨hc, hne⟩, hne'⟩) hclt hcbuddy
  · exact Or.inl rfl
  · rcases hcbuddy with he | ⟨⟨hold, hne2⟩, -⟩
    · exact Or.inr he
    · rcases h.settled c hc hclt hold with he | he
      · exact absurd he hne
      · exact absurd he hne2

end Focused

end Toyos.Core
