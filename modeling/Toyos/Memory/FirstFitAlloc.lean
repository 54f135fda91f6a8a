import Toyos.Memory.FirstFitFree

/-!
# Taking a block

A request is rounded up to the alignment. The search of the free list stops at
the first block that is large enough, which is split if what is left can hold
another block. The two queries walk the whole list. No assertion fails.
-/

namespace Toyos.Memory.FirstFit

open Toyos.Core

variable {c : Config} {h : FirstFitHeap} {p s : ℕ} {b : Chunk} {l pre post : List Chunk}

/-- The size that a request is rounded to. -/
def Config.grant (c : Config) (size : ℕ) : ℕ := c.align (max size c.alignment)

namespace Config

variable {size : ℕ}

theorem minBlockSize_eq (c : Config) : c.minBlockSize = 16 := by
  unfold minBlockSize sizeofHeaderFree sizeofFooter
  omega

/-- Rounding is up to the alignment, after the addition has wrapped. -/
theorem align_eq (c : Config) :
    c.align size = max 16 ((size + c.alignment - 1) % 2 ^ 64 / c.alignment * c.alignment) := by
  have ha := c.le_alignment
  have hone : BitVec.ofNat 64 size + BitVec.ofNat 64 c.alignment - 1#64 =
      BitVec.ofNat 64 (size + c.alignment - 1) := by
    rw [← BitVec.ofNat_add]
    exact BitVec.ofNat_sub_ofNat_of_le _ _ (by decide) (by omega)
  have hround := toNat_and_not_low (x := BitVec.ofNat 64 (size + c.alignment - 1)) (k := c.order)
    (by have := c.order_lt; omega)
  rw [BitVec.toNat_ofNat] at hround
  rw [align, c.minBlockSize_eq]
  exact congrArg (max 16) ((congrArg (fun x => BitVec.toNat (x &&& _)) hone).trans hround)

theorem le_grant (c : Config) (size : ℕ) : 16 ≤ c.grant size := by
  rw [grant, align_eq]
  exact le_max_left _ _

/-- A request that does not wrap is rounded up to a multiple of the alignment. -/
theorem grant_of_le (c : Config) (hsize : size ≤ 2 ^ 64 - c.alignment) :
    c.alignment ∣ c.grant size ∧ size ≤ c.grant size := by
  have ha := c.le_alignment
  have halign : c.alignment < 2 ^ 62 := Nat.pow_lt_pow_right (by decide) c.order_lt
  have hlt : max size c.alignment + c.alignment - 1 < 2 ^ 64 := by
    rcases max_choice size c.alignment with hmax | hmax <;> rw [hmax] <;> omega
  have hlow : max size c.alignment ≤
      (max size c.alignment + c.alignment - 1) / c.alignment * c.alignment := by
    have hdiv := Nat.div_add_mod (max size c.alignment + c.alignment - 1) c.alignment
    have hmod := Nat.mod_lt (max size c.alignment + c.alignment - 1) (show 0 < c.alignment by omega)
    rw [Nat.mul_comm] at hdiv
    omega
  have hmax := le_max_right size c.alignment
  rw [grant, align_eq, Nat.mod_eq_of_lt hlt, max_eq_right (by omega)]
  exact ⟨Nat.dvd_mul_left _ _, (le_max_left _ _).trans hlow⟩

/-- A request that wraps gets the smallest block. -/
theorem grant_of_lt (c : Config) (hsize : 2 ^ 64 - c.alignment < size) (hlt : size < 2 ^ 64) :
    c.grant size = 16 := by
  have ha := c.le_alignment
  have halign : c.alignment < 2 ^ 62 := Nat.pow_lt_pow_right (by decide) c.order_lt
  have hmax : max size c.alignment = size := max_eq_left (by omega)
  rw [grant, align_eq, hmax, Nat.mod_eq_sub_mod (by omega), Nat.mod_eq_of_lt (by omega),
    Nat.div_eq_of_lt (by omega), Nat.zero_mul]
  rfl

end Config

/-- The blocks that a free block becomes when a request takes it. -/
def carve (c : Config) (s : ℕ) (b : Chunk) : List Chunk :=
  if b.size - s < c.alignment + 16 then [⟨b.size, false⟩]
  else [⟨s, false⟩, ⟨b.size - s - c.alignment, true⟩]

/-- The search for a free block finds the first that is large enough. -/
theorem Holds.firstFree (hl : Holds c h l) (hs : 16 ≤ s) :
    (h.firstFree c s = .ok none ∧ ∀ b ∈ l, b.free = true → b.size < s) ∨
    ∃ pre b post, l = pre ++ b :: post ∧ b.free = true ∧ s ≤ b.size ∧
      (∀ b' ∈ pre, b'.free = true → b'.size < s) ∧
      h.firstFree c s = .ok (some (stop c h.mem.base pre, lastOf c 0 h.mem.base pre)) := by
  have hpos := hl.region.base_pos
  let Inv (m : ℕ) (st : ℕ × ℕ) : Prop := ∃ before rest, l = before ++ rest ∧ m = rest.length ∧
    st = (firstOf c 0 (stop c h.mem.base before) rest, lastOf c 0 h.mem.base before) ∧
    ∀ b ∈ before, b.free = true → b.size < s
  let Post (r : Option (ℕ × ℕ)) : Prop :=
    (r = none ∧ ∀ b ∈ l, b.free = true → b.size < s) ∨
    ∃ pre b post, l = pre ++ b :: post ∧ b.free = true ∧ s ≤ b.size ∧
      (∀ b' ∈ pre, b'.free = true → b'.size < s) ∧
      r = some (stop c h.mem.base pre, lastOf c 0 h.mem.base pre)
  have hround : ∀ m st, Inv m st →
      (∃ r, h.firstFreeRound c s st = .ok (.inr r) ∧ Post r) ∨
      ∃ st' m', h.firstFreeRound c s st = .ok (.inl st') ∧ Inv m' st' ∧ m' < m := by
    rintro _ _ ⟨before, rest, rfl, rfl, rfl, hsmall⟩
    rcases firstOf_cases c 0 (stop c h.mem.base before) rest with
      hused | ⟨skip, b, rest, rfl, hskip, hb, hfirst⟩
    · refine .inl ⟨none, ?_, .inl ⟨rfl, fun b hb hfree => ?_⟩⟩
      · rw [hused.firstOf_eq, FirstFitHeap.firstFreeRound, if_pos rfl]
        rfl
      · rcases List.mem_append.mp hb with hmem | hmem
        · exact hsmall b hmem hfree
        · rw [hused b hmem] at hfree
          cases hfree
    · have hl' : Holds c h ((before ++ skip) ++ b :: rest) := by simpa using hl
      have hle : h.mem.base ≤ stop c h.mem.base (before ++ skip) := le_stop
      have hfits : h.fits c (stop c h.mem.base (before ++ skip)) s = .ok (decide (s ≤ b.size)) := by
        rw [FirstFitHeap.fits, c.assertHeap_of _ (by rw [c.minBlockSize_eq]; exact hs), ok_bind,
          hl'.split.2.1.size_eq]
        rfl
      have hskipsmall : ∀ b' ∈ before ++ skip, b'.free = true → b'.size < s := by
        intro b' hb' hfree
        rcases List.mem_append.mp hb' with hmem | hmem
        · exact hsmall b' hmem hfree
        · rw [hskip b' hmem] at hfree
          cases hfree
      rw [hfirst, ← stop_append]
      by_cases hsize : s ≤ b.size
      · refine .inl ⟨some (stop c h.mem.base (before ++ skip), lastOf c 0 h.mem.base before), ?_,
          .inr ⟨before ++ skip, b, rest, by simp, hb, hsize, hskipsmall, ?_⟩⟩
        · rw [FirstFitHeap.firstFreeRound, if_neg (by dsimp only; omega), hfits, ok_bind,
            decide_eq_true hsize, if_pos rfl]
          rfl
        · rw [lastOf_append, hskip.lastOf_eq]
      · refine .inr ⟨(firstOf c 0 (stop c h.mem.base (before ++ skip) + c.alignment + b.size) rest,
          stop c h.mem.base (before ++ skip)), rest.length, ?_,
          ⟨before ++ skip ++ [b], rest, by simp, rfl, ?_, ?_⟩, by simp; omega⟩
        · rw [FirstFitHeap.firstFreeRound, if_neg (by dsimp only; omega), hfits, ok_bind,
            decide_eq_false hsize, if_neg Bool.false_ne_true, hl'.advance hb]
          rfl
        · simp [lastOf, hb]
        · simp only [List.mem_append, List.mem_singleton]
          rintro b' (hb' | rfl) hfree
          · exact hskipsmall b' (List.mem_append.mpr hb') hfree
          · omega
  obtain ⟨r, hr, hpost⟩ : ∃ r, h.firstFree c s = .ok r ∧ Post r := loop_rounds Inv Post hround
    ⟨[], l, rfl, rfl, by rw [hl.list_eq]; rfl, by simp⟩ hl.length_lt
  rcases hpost with ⟨rfl, hsmall⟩ | ⟨pre, b, post, hsplit, hb, hfits, hsmall, rfl⟩
  · exact .inl ⟨hr, hsmall⟩
  · exact .inr ⟨pre, b, post, hsplit, hb, hfits, hsmall, hr⟩

theorem stop_carve (hs : s ≤ b.size) : stop c p (carve c s b) = p + c.alignment + b.size := by
  unfold carve
  split
  · rfl
  · simp only [stop_cons, stop_nil]
    omega

/-- What an allocation does: nothing if no free block is large enough, otherwise it takes the
first one that is. -/
inductive Allocated (c : Config) (h : FirstFitHeap) (l : List Chunk) (s : ℕ) :
    ℕ × FirstFitHeap → Prop
  | full : (∀ b ∈ l, b.free = true → b.size < s) → Allocated c h l s (0, h)
  | taken {pre b post h'} : l = pre ++ b :: post → b.free = true → s ≤ b.size →
      (∀ b' ∈ pre, b'.free = true → b'.size < s) →
      Changed c h h' l (pre ++ (carve c s b ++ post)) →
      Allocated c h l s (stop c h.mem.base pre + c.alignment, h')

/-- Splitting off a part of a free block, if what is left can hold a block, and taking it. -/
theorem Holds.carve (hl : Holds c h (pre ++ b :: post)) (hb : b.free = true)
    (halign : c.alignment ∣ s) (hroom : 16 ≤ s) (hs : s ≤ b.size) :
    ∃ h₁, (if b.size - s < c.alignment + 16 then pure h
        else h.splitBlock c (stop c h.mem.base pre) s (b.size - s)) = Except.ok h₁ ∧
      Changed c h (h₁.takeBlock c (stop c h.mem.base pre) (lastOf c 0 h.mem.base pre))
        (pre ++ b :: post) (pre ++ (carve c s b ++ post)) := by
  by_cases hrest : b.size - s < c.alignment + 16
  · rw [if_pos hrest, FirstFit.carve, if_pos hrest]
    exact ⟨h, rfl, hl.takeBlock hb⟩
  · rw [if_neg hrest, FirstFit.carve, if_neg hrest]
    obtain ⟨h₁, hsplit, hl₁, hmem₁, hkeeps₁⟩ := hl.splitBlock hb halign hroom (by omega)
    obtain ⟨hl₂, hmem₂, hkeeps₂⟩ := hl₁.takeBlock rfl
    rw [hmem₁] at hl₂ hmem₂ hkeeps₂
    have hp : stop c h.mem.base pre + c.alignment + s + c.alignment + (b.size - s - c.alignment) =
        stop c h.mem.base pre + c.alignment + b.size := by omega
    refine ⟨h₁, hsplit, hl₂, hmem₂, hkeeps₁.trans (hkeeps₂.of_inUse ?_ fun a hin => ?_)⟩
    · simp only [stop_append, stop_cons, hp]
    · rw [inUse_append] at hin ⊢
      simpa [InUse, hb, hp] using hin

/-- Allocation returns in every build. -/
theorem Holds.alloc {size : ℕ} (hl : Holds c h l) (halign : c.alignment ∣ c.grant size) :
    ∃ r, h.alloc c size = .ok r ∧ Allocated c h l (c.grant size) r := by
  rcases hl.firstFree (c.le_grant size) with
    ⟨hnone, hsmall⟩ | ⟨pre, b, post, rfl, hb, hs, hsmall, hsome⟩
  · refine ⟨(0, h), ?_, .full hsmall⟩
    have hblock : h.allocBlock c size = .ok (0, h) := by
      rw [FirstFitHeap.allocBlock]
      exact (congrArg (· >>= _) hnone).trans rfl
    rw [FirstFitHeap.alloc, hblock]
    rfl
  · obtain ⟨h₁, hsplit, hchanged⟩ := hl.carve hb halign (c.le_grant size) hs
    obtain ⟨-, hbchunk, -⟩ := hl.split
    have hin := hbchunk.inside
    have hle : h.mem.base ≤ stop c h.mem.base pre := le_stop
    have hpos := hl.region.base_pos
    have hremaining : wsub (h.size c (stop c h.mem.base pre)) (c.grant size) =
        b.size - c.grant size := by
      rw [hbchunk.size_eq, wsub_of_le (by omega) hs]
    have hbound : c.sizeofHeaderFree + sizeofFooter = c.alignment + 16 := by
      unfold Config.sizeofHeaderFree sizeofFooter
      rw [c.sizeofHeaderUsed_eq]
    refine ⟨_, ?_, .taken rfl hb hs hsmall hchanged⟩
    have hblock : h.allocBlock c size = .ok (stop c h.mem.base pre,
        h₁.takeBlock c (stop c h.mem.base pre) (lastOf c 0 h.mem.base pre)) := by
      rw [FirstFitHeap.allocBlock]
      refine (congrArg (· >>= _) hsome).trans ?_
      rw [ok_bind]
      dsimp only
      rw [hbound, show c.align (max size c.alignment) = c.grant size from rfl, hremaining]
      by_cases hrest : b.size - c.grant size < c.alignment + 16
      · rw [if_pos hrest] at hsplit ⊢
        rw [hsplit]
        rfl
      · rw [if_neg hrest] at hsplit ⊢
        rw [hsplit]
        rfl
    rw [FirstFitHeap.alloc, hblock, ok_bind]
    dsimp only
    rw [if_pos (by omega), Config.dataPtr, c.sizeofHeaderUsed_eq, wrap_of_lt (by omega)]
    rfl

/-- A walk over the free list adds up the values of the free blocks. -/
theorem Holds.count (hl : Holds c h l) (value : ℕ → ℕ) (weight : Chunk → ℕ)
    (hvalue : ∀ pre b post, l = pre ++ b :: post → value (stop c h.mem.base pre) = weight b) :
    loop (h.countRound c value) HeapFault.endless h.rounds (h.list, 0) =
      .ok (wrap ((l.filter (·.free)).map weight).sum) := by
  have hpos := hl.region.base_pos
  let total (l : List Chunk) : ℕ := ((l.filter (·.free)).map weight).sum
  let Inv (m : ℕ) (st : ℕ × ℕ) : Prop := ∃ before rest, l = before ++ rest ∧ m = rest.length ∧
    st = (firstOf c 0 (stop c h.mem.base before) rest, wrap (total before))
  have hround : ∀ m st, Inv m st →
      (∃ r, h.countRound c value st = .ok (.inr r) ∧ r = wrap (total l)) ∨
      ∃ st' m', h.countRound c value st = .ok (.inl st') ∧ Inv m' st' ∧ m' < m := by
    rintro _ _ ⟨before, rest, rfl, rfl, rfl⟩
    rcases firstOf_cases c 0 (stop c h.mem.base before) rest with
      hused | ⟨skip, b, rest, rfl, hskip, hb, hfirst⟩
    · refine .inl ⟨wrap (total before), ?_, ?_⟩
      · rw [hused.firstOf_eq, FirstFitHeap.countRound, if_pos rfl]
        rfl
      · simp [total, hused.filter_eq]
    · have hl' : Holds c h ((before ++ skip) ++ b :: rest) := by simpa using hl
      have hle : h.mem.base ≤ stop c h.mem.base (before ++ skip) := le_stop
      refine .inr ⟨_, rest.length, ?_, ⟨before ++ skip ++ [b], rest, by simp, rfl, rfl⟩,
        by simp; omega⟩
      rw [hfirst, ← stop_append, FirstFitHeap.countRound, if_neg (by dsimp only; omega),
        hl'.advance hb, hvalue (before ++ skip) b rest (by simp)]
      simp [total, hskip.filter_eq, hb, wrap]
  obtain ⟨r, hr, rfl⟩ : ∃ r, loop (h.countRound c value) HeapFault.endless h.rounds (h.list, 0) =
      .ok r ∧ r = wrap (total l) :=
    loop_rounds Inv (· = wrap (total l)) hround
      ⟨[], l, rfl, rfl, by rw [hl.list_eq]; rfl⟩ hl.length_lt
  exact hr

end Toyos.Memory.FirstFit
