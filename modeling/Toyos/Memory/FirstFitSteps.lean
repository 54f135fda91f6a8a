import Toyos.Memory.FirstFitBlocks

/-!
# Steps of the first-fit heap

Memory holds a heap if it holds the blocks of its region and the list starts
with the first free one. Each part of allocation and of giving back is one change
of the sequence of blocks: a free block is split or taken, a used block is given
back, two free neighbours are merged. None of them touches the bytes in use.
-/

namespace Toyos.Memory.FirstFit

open Toyos.Core

/-- A region that can be the memory of a heap. -/
structure Region (c : Config) (mem : FixedMemory) : Prop where
  /-- The region does not start at null. -/
  base_pos : 0 < mem.base
  /-- `(mem.base() & (ALIGNMENT - 1)) == 0`. -/
  aligned : c.alignment ∣ mem.base
  /-- The first block has room for its link and its footer. -/
  room : c.alignment + 16 ≤ mem.size
  /-- The size of the first block is below the flags. -/
  small : mem.size < c.alignment + 2 ^ 62
  /-- `(mem.base() + mem.size()) > mem.base()`. -/
  inside : mem.base + mem.size < 2 ^ 64

/-- Memory holds the heap with the given blocks. -/
structure Holds (c : Config) (h : FirstFitHeap) (l : List Chunk) : Prop where
  /-- The region is a possible one. -/
  region : Region c h.mem
  /-- The blocks fill the region. -/
  stop_eq : stop c h.mem.base l = h.mem.base + h.mem.size
  /-- The list starts with the first free block. -/
  list_eq : h.list = firstOf c 0 h.mem.base l
  /-- Memory holds the blocks. -/
  layout : LayoutAt c h.bytes 0 h.mem.base false l

variable {c : Config} {h : FirstFitHeap} {p q nx s v : ℕ} {pf : Bool} {b : Chunk}
  {l pre post : List Chunk}

theorem Region.end_eq (hr : Region c h.mem) : h.mem.end' = h.mem.base + h.mem.size :=
  wrap_of_lt hr.inside

namespace FirstFitHeap

/-- Make a block the one behind `prev` in the list, or the first one. -/
def link (c : Config) (h : FirstFitHeap) (prev v : ℕ) : FirstFitHeap :=
  if prev = 0 then { h with list := v } else h.setNext c prev v

@[simp] theorem mem_link {prev : ℕ} : (h.link c prev v).mem = h.mem := by
  unfold link
  split
  · rfl
  · exact mem_setNext

/-- Tell the block behind a block whether that is free. -/
def flagFollowing (c : Config) (h : FirstFitHeap) (p : ℕ) (val : Bool) : FirstFitHeap :=
  if h.followingBlock c p = 0 then h else h.setPrevFree c (h.followingBlock c p) val

@[simp] theorem mem_flagFollowing {val : Bool} : (h.flagFollowing c p val).mem = h.mem := by
  unfold flagFollowing
  split
  · rfl
  · exact mem_setPrevFree

@[simp] theorem list_flagFollowing {val : Bool} : (h.flagFollowing c p val).list = h.list := by
  unfold flagFollowing
  split
  · rfl
  · exact list_setPrevFree

theorem setPrevFree_followingBlock {val : Bool} :
    (if h.followingBlock c p ≠ 0 then h.setPrevFree c (h.followingBlock c p) val else h) =
      h.flagFollowing c p val := by
  unfold flagFollowing
  by_cases hzero : h.followingBlock c p = 0
  · rw [if_pos hzero, if_neg (not_not_intro hzero)]
  · rw [if_neg hzero, if_pos hzero]

theorem setNext_or_list {prev : ℕ} :
    (if prev ≠ 0 then h.setNext c prev v else { h with list := v }) = h.link c prev v := by
  unfold link
  by_cases hzero : prev = 0
  · rw [if_pos hzero, if_neg (not_not_intro hzero)]
  · rw [if_neg hzero, if_pos hzero]

theorem takeBlock_eq {block prev : ℕ} : h.takeBlock c block prev =
    ((h.link c prev (h.next c block)).flagFollowing c block false).setIsFree c block false := by
  rw [takeBlock]
  simp only [setNext_or_list, setPrevFree_followingBlock]

end FirstFitHeap

/-- The last free block of a sequence, or the list, was linked to another block. -/
structure Relinked (c : Config) (h h' : FirstFitHeap) (pf : Bool) (pre : List Chunk) (v : ℕ) :
    Prop where
  /-- The region is the same. -/
  mem_eq : h'.mem = h.mem
  /-- The sequence with the new link. -/
  layout : LayoutAt c h'.bytes v h.mem.base pf pre
  /-- The list with the new link. -/
  list_eq : h'.list = firstOf c v h.mem.base pre
  /-- Only the link changes. -/
  keeps : KeepsUsed c h.bytes h'.bytes h.mem.base pre

/-- Linking the last free block of a sequence, or the list, to another block. -/
theorem LayoutAt.relink (hl : LayoutAt c h.bytes nx h.mem.base pf pre)
    (hlist : h.list = firstOf c nx h.mem.base pre) (hbase : 0 < h.mem.base) (v : ℕ) :
    Relinked c h (h.link c (lastOf c 0 h.mem.base pre) v) pf pre v := by
  rcases lastOf_cases c 0 h.mem.base pre with hused | ⟨before, e, skip, rfl, hskip, he, hlast⟩
  · rw [hused.lastOf_eq, FirstFitHeap.link, if_pos rfl]
    exact ⟨rfl, hl.of_allUsed hused, hused.firstOf_eq.symm, .refl⟩
  · obtain ⟨hbefore, hechunk, hskiplayout⟩ := layoutAt_append.mp hl
    have hle : h.mem.base ≤ stop c h.mem.base before := le_stop
    have hroom := hechunk.room
    have hsame : h.bytes.SameOutside (h.setNext c (stop c h.mem.base before) v).bytes
        (stop c h.mem.base before) (stop c h.mem.base before + c.alignment + e.size) :=
      FirstFitHeap.setNext_same.mono (by omega) (by omega)
    rw [hlast, FirstFitHeap.link, if_neg (by omega)]
    refine ⟨FirstFitHeap.mem_setNext, layoutAt_append.mpr ⟨?_, ?_, ?_⟩, ?_, ?_⟩
    · have hfirst : firstOf c v (stop c h.mem.base before) (e :: skip) =
          firstOf c nx (stop c h.mem.base before) (e :: skip) := by simp [firstOf, he]
      rw [hfirst]
      exact hbefore.frame fun a _ ha => hsame a (.inl ha)
    · rw [hskip.firstOf_eq]
      exact hechunk.setNext v
    · exact (hskiplayout.frame fun a ha _ => hsame a (.inr ha)).of_allUsed hskip
    · rw [FirstFitHeap.list_setNext, hlist]
      simp [firstOf, he]
    · exact (KeepsUsed.of_free (by simpa using he) hsame).block

/-- What the last free block of a sequence, or the list, was linked to. -/
theorem LayoutAt.linked (hl : LayoutAt c h.bytes nx h.mem.base pf pre)
    (hlist : h.list = firstOf c nx h.mem.base pre) (hbase : 0 < h.mem.base) (hnx : nx < 2 ^ 64) :
    (if lastOf c 0 h.mem.base pre = 0 then h.list
      else h.next c (lastOf c 0 h.mem.base pre)) = nx := by
  rcases lastOf_cases c 0 h.mem.base pre with hused | ⟨before, e, skip, rfl, hskip, he, hlast⟩
  · rw [hused.lastOf_eq, if_pos rfl, hlist, hused.firstOf_eq]
  · obtain ⟨-, hechunk, -⟩ := layoutAt_append.mp hl
    rw [hskip.firstOf_eq] at hechunk
    have hle : h.mem.base ≤ stop c h.mem.base before := le_stop
    rw [hlast, if_neg (by omega), hechunk.next_eq he hnx]

/-- The blocks behind a block are told whether it is free. -/
theorem LayoutAt.flagFollowing {pf' : Bool} (hb : HeaderAt c h.bytes p pf' b)
    (hl : LayoutAt c h.bytes nx (p + c.alignment + b.size) pf post)
    (hstop : stop c (p + c.alignment + b.size) post = h.mem.end') (val : Bool) :
    LayoutAt c (h.flagFollowing c p val).bytes nx (p + c.alignment + b.size) val post ∧
      KeepsUsed c h.bytes (h.flagFollowing c p val).bytes (p + c.alignment + b.size) post := by
  have ha := c.le_alignment
  have hfollowing := hb.followingBlock_eq
  cases post with
  | nil =>
    rw [stop] at hstop
    rw [if_pos hstop.symm.le] at hfollowing
    have hsame : h.flagFollowing c p val = h := by
      unfold FirstFitHeap.flagFollowing
      rw [if_pos hfollowing]
    rw [hsame]
    exact ⟨trivial, .refl⟩
  | cons b' post =>
    obtain ⟨hb', hpost⟩ := hl
    have hle : p + c.alignment + b.size + c.alignment + b'.size ≤ h.mem.end' :=
      le_stop.trans hstop.le
    rw [if_neg (by omega)] at hfollowing
    have hset : h.flagFollowing c p val = h.setPrevFree c (p + c.alignment + b.size) val := by
      unfold FirstFitHeap.flagFollowing
      rw [hfollowing, if_neg (by omega)]
    have hsame := hb'.setPrevFree_same val
    rw [hset]
    refine ⟨⟨hb'.setPrevFree val, hpost.frame fun a ha _ => hsame a (.inr ha)⟩, ?_⟩
    refine KeepsUsed.front (l := [b']) (KeepsUsed.of_header ?_)
    rw [hb'.setPrevFree_eq]
    exact FirstFitHeap.put_raw_same

namespace Holds

/-- The parts of a heap around one block. -/
theorem split (hl : Holds c h (pre ++ b :: post)) :
    LayoutAt c h.bytes (firstOf c 0 (stop c h.mem.base pre) (b :: post)) h.mem.base false pre ∧
      ChunkAt c h.bytes (stop c h.mem.base pre) (endsFree false pre) b
        (firstOf c 0 (stop c h.mem.base pre + c.alignment + b.size) post) ∧
      LayoutAt c h.bytes 0 (stop c h.mem.base pre + c.alignment + b.size) b.free post :=
  layoutAt_append.mp hl.layout

theorem stop_post (hl : Holds c h (pre ++ b :: post)) :
    stop c (stop c h.mem.base pre + c.alignment + b.size) post = h.mem.base + h.mem.size := by
  rw [← hl.stop_eq, stop_append]
  rfl

theorem firstOf_lt (hl : Holds c h (pre ++ post)) :
    firstOf c 0 (stop c h.mem.base pre) post < 2 ^ 64 := by
  have hin := hl.region.inside
  rcases firstOf_cases c 0 (stop c h.mem.base pre) post with hused | ⟨skip, b, rest, rfl, -, -, heq⟩
  · rw [hused.firstOf_eq]
    decide
  · have hstop := hl.stop_eq
    rw [stop_append, stop_append] at hstop
    have hle : stop c (stop c h.mem.base pre) skip ≤
        stop c (stop c (stop c h.mem.base pre) skip) (b :: rest) := le_stop
    omega

theorem firstOf_post_lt (hl : Holds c h (pre ++ b :: post)) :
    firstOf c 0 (stop c h.mem.base pre + c.alignment + b.size) post < 2 ^ 64 := by
  have hl' : Holds c h ((pre ++ [b]) ++ post) := by simpa using hl
  simpa using hl'.firstOf_lt

/-- A block of a heap is smaller than the region. -/
theorem size_le (hl : Holds c h (pre ++ b :: post)) :
    stop c h.mem.base pre + c.alignment + b.size ≤ h.mem.base + h.mem.size := by
  rw [← hl.stop_post]
  exact le_stop

end Holds

/-- Blocks in the middle of a heap were replaced by others. -/
structure Changed (c : Config) (h h' : FirstFitHeap) (l l' : List Chunk) : Prop where
  /-- The heap with the new blocks. -/
  holds : Holds c h' l'
  /-- The region is the same. -/
  mem_eq : h'.mem = h.mem
  /-- The bytes in use, and those outside the region, are as before. -/
  keeps : KeepsUsed c h.bytes h'.bytes h.mem.base l

/-- Replacing blocks by others that take the same space. -/
theorem Holds.changed {h' : FirstFitHeap} (mid mid' : List Chunk)
    (hl : Holds c h (pre ++ (mid ++ post))) (hmem : h'.mem = h.mem)
    (hstop : stop c (stop c h.mem.base pre) mid' = stop c (stop c h.mem.base pre) mid)
    (hlist : h'.list = firstOf c 0 h.mem.base (pre ++ (mid' ++ post)))
    (hlayout : LayoutAt c h'.bytes 0 h.mem.base false (pre ++ (mid' ++ post)))
    (hkeeps : KeepsUsed c h.bytes h'.bytes h.mem.base (pre ++ (mid ++ post))) :
    Changed c h h' (pre ++ (mid ++ post)) (pre ++ (mid' ++ post)) := by
  refine ⟨⟨hmem ▸ hl.region, ?_, hmem ▸ hlist, hmem ▸ hlayout⟩, hmem, hkeeps⟩
  rw [hmem, ← hl.stop_eq, stop_append, stop_append, stop_append, stop_append, hstop]

/-- A free block is taken. -/
theorem Holds.takeBlock (hl : Holds c h (pre ++ b :: post)) (hfree : b.free = true) :
    Changed c h (h.takeBlock c (stop c h.mem.base pre) (lastOf c 0 h.mem.base pre))
      (pre ++ b :: post) (pre ++ ⟨b.size, false⟩ :: post) := by
  obtain ⟨hpre, hb, hpost⟩ := hl.split
  have hpostlt := hl.firstOf_post_lt
  have hlink := hpre.relink (by rw [hl.list_eq, firstOf_append]) hl.region.base_pos
    (firstOf c 0 (stop c h.mem.base pre + c.alignment + b.size) post)
  rw [FirstFitHeap.takeBlock_eq, hb.next_eq hfree hpostlt]
  generalize h.link c (lastOf c 0 h.mem.base pre)
    (firstOf c 0 (stop c h.mem.base pre + c.alignment + b.size) post) = h₁ at hlink ⊢
  have hb₁ := hb.congr fun a ha _ => hlink.keeps a (.inr (.inr ha))
  have hpost₁ := hpost.frame fun a ha _ => hlink.keeps a (.inr (.inr (by omega)))
  obtain ⟨hpost₂, hkeeps₂⟩ := hpost₁.flagFollowing hb₁.toHeaderAt
    (by rw [hl.stop_post, hlink.mem_eq, hl.region.end_eq]) false
  have hb₂ := hb₁.congr fun a _ ha => hkeeps₂ a (.inl (by split at ha <;> omega))
  have hpre₂ := hlink.layout.frame fun a _ ha => hkeeps₂ a (.inl (by omega))
  have hsame₃ := hb₂.toHeaderAt.setIsFree_same false
  refine hl.changed [b] [⟨b.size, false⟩] ?_ rfl ?_ ?_ ?_
  · rw [FirstFitHeap.mem_setIsFree, FirstFitHeap.mem_flagFollowing, hlink.mem_eq]
  · rw [FirstFitHeap.list_setIsFree, FirstFitHeap.list_flagFollowing, hlink.list_eq, firstOf_append]
    rfl
  · refine layoutAt_append.mpr ⟨hpre₂.frame fun a _ ha => hsame₃ a (.inl ha), ?_, ?_⟩
    · exact ChunkAt.of_used (hb₂.toHeaderAt.setIsFree false)
    · exact hpost₂.frame fun a ha _ => hsame₃ a (.inr (by omega))
  · have hback : KeepsUsed c h₁.bytes (h₁.flagFollowing c (stop c h.mem.base pre) false).bytes
        h.mem.base (pre ++ ([b] ++ post)) := KeepsUsed.back (KeepsUsed.back hkeeps₂)
    exact (hlink.keeps.front.trans hback).trans (KeepsUsed.of_header hsame₃).block

/-- Whether a nonempty sequence of free blocks ends with a free block. -/
theorem endsFree_of_free (hfree : ∀ b' ∈ b :: l, b'.free = true) :
    endsFree pf (b :: l) = true := by
  induction l generalizing pf b with
  | nil => exact hfree b (by simp)
  | cons b' l ih =>
    show endsFree b.free (b' :: l) = true
    exact ih fun x hx => hfree x (by simp [List.mem_cons.mp hx])

/-- Free blocks are replaced by other free blocks. -/
theorem Holds.replaceFree {h' : FirstFitHeap} {b' : Chunk} (mid mid' : List Chunk)
    (hl : Holds c h (pre ++ (b :: mid ++ post))) (hmem : h'.mem = h.mem) (hlist : h'.list = h.list)
    (hfree : ∀ x ∈ b :: mid, x.free = true) (hfree' : ∀ x ∈ b' :: mid', x.free = true)
    (hstop : stop c (stop c h.mem.base pre) (b' :: mid') =
      stop c (stop c h.mem.base pre) (b :: mid))
    (hsame : h.bytes.SameOutside h'.bytes (stop c h.mem.base pre)
      (stop c (stop c h.mem.base pre) (b :: mid)))
    (hmid : LayoutAt c h'.bytes (firstOf c 0 (stop c (stop c h.mem.base pre) (b :: mid)) post)
      (stop c h.mem.base pre) (endsFree false pre) (b' :: mid')) :
    Changed c h h' (pre ++ (b :: mid ++ post)) (pre ++ (b' :: mid' ++ post)) := by
  have hfirst (nx : ℕ) (tail : List Chunk) (x : Chunk) (hx : x.free = true) :
      firstOf c nx (stop c h.mem.base pre) (x :: tail) = stop c h.mem.base pre := by
    rw [firstOf, hx, if_pos rfl]
  have hb := hfree b (by simp)
  have hb' := hfree' b' (by simp)
  obtain ⟨hpre, hrest⟩ := layoutAt_append.mp hl.layout
  obtain ⟨-, hpost⟩ := layoutAt_append.mp hrest
  refine hl.changed (b :: mid) (b' :: mid') hmem hstop ?_ ?_ ?_
  · rw [hlist, hl.list_eq]
    simp [firstOf, hb, hb']
  · refine layoutAt_append.mpr ⟨?_, layoutAt_append.mpr ⟨?_, ?_⟩⟩
    · rw [List.cons_append, hfirst _ _ b' hb']
      rw [List.cons_append, hfirst _ _ b hb] at hpre
      exact hpre.frame fun a _ ha => hsame a (.inl ha)
    · rw [hstop]
      exact hmid
    · rw [hstop, endsFree_of_free hfree']
      rw [endsFree_of_free hfree] at hpost
      exact hpost.frame fun a ha _ => hsame a (.inr ha)
  · exact (KeepsUsed.of_free hfree hsame).front.back

/-- A free block is split in two. -/
theorem ChunkAt.splitBlock (hb : ChunkAt c h.bytes p pf b nx) (hfree : b.free = true)
    (hnx : nx < 2 ^ 64) (hend : p + c.alignment + b.size ≤ h.mem.end') (halign : c.alignment ∣ s)
    (hroom : 16 ≤ s) (hrest : s + c.alignment + 16 ≤ b.size) :
    ∃ h', h.splitBlock c p s (b.size - s) = .ok h' ∧ h'.mem = h.mem ∧ h'.list = h.list ∧
      ChunkAt c h'.bytes p pf ⟨s, true⟩ (p + c.alignment + s) ∧
      ChunkAt c h'.bytes (p + c.alignment + s) true ⟨b.size - s - c.alignment, true⟩ nx ∧
      h.bytes.SameOutside h'.bytes p (p + c.alignment + b.size) := by
  have ha := c.le_alignment
  have hsmall := hb.small
  have hin := hb.inside
  obtain ⟨h₁, hsize, hmem₁, hlist₁, hb₁, hsame₁⟩ :=
    hb.resize hfree hroom (by omega) (by omega)
  have hfollow : (h₁.updateFooter c p).followingBlock c p = p + c.alignment + s := by
    rw [hb₁.followingBlock_eq, FirstFitHeap.mem_updateFooter, hmem₁, if_neg (by dsimp only; omega)]
  obtain ⟨h₂, hnew, hmem₂, hlist₂, hn₂, hsame₂⟩ :=
    newHeaderFree_spec (c := c) (p := p + c.alignment + s) (s := b.size - s - c.alignment)
      (h₁.updateFooter c p) (Nat.dvd_add (Nat.dvd_add hb.aligned (Nat.dvd_refl _)) halign)
      (by omega) (by omega) (by omega)
  have hb₂ := hb₁.frame hsame₂ (.inl le_rfl)
  have hnext := hb₂.next_eq rfl hnx
  have hn₃ := (hn₂.setNext nx).setPrevFree true
  have hsame₃ := (hn₂.setNext nx).setPrevFree_same true
  have hb₃ := (hb₂.frame FirstFitHeap.setNext_same (.inl (by dsimp only; omega))).frame hsame₃
    (.inl le_rfl)
  have hsame₄ := FirstFitHeap.setNext_same (c := c) (p := p) (v := p + c.alignment + s)
    (h := (h₂.setNext c (p + c.alignment + s) nx).setPrevFree c (p + c.alignment + s) true)
  refine ⟨_, ?_, ?_, ?_, hb₃.setNext (p + c.alignment + s),
    hn₃.frame hsame₄ (.inr (by omega)), ?_⟩
  · rw [FirstFitHeap.splitBlock, hsize, ok_bind]
    dsimp only
    rw [hfollow, wsub_of_le (by omega) (by rw [c.sizeofHeaderUsed_eq]; omega),
      c.sizeofHeaderUsed_eq, hnew, ok_bind, hnext]
    rfl
  · simp [hmem₂, hmem₁]
  · simp [hlist₂, hlist₁]
  · have hsame₁₂ : h.bytes.SameOutside h₂.bytes p (p + c.alignment + b.size) :=
      (hsame₁.mono le_rfl (by omega)).trans (hsame₂.mono (by omega) (by omega))
    have hsame₂₃ : h₂.bytes.SameOutside (h₂.setNext c (p + c.alignment + s) nx).bytes p
        (p + c.alignment + b.size) := FirstFitHeap.setNext_same.mono (by omega) (by omega)
    exact (hsame₁₂.trans hsame₂₃).trans ((hsame₃.mono (by omega) (by dsimp only; omega)).trans
      (hsame₄.mono (by omega) (by omega)))

theorem Holds.splitBlock (hl : Holds c h (pre ++ b :: post)) (hfree : b.free = true)
    (halign : c.alignment ∣ s) (hroom : 16 ≤ s) (hrest : s + c.alignment + 16 ≤ b.size) :
    ∃ h', h.splitBlock c (stop c h.mem.base pre) s (b.size - s) = .ok h' ∧
      Changed c h h' (pre ++ b :: post)
        (pre ++ ⟨s, true⟩ :: ⟨b.size - s - c.alignment, true⟩ :: post) := by
  obtain ⟨-, hb, -⟩ := hl.split
  obtain ⟨h', hrun, hmem, hlist, hfst, hsnd, hsame⟩ := hb.splitBlock hfree hl.firstOf_post_lt
    (by rw [hl.region.end_eq]; exact hl.size_le) halign hroom hrest
  refine ⟨h', hrun, hl.replaceFree [] [⟨b.size - s - c.alignment, true⟩] hmem
    hlist (by simpa using hfree) (by simp) ?_ hsame ⟨hfst, hsnd, trivial⟩⟩
  simp only [stop_cons, stop_nil]
  omega

/-- Two free neighbours are merged. -/
theorem ChunkAt.tryMergeBack {b' : Chunk} {nx' : ℕ} (hb : ChunkAt c h.bytes p pf b nx)
    (hb' : ChunkAt c h.bytes (p + c.alignment + b.size) true b' nx') (hfree : b.free = true)
    (hfree' : b'.free = true) (hnx : nx' < 2 ^ 64)
    (hend : p + c.alignment + b.size < h.mem.end')
    (hsmall : b.size + c.alignment + b'.size < 2 ^ 62) :
    ∃ h', h.tryMergeBack c p = .ok h' ∧ h'.mem = h.mem ∧ h'.list = h.list ∧
      ChunkAt c h'.bytes p pf ⟨b.size + c.alignment + b'.size, true⟩ nx' ∧
      h.bytes.SameOutside h'.bytes p (p + c.alignment + b.size + c.alignment + b'.size) := by
  have ha := c.le_alignment
  have hroom := hb.room
  have hin := hb'.inside
  have hfollow := hb.followingBlock_eq
  rw [if_neg (by omega)] at hfollow
  have hlink : h.bytes.SameOutside (h.setNext c p nx').bytes p (p + c.alignment + b.size) :=
    FirstFitHeap.setNext_same.mono (by omega) (by omega)
  have hb₁ := hb.setNext nx'
  have hb'₁ := hb'.frame hlink (.inr le_rfl)
  obtain ⟨h₂, hsize, hmem, hlist, hb₂, hsame⟩ :=
    hb₁.resize (s := b.size + c.alignment + b'.size) hfree (by omega) (by omega) (by omega)
  refine ⟨h₂.updateFooter c p, ?_, by simp [hmem], by simp [hlist], hb₂, ?_⟩
  · rw [FirstFitHeap.tryMergeBack, hfollow]
    refine (if_pos ⟨by omega, by rw [hb'.isFree_eq, hfree']⟩).trans ?_
    dsimp only
    rw [hb'.next_eq hfree' hnx, hb₁.size_eq, hb'₁.size_eq, c.sizeofHeaderUsed_eq,
      wrap_of_lt (by omega), Nat.add_right_comm, hsize]
    rfl
  · exact (hlink.mono le_rfl (by omega)).trans (hsame.mono le_rfl (by omega))

/-- A free block is merged with a free block behind it. -/
def mergeBack (c : Config) (b : Chunk) : List Chunk → List Chunk
  | [] => [b]
  | b' :: l => if b'.free then ⟨b.size + c.alignment + b'.size, true⟩ :: l else b :: b' :: l

theorem Holds.tryMergeBack (hl : Holds c h (pre ++ b :: post)) (hfree : b.free = true) :
    ∃ h', h.tryMergeBack c (stop c h.mem.base pre) = .ok h' ∧
      Changed c h h' (pre ++ b :: post) (pre ++ mergeBack c b post) := by
  obtain ⟨-, hb, hpost⟩ := hl.split
  have hfollow := hb.followingBlock_eq
  rw [hl.region.end_eq] at hfollow
  cases post with
  | nil =>
    have hstop := hl.stop_post
    rw [stop_nil] at hstop
    rw [if_pos hstop.symm.le] at hfollow
    refine ⟨h, ?_, hl, rfl, .refl⟩
    rw [FirstFitHeap.tryMergeBack, hfollow]
    exact if_neg (by simp)
  | cons b' post =>
    obtain ⟨hb', hpost⟩ := hpost
    rw [mergeBack]
    cases hfree' : b'.free with
    | false =>
      refine ⟨h, ?_, hl, rfl, .refl⟩
      rw [FirstFitHeap.tryMergeBack, hfollow]
      refine if_neg fun hmerge => ?_
      rw [if_neg (fun hle => hmerge.1 (if_pos hle)), hb'.isFree_eq, hfree'] at hmerge
      exact Bool.false_ne_true hmerge.2
    | true =>
      have ha := c.le_alignment
      have hl' : Holds c h ((pre ++ [b]) ++ b' :: post) := by simpa using hl
      have hle := hl'.size_le
      have hlt := hl'.firstOf_post_lt
      have hpos : h.mem.base ≤ stop c h.mem.base pre := le_stop
      have hsmall := hl.region.small
      simp only [stop_append, stop_cons, stop_nil] at hle hlt
      rw [hfree] at hb'
      obtain ⟨h', hrun, hmem, hlist, hmerged, hsame⟩ :=
        hb.tryMergeBack hb' hfree hfree' hlt (by rw [hl.region.end_eq]; omega) (by omega)
      refine ⟨h', hrun, hl.replaceFree [b'] [] hmem hlist
        (by simp [hfree, hfree']) (by simp) ?_ hsame ⟨hmerged, trivial⟩⟩
      simp only [stop_cons, stop_nil]
      omega

end Toyos.Memory.FirstFit
