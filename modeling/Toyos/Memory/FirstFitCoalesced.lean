import Toyos.Memory.FirstFitAlloc
import Mathlib.Data.List.Chain

/-!
# Coalesced sequences of blocks

What allocation and giving back do to the sequence of blocks as a whole. The
used blocks are those that were handed out, every byte of the region is in a
block or in a header, and no two free blocks are neighbours. So free memory
without a used block in between is one free block.
-/

namespace Toyos.Memory.FirstFit

open Toyos.Core

/-- Bytes from an address on. -/
structure Piece where
  /-- The first address. -/
  addr : ℕ
  /-- The number of bytes. -/
  size : ℕ
  deriving DecidableEq, Repr

/-- What the used blocks of a sequence hold. -/
def usedPieces (c : Config) : ℕ → List Chunk → List Piece
  | _, [] => []
  | p, b :: l =>
    if b.free then usedPieces c (p + c.alignment + b.size) l
    else ⟨p + c.alignment, b.size⟩ :: usedPieces c (p + c.alignment + b.size) l

/-- No two free blocks are neighbours. -/
def Coalesced (l : List Chunk) : Prop :=
  l.IsChain fun b b' => b.free = true → b'.free = false

section Pieces

variable {c : Config} {p s : ℕ} {b u : Chunk} {a : Piece} {l l' pre post : List Chunk}

theorem usedPieces_free (hb : b.free = true) :
    usedPieces c p (b :: l) = usedPieces c (p + c.alignment + b.size) l := by
  rw [usedPieces, if_pos hb]

theorem usedPieces_used (hb : b.free = false) : usedPieces c p (b :: l) =
    ⟨p + c.alignment, b.size⟩ :: usedPieces c (p + c.alignment + b.size) l := by
  rw [usedPieces, hb, if_neg Bool.false_ne_true]

@[simp] theorem usedPieces_append :
    usedPieces c p (l ++ l') = usedPieces c p l ++ usedPieces c (stop c p l) l' := by
  induction l generalizing p with
  | nil => rfl
  | cons b l ih =>
    rw [List.cons_append, usedPieces, usedPieces, ih, stop]
    split
    · rfl
    · rfl

/-- A piece belongs to a used block. -/
theorem exists_of_mem_usedPieces (ha : a ∈ usedPieces c p l) :
    ∃ pre u post, l = pre ++ u :: post ∧ u.free = false ∧
      a = ⟨stop c p pre + c.alignment, u.size⟩ := by
  induction l generalizing p with
  | nil => cases ha
  | cons b l ih =>
    cases hb : b.free with
    | true =>
      rw [usedPieces_free hb] at ha
      obtain ⟨pre, u, post, rfl, hu, rfl⟩ := ih ha
      exact ⟨b :: pre, u, post, rfl, hu, rfl⟩
    | false =>
      rw [usedPieces_used hb] at ha
      rcases List.mem_cons.mp ha with rfl | ha
      · exact ⟨[], b, l, rfl, hb, rfl⟩
      · obtain ⟨pre, u, post, rfl, hu, rfl⟩ := ih ha
        exact ⟨b :: pre, u, post, rfl, hu, rfl⟩

theorem usedPieces_bounds (ha : a ∈ usedPieces c p l) :
    p + c.alignment ≤ a.addr ∧ a.addr + a.size ≤ stop c p l := by
  obtain ⟨pre, u, post, rfl, -, rfl⟩ := exists_of_mem_usedPieces ha
  have hpre : p ≤ stop c p pre := le_stop
  have hpost : stop c p pre + c.alignment + u.size ≤ stop c p (pre ++ u :: post) := by
    rw [stop_append]
    exact le_stop
  dsimp only
  omega

/-- There is a header between two pieces. -/
theorem usedPieces_pairwise :
    (usedPieces c p l).Pairwise fun a a' => a.addr + a.size + c.alignment ≤ a'.addr := by
  induction l generalizing p with
  | nil => exact .nil
  | cons b l ih =>
    cases hb : b.free with
    | true =>
      rw [usedPieces_free hb]
      exact ih
    | false =>
      rw [usedPieces_used hb]
      refine .cons (fun a ha => ?_) ih
      have := usedPieces_bounds ha
      dsimp only
      omega

theorem usedPieces_carve : usedPieces c p (carve c s b) =
    [⟨p + c.alignment, if b.size - s < c.alignment + 16 then b.size else s⟩] := by
  unfold carve
  split <;> rfl

theorem usedPieces_mergeBack (hfree : b.free = true) :
    usedPieces c p (mergeBack c b l) = usedPieces c (p + c.alignment + b.size) l := by
  cases l with
  | nil =>
    rw [mergeBack, usedPieces_free hfree]
  | cons b' l =>
    rw [mergeBack]
    split
    · rename_i hb'
      rw [usedPieces_free rfl, usedPieces_free hb']
      congr 1
      dsimp only
      omega
    · rw [usedPieces_free hfree]

/-- Giving back a block takes its piece out. -/
theorem usedPieces_giveBack : usedPieces c p (giveBack c pre s post) =
    usedPieces c p pre ++ usedPieces c (stop c p pre + c.alignment + s) post := by
  rw [giveBack]
  rcases endsFree_cases pre with hused | ⟨before, e, rfl, he⟩
  · rw [mergeFront_of_used hused, usedPieces_append, usedPieces_mergeBack rfl]
  · rw [mergeFront_concat he, usedPieces_append, usedPieces_mergeBack he, usedPieces_mergeBack rfl,
      usedPieces_append, usedPieces_free he, stop_append]
    simp [usedPieces]

/-- The blocks and their headers fill the space of a sequence. -/
theorem stop_eq_sum : stop c p l = p + ((l.filter (·.free)).map (·.size)).sum +
    ((usedPieces c p l).map (·.size)).sum +
    ((l.filter (·.free)).length + (usedPieces c p l).length) * c.alignment := by
  induction l generalizing p with
  | nil => simp [usedPieces]
  | cons b l ih =>
    rw [stop_cons, ih]
    cases hb : b.free with
    | true =>
      rw [usedPieces_free hb, List.filter_cons, if_pos hb, List.map_cons, List.sum_cons,
        List.length_cons]
      simp only [Nat.add_mul, Nat.one_mul]
      omega
    | false =>
      rw [usedPieces_used hb, List.filter_cons, hb, if_neg Bool.false_ne_true, List.map_cons,
        List.sum_cons, List.length_cons]
      simp only [Nat.add_mul, Nat.one_mul]
      omega

/-- There is a used block between two free ones. -/
theorem Coalesced.free_le (hl : Coalesced l) :
    (l.filter (·.free)).length ≤ (usedPieces c p l).length + 1 ∧
      ((∀ b ∈ l.head?, b.free = false) →
        (l.filter (·.free)).length ≤ (usedPieces c p l).length) := by
  induction l generalizing p with
  | nil => simp
  | cons b l ih =>
    obtain ⟨hhead, hl⟩ := List.isChain_cons.mp hl
    cases hb : b.free with
    | true =>
      have := (ih hl (p := p + c.alignment + b.size)).2 fun b' hb' => hhead b' hb' hb
      rw [usedPieces_free hb, List.filter_cons, if_pos hb, List.length_cons]
      exact ⟨by omega, fun hused => by simp [hb] at hused⟩
    | false =>
      have := (ih hl (p := p + c.alignment + b.size)).1
      rw [usedPieces_used hb, List.filter_cons, hb, if_neg Bool.false_ne_true, List.length_cons]
      exact ⟨by omega, fun _ => this⟩

/-- Taking a part of a free block leaves a coalesced sequence. -/
theorem Coalesced.carve (hl : Coalesced (pre ++ b :: post)) (hb : b.free = true) :
    Coalesced (pre ++ (carve c s b ++ post)) := by
  obtain ⟨hpre, hrest, hjoin⟩ := List.isChain_append.mp hl
  obtain ⟨hhead, hpost⟩ := List.isChain_cons.mp hrest
  have hcarve : Coalesced (FirstFit.carve c s b ++ post) := by
    unfold FirstFit.carve
    split
    · exact List.isChain_cons.mpr ⟨by simp, hpost⟩
    · exact List.isChain_cons_cons.mpr
        ⟨by simp, List.isChain_cons.mpr ⟨fun b' hb' _ => hhead b' hb' hb, hpost⟩⟩
  refine List.isChain_append.mpr ⟨hpre, hcarve, fun x hx y hy _ => ?_⟩
  unfold FirstFit.carve at hy
  split at hy <;> · simp at hy; rw [← hy]

theorem Coalesced.mergeBack (hl : Coalesced l) : Coalesced (mergeBack c b l) := by
  cases l with
  | nil => exact .singleton _
  | cons b' l =>
    obtain ⟨hhead, hl'⟩ := List.isChain_cons.mp hl
    rw [FirstFit.mergeBack]
    cases hb' : b'.free with
    | true =>
      rw [if_pos rfl]
      exact List.isChain_cons.mpr ⟨fun b'' hb'' _ => hhead b'' hb'' hb', hl'⟩
    | false =>
      rw [if_neg Bool.false_ne_true]
      exact List.isChain_cons_cons.mpr ⟨fun _ => hb', hl⟩

/-- Giving back a block leaves a coalesced sequence. -/
theorem Coalesced.giveBack (hl : Coalesced (pre ++ u :: post)) :
    Coalesced (giveBack c pre s post) := by
  obtain ⟨hpre, hrest, -⟩ := List.isChain_append.mp hl
  have hback : Coalesced (FirstFit.mergeBack c ⟨s, true⟩ post) := .mergeBack hrest.tail
  rw [FirstFit.giveBack]
  rcases endsFree_cases pre with hused | ⟨before, e, rfl, he⟩
  · rw [mergeFront_of_used hused]
    refine List.isChain_append.mpr ⟨hpre, hback, fun x hx _ _ hfree => ?_⟩
    obtain ⟨ys, rfl⟩ := List.getLast?_eq_some_iff.mp hx
    simp [endsFree, hfree] at hused
  · rw [mergeFront_concat he]
    obtain ⟨hbefore, -, hjoin⟩ := List.isChain_append.mp hpre
    refine List.isChain_append.mpr ⟨hbefore, Coalesced.mergeBack hback, fun x hx _ _ hfree => ?_⟩
    have := hjoin x hx e rfl hfree
    rw [he] at this
    cases this

/-- Space without a byte of a used block or of its header is in one free block. -/
theorem Coalesced.gap (hl : Coalesced l) {x g : ℕ} (hlo : p ≤ x) (hhi : x + g ≤ stop c p l)
    (hg : 0 < g) (happart : ∀ a ∈ usedPieces c p l,
      x + g + c.alignment ≤ a.addr ∨ a.addr + a.size ≤ x) :
    ∃ pre b post, l = pre ++ b :: post ∧ b.free = true ∧ stop c p pre ≤ x ∧
      x + g ≤ stop c p pre + c.alignment + b.size := by
  have ha := c.le_alignment
  induction l generalizing p with
  | nil =>
    rw [stop] at hhi
    omega
  | cons b l ih =>
    obtain ⟨hhead, hl⟩ := List.isChain_cons.mp hl
    rw [stop] at hhi
    by_cases hx : p + c.alignment + b.size ≤ x
    · obtain ⟨pre, b', post, rfl, hb', hpre, hpost⟩ := ih hl hx hhi fun a ha =>
        happart a (by rw [usedPieces]; split <;> simp [ha])
      exact ⟨b :: pre, b', post, rfl, hb', hpre, hpost⟩
    · have hb : b.free = true := by
        by_contra hb
        rw [Bool.not_eq_true] at hb
        have := happart ⟨p + c.alignment, b.size⟩ (by rw [usedPieces_used hb]; simp)
        dsimp only at this
        omega
      refine ⟨[], b, l, rfl, hb, hlo, ?_⟩
      -- a byte behind the block would be in the header of a used one
      by_contra hlong
      cases l with
      | nil => exact hlong hhi
      | cons b' l =>
        have := happart ⟨p + c.alignment + b.size + c.alignment, b'.size⟩ (by
          rw [usedPieces_free hb, usedPieces_used (hhead b' rfl hb)]
          simp)
        dsimp only [stop_nil] at this hlong
        omega

end Pieces

end Toyos.Memory.FirstFit
