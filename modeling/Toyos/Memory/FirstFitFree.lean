import Toyos.Memory.FirstFitSteps

/-!
# Giving back a block

The search of the free list stops at the last free block before the block that
is given back. The block is linked there, the blocks around it are told, and it
is merged with its free neighbours. No assertion fails on the way.
-/

namespace Toyos.Memory.FirstFit

open Toyos.Core

variable {c : Config} {h : FirstFitHeap} {p q nx s v a : ℕ} {pf : Bool} {b u : Chunk}
  {l l' pre post : List Chunk}

theorem endsFree_cases (l : List Chunk) :
    endsFree false l = false ∨ ∃ before e, l = before ++ [e] ∧ e.free = true := by
  induction l using List.reverseRecOn with
  | nil => exact .inl rfl
  | append_singleton l e _ =>
    cases he : e.free with
    | false => exact .inl (by simp [endsFree, he])
    | true => exact .inr ⟨l, e, rfl, he⟩

/-- The footer before a block leads to the free block before it. -/
theorem LayoutAt.precedingBlock {e : Chunk}
    (hpre : LayoutAt c h.bytes nx h.mem.base false (pre ++ [e])) (he : e.free = true)
    (hb : HeaderAt c h.bytes (stop c h.mem.base (pre ++ [e])) true b) (hbase : 0 < h.mem.base) :
    h.precedingBlock c (stop c h.mem.base (pre ++ [e])) = .ok (stop c h.mem.base pre) := by
  have ha := c.le_alignment
  obtain ⟨-, hechunk, -⟩ := layoutAt_append.mp hpre
  have hroom := hechunk.room
  have hin := hechunk.inside
  have hle : h.mem.base ≤ stop c h.mem.base pre := le_stop
  have hfooter : wsub (stop c h.mem.base (pre ++ [e])) sizeofFooter =
      stop c h.mem.base pre + c.alignment + e.size - 8 := by
    rw [stop_append, stop_cons, stop_nil, wsub_of_le hin (by unfold sizeofFooter; omega)]
    rfl
  rw [FirstFitHeap.precedingBlock, hb.prevFree_eq, if_neg (by simp)]
  dsimp only
  rw [hfooter, c.assertHeap_of _ (by omega), ok_bind, hechunk.footerHeader_eq he]
  rfl

theorem HeaderAt.precedingBlock (hb : HeaderAt c h.bytes p false b) :
    h.precedingBlock c p = .ok 0 := by
  rw [FirstFitHeap.precedingBlock, hb.prevFree_eq, if_pos rfl]
  rfl

namespace FirstFitHeap

theorem linkAfter_eq {val other : ℕ} (hne : val ≠ other) : h.linkAfter c val other =
    .ok (((((h.setNext c val (if other = 0 then h.list else h.next c other)).setIsFree c val
      true).updateFooter c val).link c other val)) := by
  rw [linkAfter]
  by_cases hother : other = 0
  · simp only [link, hother, if_true, pure_eq_ok]
  · simp only [link, hother, if_false, c.assertHeap_of _ hne, ok_bind, pure_eq_ok]

theorem flagNeighbours_eq {val preceding : ℕ}
    (hpreceding : h.precedingBlock c val = .ok preceding) :
    h.flagNeighbours c val = .ok (if preceding ≠ 0 ∧ (h.flagFollowing c val true).isFree c
      preceding = true then (h.flagFollowing c val true).setPrevFree c val true
      else h.flagFollowing c val true) := by
  rw [flagNeighbours, hpreceding, ok_bind]
  simp only [setPrevFree_followingBlock, pure_eq_ok]

end FirstFitHeap

/-- The last part of giving back a block: the blocks around it are told. -/
theorem LayoutAt.flagNeighbours (hpre : LayoutAt c h.bytes p h.mem.base false pre)
    (hp : stop c h.mem.base pre = p) (hbase : 0 < h.mem.base)
    (hb : ChunkAt c h.bytes p (endsFree false pre) b nx)
    (hpost : LayoutAt c h.bytes 0 (p + c.alignment + b.size) pf post)
    (hstop : stop c (p + c.alignment + b.size) post = h.mem.end') (hfree : b.free = true) :
    ∃ h', h.flagNeighbours c p = .ok h' ∧ h'.mem = h.mem ∧ h'.list = h.list ∧
      LayoutAt c h'.bytes p h.mem.base false pre ∧
      ChunkAt c h'.bytes p (endsFree false pre) b nx ∧
      LayoutAt c h'.bytes 0 (p + c.alignment + b.size) true post ∧
      KeepsUsed c h.bytes h'.bytes h.mem.base (pre ++ b :: post) := by
  obtain ⟨hpost₁, hkeeps₁⟩ := hpost.flagFollowing hb.toHeaderAt hstop true
  have hb₁ := hb.congr fun a _ ha => hkeeps₁ a (.inl (by split at ha <;> omega))
  have hpre₁ := hpre.frame fun a _ ha => hkeeps₁ a (.inl (by omega))
  have hback : KeepsUsed c h.bytes (h.flagFollowing c p true).bytes h.mem.base
      (pre ++ ([b] ++ post)) := KeepsUsed.back (KeepsUsed.back (by rw [hp]; exact hkeeps₁))
  rcases endsFree_cases pre with hused | ⟨before, e, rfl, he⟩
  · refine ⟨h.flagFollowing c p true, ?_, FirstFitHeap.mem_flagFollowing,
      FirstFitHeap.list_flagFollowing, hpre₁, hb₁, hpost₁, hback⟩
    have hpreceding : h.precedingBlock c p = .ok 0 :=
      HeaderAt.precedingBlock (b := b) (by rw [← hused]; exact hb.toHeaderAt)
    rw [FirstFitHeap.flagNeighbours_eq hpreceding, if_neg (by simp)]
  · have hends : endsFree false (before ++ [e]) = true := by simp [endsFree, he]
    rw [hends] at hb hb₁ ⊢
    have hpreceding : h.precedingBlock c p = .ok (stop c h.mem.base before) := by
      rw [← hp]
      exact hpre.precedingBlock he (by rw [hp]; exact hb.toHeaderAt) hbase
    have hle : h.mem.base ≤ stop c h.mem.base before := le_stop
    have hfreee : (h.flagFollowing c p true).isFree c (stop c h.mem.base before) = true := by
      rw [(layoutAt_append.mp hpre₁).2.1.isFree_eq, he]
    have hsame := hb₁.setPrevFree_same true
    refine ⟨(h.flagFollowing c p true).setPrevFree c p true, ?_, by simp, by simp, ?_,
      hb₁.setPrevFree true, ?_, ?_⟩
    · rw [FirstFitHeap.flagNeighbours_eq hpreceding, if_pos ⟨by omega, hfreee⟩]
    · exact hpre₁.frame fun a _ ha => hsame a (.inl (by omega))
    · exact hpost₁.frame fun a ha _ => hsame a (.inr ha)
    · refine hback.trans (KeepsUsed.block (KeepsUsed.of_free (by simpa using hfree) ?_))
      rw [hp]
      exact hsame

/-- The last free block of a sequence starts before its end. -/
theorem lastOf_lt (hp : 0 < p) : lastOf c 0 p l < stop c p l := by
  have ha := c.le_alignment
  rcases lastOf_cases c 0 p l with hused | ⟨before, e, skip, rfl, -, -, hlast⟩
  · rw [hused.lastOf_eq]
    exact hp.trans_le le_stop
  · rw [hlast, stop_append, stop_cons]
    have : stop c p before + c.alignment + e.size ≤
        stop c (stop c p before + c.alignment + e.size) skip := le_stop
    omega

/-- A used block becomes a free one. -/
theorem Holds.insertAfter (hl : Holds c h (pre ++ u :: post)) (hu : u.free = false) :
    ∃ h', h.insertAfter c (stop c h.mem.base pre) (lastOf c 0 h.mem.base pre) =
        .ok (stop c h.mem.base pre, h') ∧
      Changed c h h' (pre ++ ⟨u.size, true⟩ :: post) (pre ++ ⟨u.size, true⟩ :: post) := by
  obtain ⟨hpre, hb, hpost⟩ := hl.split
  rw [firstOf, hu, if_neg Bool.false_ne_true] at hpre
  have hlist : h.list = firstOf c (firstOf c 0 (stop c h.mem.base pre + c.alignment + u.size) post)
      h.mem.base pre := by
    rw [hl.list_eq, firstOf_append, firstOf, hu, if_neg Bool.false_ne_true]
  have hlinked := hpre.linked hlist hl.region.base_pos hl.firstOf_post_lt
  obtain ⟨hb₁, hsame₁⟩ := hb.release
    (firstOf c 0 (stop c h.mem.base pre + c.alignment + u.size) post)
  have hother := lastOf_lt (c := c) (l := pre) hl.region.base_pos
  have hrun : h.insertAfter c (stop c h.mem.base pre) (lastOf c 0 h.mem.base pre) = do
      let h' ← (((((h.setNext c (stop c h.mem.base pre)
        (firstOf c 0 (stop c h.mem.base pre + c.alignment + u.size) post)).setIsFree c
          (stop c h.mem.base pre) true).updateFooter c (stop c h.mem.base pre)).link c
            (lastOf c 0 h.mem.base pre) (stop c h.mem.base pre))).flagNeighbours c
              (stop c h.mem.base pre)
      return (stop c h.mem.base pre, h') := by
    rw [FirstFitHeap.insertAfter, if_neg (by omega), c.assertHeap_of _ hother, ok_bind,
      FirstFitHeap.linkAfter_eq (by omega), hlinked, ok_bind]
  rw [hrun]
  generalize hh₁ : ((h.setNext c (stop c h.mem.base pre)
    (firstOf c 0 (stop c h.mem.base pre + c.alignment + u.size) post)).setIsFree c
      (stop c h.mem.base pre) true).updateFooter c (stop c h.mem.base pre) = h₁ at hb₁ hsame₁ ⊢
  have hmem₁ : h₁.mem = h.mem := by simp [← hh₁]
  have hlist₁ : h₁.list = h.list := by simp [← hh₁]
  have hpre₁ := hpre.frame fun a _ ha => hsame₁ a (.inl ha)
  have hpost₁ := hpost.frame fun a ha _ => hsame₁ a (.inr ha)
  have hlink := LayoutAt.relink (by rw [hmem₁]; exact hpre₁) (by rw [hlist₁, hmem₁, hlist])
    (by rw [hmem₁]; exact hl.region.base_pos) (stop c h.mem.base pre)
  rw [hmem₁] at hlink
  generalize h₁.link c (lastOf c 0 h.mem.base pre) (stop c h.mem.base pre) = h₂ at hlink ⊢
  obtain ⟨hmem₂, hpre₂, hlist₂, hkeeps₂⟩ := hlink
  rw [hmem₁] at hmem₂ hpre₂ hlist₂ hkeeps₂
  have hb₂ := hb₁.congr fun a ha _ => hkeeps₂ a (.inr (.inr ha))
  have hpost₂ := hpost₁.frame fun a ha _ => hkeeps₂ a (.inr (.inr (by omega)))
  obtain ⟨h₃, hrun₃, hmem₃, hlist₃, hpre₃, hb₃, hpost₃, hkeeps₃⟩ :=
    LayoutAt.flagNeighbours (h := h₂) (by rw [hmem₂]; exact hpre₂) (by rw [hmem₂])
      (by rw [hmem₂]; exact hl.region.base_pos) hb₂ hpost₂
      (by rw [hmem₂, hl.region.end_eq, ← hl.stop_post]) rfl
  rw [hmem₂] at hmem₃ hpre₃ hkeeps₃
  refine ⟨h₃, by rw [hrun₃]; rfl, ⟨hmem₃ ▸ hl.region, ?_, ?_, ?_⟩, hmem₃, ?_⟩
  · rw [hmem₃, ← hl.stop_eq]
    simp
  · rw [hmem₃, hlist₃, hlist₂]
    simp [firstOf]
  · rw [hmem₃]
    refine layoutAt_append.mpr ⟨?_, hb₃, hpost₃⟩
    simpa [firstOf] using hpre₃
  · refine KeepsUsed.trans ?_ (hkeeps₂.front.trans hkeeps₃)
    exact (KeepsUsed.of_free (by simp) hsame₁).block

/-- A free block is merged with a free block before it. -/
def mergeFront (c : Config) (pre l : List Chunk) : List Chunk :=
  match pre.getLast? with
  | none => pre ++ l
  | some e => if e.free then pre.dropLast ++ mergeBack c e l else pre ++ l

theorem mergeFront_of_used (hpre : endsFree false pre = false) : mergeFront c pre l = pre ++ l := by
  induction pre using List.reverseRecOn with
  | nil => rfl
  | append_singleton pre e _ =>
    have he : e.free = false := by simpa [endsFree] using hpre
    simp [mergeFront, he]

theorem mergeFront_concat {e : Chunk} (he : e.free = true) :
    mergeFront c (pre ++ [e]) l = pre ++ mergeBack c e l := by
  simp [mergeFront, he]

theorem Holds.tryMergeFront (hl : Holds c h (pre ++ b :: post)) :
    ∃ h', h.tryMergeFront c (stop c h.mem.base pre) = .ok h' ∧
      Changed c h h' (pre ++ b :: post) (mergeFront c pre (b :: post)) := by
  obtain ⟨hpre, hb, -⟩ := hl.split
  rcases endsFree_cases pre with hused | ⟨before, e, rfl, he⟩
  · rw [mergeFront_of_used hused]
    refine ⟨h, ?_, hl, rfl, .refl⟩
    rw [FirstFitHeap.tryMergeFront, hb.prevFree_eq, if_pos hused]
    rfl
  · rw [mergeFront_concat he]
    have hends : endsFree false (before ++ [e]) = true := by simp [endsFree, he]
    rw [hends] at hb
    have hle : h.mem.base ≤ stop c h.mem.base before := le_stop
    have hpos := hl.region.base_pos
    have hl' : Holds c h (before ++ e :: b :: post) := by simpa using hl
    obtain ⟨h', hrun, hchanged⟩ := hl'.tryMergeBack he
    refine ⟨h', ?_, by simpa using hchanged⟩
    rw [FirstFitHeap.tryMergeFront, hb.prevFree_eq, if_neg (by simp),
      hpre.precedingBlock he hb.toHeaderAt hpos, ok_bind, if_neg (by omega),
      c.assertHeap_of _ (by rw [hl'.split.2.1.isFree_eq, he]), ok_bind, hrun]

/-- Advancing along the free list. -/
theorem Holds.advance (hl : Holds c h (pre ++ b :: post)) (hfree : b.free = true) :
    h.advance c (stop c h.mem.base pre) =
      .ok (firstOf c 0 (stop c h.mem.base pre + c.alignment + b.size) post) := by
  obtain ⟨-, hb, hpost⟩ := hl.split
  rw [FirstFitHeap.advance, hb.next_eq hfree hl.firstOf_post_lt, c.assertHeap_of, ok_bind,
    pure_eq_ok]
  intro hne
  rcases firstOf_cases c 0 (stop c h.mem.base pre + c.alignment + b.size) post with
    hused | ⟨skip, b', rest, rfl, -, -, hfirst⟩
  · exact absurd hused.firstOf_eq hne
  · rw [hfirst]
    exact (layoutAt_append.mp hpost).2.1.canaryAlive_eq

theorem Holds.length_lt (hl : Holds c h l) : l.length < h.rounds := by
  have := length_le_stop (c := c) (p := h.mem.base) (l := l)
  rw [hl.stop_eq] at this
  unfold FirstFitHeap.rounds
  omega

theorem le_firstOf (c : Config) (nx p : ℕ) (h : ¬AllUsed l) :
    p ≤ firstOf c nx p l ∧ firstOf c nx p l < stop c p l := by
  have ha := c.le_alignment
  rcases firstOf_cases c nx p l with hused | ⟨skip, b, post, rfl, -, -, hfirst⟩
  · exact absurd hused h
  · have h₁ : p ≤ stop c p skip := le_stop
    have h₂ : stop c p skip + c.alignment + b.size ≤
      stop c (stop c p skip + c.alignment + b.size) post := le_stop
    rw [hfirst, stop_append, stop_cons]
    omega

theorem firstOf_eq_zero_or (c : Config) (p : ℕ) (l : List Chunk) :
    firstOf c 0 p l = 0 ∨ p ≤ firstOf c 0 p l := by
  by_cases hused : AllUsed l
  · exact .inl hused.firstOf_eq
  · exact .inr (le_firstOf _ _ _ hused).1

/-- One round of the search for the place of a block. -/
theorem Holds.positionRound (hl : Holds c h (pre ++ b :: post)) (hfree : b.free = true) (val : ℕ)
    (hnx : firstOf c 0 (stop c h.mem.base pre + c.alignment + b.size) post = nx) :
    h.positionRound c val (stop c h.mem.base pre) = if nx = 0 ∨ val < nx then
      .ok (.inr (if stop c h.mem.base pre < val then stop c h.mem.base pre else 0))
      else .ok (.inl nx) := by
  have hle : h.mem.base ≤ stop c h.mem.base pre := le_stop
  have hpos := hl.region.base_pos
  rw [FirstFitHeap.positionRound, if_neg (by omega),
    hl.split.2.1.next_eq hfree hl.firstOf_post_lt, hl.advance hfree, hnx]
  rfl

/-- The round at a free block behind the block whose place is searched. -/
theorem Holds.positionRound_behind (hl : Holds c h (pre ++ u :: post)) :
    h.positionRound c (stop c h.mem.base pre)
      (firstOf c 0 (stop c h.mem.base pre + c.alignment + u.size) post) = .ok (.inr 0) := by
  have ha := c.le_alignment
  rcases firstOf_cases c 0 (stop c h.mem.base pre + c.alignment + u.size) post with
    hused | ⟨skip, e, rest, rfl, -, he, hfirst⟩
  · rw [hused.firstOf_eq, FirstFitHeap.positionRound, if_pos rfl]
    rfl
  · have hl' : Holds c h ((pre ++ u :: skip) ++ e :: rest) := by simpa using hl
    have hround := hl'.positionRound he (stop c h.mem.base pre) rfl
    have hnext := firstOf_eq_zero_or c (stop c h.mem.base (pre ++ u :: skip) + c.alignment + e.size)
      rest
    have hle : stop c h.mem.base pre + c.alignment + u.size ≤
        stop c h.mem.base (pre ++ u :: skip) := by
      rw [stop_append, stop_cons]
      exact le_stop
    rw [if_pos (by omega), if_neg (by omega)] at hround
    rw [hfirst, ← hround, stop_append, stop_cons]

/-- The search for the place of a block finds the last free block before it. -/
theorem Holds.positionFor (hl : Holds c h (pre ++ u :: post)) (hu : u.free = false) :
    h.positionFor c (stop c h.mem.base pre) = .ok (lastOf c 0 h.mem.base pre) := by
  have ha := c.le_alignment
  let Inv (m elem : ℕ) : Prop := ∃ before rest, pre = before ++ rest ∧ m = rest.length ∧
    elem = firstOf c 0 (stop c h.mem.base before) (rest ++ u :: post) ∧
    (AllUsed rest → AllUsed before)
  have hround : ∀ m elem, Inv m elem →
      (∃ r, h.positionRound c (stop c h.mem.base pre) elem = .ok (.inr r) ∧
        r = lastOf c 0 h.mem.base pre) ∨
      ∃ elem' m', h.positionRound c (stop c h.mem.base pre) elem = .ok (.inl elem') ∧
        Inv m' elem' ∧ m' < m := by
    rintro _ _ ⟨before, rest, rfl, rfl, rfl, hbefore⟩
    rcases firstOf_cases c (firstOf c 0 (stop c h.mem.base (before ++ rest)) (u :: post))
      (stop c h.mem.base before) rest with hused | ⟨skip, e, rest, rfl, hskip, he, hfirst⟩
    · have hall : AllUsed (before ++ rest) := (hbefore hused).append hused
      refine .inl ⟨0, ?_, hall.lastOf_eq.symm⟩
      rw [firstOf_append, hused.firstOf_eq, firstOf, hu, if_neg Bool.false_ne_true, ← stop_append]
      exact hl.positionRound_behind
    · have hl' : Holds c h ((before ++ skip) ++ e :: (rest ++ u :: post)) := by simpa using hl
      have hstep := hl'.positionRound he (stop c h.mem.base (before ++ (skip ++ e :: rest))) rfl
      have hP : stop c h.mem.base (before ++ (skip ++ e :: rest)) =
          stop c (stop c h.mem.base (before ++ skip) + c.alignment + e.size) rest := by simp
      have helem : firstOf c 0 (stop c h.mem.base before) ((skip ++ e :: rest) ++ u :: post) =
          stop c h.mem.base (before ++ skip) := by
        rw [firstOf_append, ← stop_append, hfirst, stop_append]
      have hle : stop c h.mem.base (before ++ skip) + c.alignment + e.size ≤
          stop c (stop c h.mem.base (before ++ skip) + c.alignment + e.size) rest := le_stop
      rw [helem]
      by_cases hused : AllUsed rest
      · have hnext := firstOf_eq_zero_or c (stop c (stop c h.mem.base (before ++ skip) +
          c.alignment + e.size) rest + c.alignment + u.size) post
        rw [firstOf_append, hused.firstOf_eq, firstOf, hu, if_neg Bool.false_ne_true,
          if_pos (by omega), if_pos (by omega)] at hstep
        refine .inl ⟨_, hstep, ?_⟩
        simp [lastOf, he, hused.lastOf_eq]
      · have hnext := le_firstOf c (firstOf c 0 (stop c (stop c h.mem.base (before ++ skip) +
          c.alignment + e.size) rest) (u :: post))
          (stop c h.mem.base (before ++ skip) + c.alignment + e.size) hused
        rw [← firstOf_append] at hnext
        rw [if_neg (by omega)] at hstep
        refine .inr ⟨_, rest.length, hstep, ⟨before ++ (skip ++ [e]), rest, by simp, rfl, ?_,
          fun hall => absurd hall hused⟩, by simp; omega⟩
        simp
  obtain ⟨r, hr, rfl⟩ : ∃ r, loop (h.positionRound c (stop c h.mem.base pre)) HeapFault.endless
      h.rounds h.list = .ok r ∧ r = lastOf c 0 h.mem.base pre :=
    loop_rounds Inv (· = lastOf c 0 h.mem.base pre) hround
      ⟨[], pre, rfl, rfl, hl.list_eq, fun _ => by simp [AllUsed]⟩
      (lt_of_le_of_lt (by simp) hl.length_lt)
  exact hr

/-- The blocks after a used block was given back. -/
def giveBack (c : Config) (pre : List Chunk) (size : ℕ) (post : List Chunk) : List Chunk :=
  mergeFront c pre (mergeBack c ⟨size, true⟩ post)

theorem mergeBack_cases (c : Config) (hfree : b.free = true) (l : List Chunk) :
    ∃ b' l', mergeBack c b l = b' :: l' ∧ b'.free = true := by
  cases l with
  | nil => exact ⟨b, [], rfl, hfree⟩
  | cons b' l =>
    cases hb' : b'.free with
    | true =>
      exact ⟨⟨b.size + c.alignment + b'.size, true⟩, l, by simp [mergeBack, hb'], rfl⟩
    | false => exact ⟨b, b' :: l, by simp [mergeBack, hb'], hfree⟩

theorem stop_mergeBack : stop c p (mergeBack c b l) = stop c p (b :: l) := by
  cases l with
  | nil => rfl
  | cons b' l =>
    rw [mergeBack]
    split
    · simp only [stop_cons]
      congr 1
      omega
    · rfl

theorem inUse_mergeBack (hfree : b.free = true) :
    InUse c a p (mergeBack c b l) ↔ InUse c a p (b :: l) := by
  cases l with
  | nil => rfl
  | cons b' l =>
    rw [mergeBack]
    split
    · rename_i hb'
      have hp : p + c.alignment + (b.size + c.alignment + b'.size) =
          p + c.alignment + b.size + c.alignment + b'.size := by omega
      simp [InUse, hfree, hb', hp]
    · rfl

theorem KeepsUsed.of_inUse {m m' : Memory} (hkeeps : KeepsUsed c m m' p l)
    (hstop : stop c p l = stop c p l') (hin : ∀ a, InUse c a p l' → InUse c a p l) :
    KeepsUsed c m m' p l' := by
  rintro a (hlt | hused | hge)
  · exact hkeeps a (.inl hlt)
  · exact hkeeps a (.inr (.inl (hin a hused)))
  · exact hkeeps a (.inr (.inr (hstop ▸ hge)))

/-- A used block is given back. -/
theorem Holds.insert (hl : Holds c h (pre ++ u :: post)) (hu : u.free = false) :
    ∃ h', h.insert c (stop c h.mem.base pre) = .ok h' ∧
      Changed c h h' (pre ++ ⟨u.size, true⟩ :: post) (giveBack c pre u.size post) := by
  obtain ⟨h₁, hrun₁, hl₁, hmem₁, hkeeps₁⟩ := hl.insertAfter hu
  obtain ⟨h₂, hrun₂, hl₂, hmem₂, hkeeps₂⟩ := hl₁.tryMergeBack rfl
  obtain ⟨b', l', hmerged, -⟩ := mergeBack_cases c (b := ⟨u.size, true⟩) rfl post
  obtain ⟨h₃, hrun₃, hl₃, hmem₃, hkeeps₃⟩ := Holds.tryMergeFront (by rw [← hmerged]; exact hl₂)
  rw [hmem₁] at hrun₂ hmem₂ hkeeps₂
  rw [hmem₂] at hrun₃ hmem₃ hkeeps₃
  rw [← hmerged] at hl₃ hkeeps₃
  refine ⟨h₃, ?_, hl₃, hmem₃, hkeeps₁.trans (hkeeps₂.trans (hkeeps₃.of_inUse ?_ fun a ha => ?_))⟩
  · rw [FirstFitHeap.insert, hl.positionFor hu, ok_bind, hrun₁, ok_bind]
    dsimp only
    rw [hrun₂, ok_bind, hrun₃]
  · rw [stop_append, stop_append, stop_mergeBack]
  · rw [inUse_append] at ha ⊢
    exact ha.imp_right (inUse_mergeBack rfl).mpr

/-- A pointer to a used block gives that block back. -/
theorem Holds.free (hl : Holds c h (pre ++ u :: post)) (hu : u.free = false) :
    ∃ h', h.free c (stop c h.mem.base pre + c.alignment) = .ok h' ∧
      Changed c h h' (pre ++ ⟨u.size, true⟩ :: post) (giveBack c pre u.size post) := by
  have ha := c.le_alignment
  obtain ⟨-, hb, -⟩ := hl.split
  have hin := hb.inside
  have hle := hl.size_le
  have hend := hl.region.end_eq
  have hbase : h.mem.base ≤ stop c h.mem.base pre := le_stop
  have hheader : wsub (stop c h.mem.base pre + c.alignment) c.sizeofHeaderUsed =
      stop c h.mem.base pre := by
    rw [c.sizeofHeaderUsed_eq, wsub_of_le (by omega) (by omega)]
    omega
  have hrange : h.ptrInRange (stop c h.mem.base pre) = true := by
    simp only [FirstFitHeap.ptrInRange, Bool.and_eq_true, decide_eq_true_eq]
    omega
  obtain ⟨h', hrun, hchanged⟩ := hl.insert hu
  refine ⟨h', ?_, hchanged⟩
  rw [FirstFitHeap.free, hheader]
  refine (if_neg ?_).trans ?_
  · rintro (hzero | hout)
    · omega
    · rw [hrange] at hout
      cases hout
  · rw [c.assertHeap_of _ hb.canaryAlive_eq, ok_bind,
      c.assertHeap_of _ (by rw [hb.isFree_eq, hu]), ok_bind, hrun]

end Toyos.Memory.FirstFit
