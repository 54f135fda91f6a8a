import Toyos.Memory.FirstFitCoalesced
import Toyos.Core.Run
import Mathlib.Data.List.Forall2
import Mathlib.Algebra.Order.Group.Nat

/-!
# Runs of the first-fit heap

Users allocate and give back in any order and write to what they hold. In every
state that is reached the used blocks are exactly the allocations that are held,
so every further call returns, the allocations are apart, no byte of the region
is lost and the heap takes the lowest gap that is large enough.
-/

namespace Toyos.Memory.FirstFit

open Toyos.Core

/-- A heap and the allocations that its users hold, with the sizes they asked for. -/
structure Session where
  /-- The heap. -/
  heap : FirstFitHeap
  /-- The allocations. -/
  live : List Piece

/-- What a user does. -/
inductive HeapEvent
  /-- A call of `alloc` and its result. -/
  | alloc (size result : ℕ)
  /-- A call of `free`. -/
  | free (p : ℕ)
  /-- A byte is written. -/
  | write (p : ℕ) (v : UInt8)
  deriving DecidableEq, Repr

/-- The address is inside a piece. -/
def Piece.Has (a : Piece) (q : ℕ) : Prop := a.addr ≤ q ∧ q < a.addr + a.size

/-- The allocation that a result is, if it is not null. -/
def handedOut (p size : ℕ) : List Piece := if p = 0 then [] else [⟨p, size⟩]

/-- Users write to their allocations and outside the region. -/
def Session.MayWrite (s : Session) (q : ℕ) : Prop :=
  (∃ a ∈ s.live, a.Has q) ∨ q < s.heap.mem.base ∨ s.heap.mem.base + s.heap.mem.size ≤ q

/-- One action of a user. A request does not exceed what can be rounded up, and `free` gets an
allocation that is held, null or a pointer whose header would not be in the region. -/
inductive Session.Step (c : Config) : Session → HeapEvent → Session → Prop
  | alloc {s size p h'} : size ≤ 2 ^ 64 - c.alignment → s.heap.alloc c size = .ok (p, h') →
      Step c s (.alloc size p) ⟨h', handedOut p size ++ s.live⟩
  | free {s a h'} : a ∈ s.live → s.heap.free c a.addr = .ok h' →
      Step c s (.free a.addr) ⟨h', s.live.erase a⟩
  | ignored {s p h'} : p = 0 ∨ s.heap.ptrInRange (wsub p c.sizeofHeaderUsed) = false →
      s.heap.free c p = .ok h' → Step c s (.free p) ⟨h', s.live⟩
  | write {s q v} : s.MayWrite q →
      Step c s (.write q v) ⟨{ s.heap with bytes := Function.update s.heap.bytes q v }, s.live⟩

/-- An allocation is at the start of a block that is large enough. -/
def Fits (a x : Piece) : Prop := a.addr = x.addr ∧ a.size ≤ x.size

/-- The used blocks are the allocations that are held; `k` lists these by address. -/
structure Accounts (c : Config) (s : Session) (l : List Chunk) (k : List Piece) : Prop where
  /-- Memory holds the heap. -/
  holds : Holds c s.heap l
  /-- No two free blocks are neighbours. -/
  coalesced : Coalesced l
  /-- All allocations are listed. -/
  perm : s.live.Perm k
  /-- Each has its block. -/
  fits : List.Forall₂ Fits k (usedPieces c s.heap.mem.base l)

section Lists

variable {α β : Type*} {R : α → β → Prop} {k k₁ k₂ : List α} {u u₁ u₂ : List β} {a : α} {x : β}

theorem forall₂_append_right (h : List.Forall₂ R k (u₁ ++ u₂)) :
    ∃ k₁ k₂, k = k₁ ++ k₂ ∧ List.Forall₂ R k₁ u₁ ∧ List.Forall₂ R k₂ u₂ :=
  ⟨_, _, (List.take_append_drop u₁.length k).symm, List.forall₂_take_append _ _ _ h,
    List.forall₂_drop_append _ _ _ h⟩

theorem forall₂_append_cons_left (h : List.Forall₂ R (k₁ ++ a :: k₂) u) :
    ∃ u₁ x u₂, u = u₁ ++ x :: u₂ ∧ List.Forall₂ R k₁ u₁ ∧ R a x ∧ List.Forall₂ R k₂ u₂ := by
  induction k₁ generalizing u with
  | nil =>
    obtain ⟨x, u₂, hx, hrest, rfl⟩ := List.forall₂_cons_left_iff.mp h
    exact ⟨[], x, u₂, rfl, .nil, hx, hrest⟩
  | cons b k₁ ih =>
    obtain ⟨y, u', hy, hrest, rfl⟩ := List.forall₂_cons_left_iff.mp h
    obtain ⟨u₁, x, u₂, rfl, hfst, hx, hsnd⟩ := ih hrest
    exact ⟨y :: u₁, x, u₂, rfl, .cons hy hfst, hx, hsnd⟩

theorem exists_of_forall₂_mem (h : List.Forall₂ R k u) (ha : a ∈ k) : ∃ x ∈ u, R a x := by
  obtain ⟨k₁, k₂, rfl⟩ := List.append_of_mem ha
  obtain ⟨u₁, x, u₂, rfl, -, hx, -⟩ := forall₂_append_cons_left h
  exact ⟨x, by simp, hx⟩

end Lists

variable {c : Config} {s t : Session} {l pre post : List Chunk} {k : List Piece} {a x : Piece}
  {p q size : ℕ} {e : HeapEvent} {h' : FirstFitHeap}

/-- A piece is cut out of a sequence together with its block. -/
theorem usedPieces_split {u₁ u₂ : List Piece} (hl : usedPieces c p l = u₁ ++ x :: u₂) :
    ∃ pre u post, l = pre ++ u :: post ∧ u.free = false ∧
      x = ⟨stop c p pre + c.alignment, u.size⟩ ∧ usedPieces c p pre = u₁ ∧
      usedPieces c (stop c p pre + c.alignment + u.size) post = u₂ := by
  induction l generalizing p u₁ with
  | nil => simp [usedPieces] at hl
  | cons b l ih =>
    cases hb : b.free with
    | true =>
      rw [usedPieces_free hb] at hl
      obtain ⟨pre, u, post, rfl, hu, rfl, hpre, hpost⟩ := ih hl
      exact ⟨b :: pre, u, post, rfl, hu, rfl, by rw [usedPieces_free hb, hpre], hpost⟩
    | false =>
      rw [usedPieces_used hb] at hl
      cases u₁ with
      | nil =>
        obtain ⟨hx, hrest⟩ := List.cons.inj hl
        exact ⟨[], b, l, rfl, hb, hx.symm, rfl, hrest⟩
      | cons y u₁ =>
        obtain ⟨hy, hrest⟩ := List.cons.inj hl
        obtain ⟨pre, u, post, rfl, hu, rfl, hpre, hpost⟩ := ih hrest
        exact ⟨b :: pre, u, post, rfl, hu, rfl, by rw [usedPieces_used hb, hpre, hy], hpost⟩

theorem inUse_of_mem (hx : x ∈ usedPieces c p l) (hq : x.Has q) : InUse c q p l := by
  obtain ⟨pre, u, post, rfl, hu, rfl⟩ := exists_of_mem_usedPieces hx
  exact inUse_append.mpr (.inr (.inl ⟨hu, hq⟩))

theorem Fits.has (h : Fits a x) (hq : a.Has q) : x.Has q := by
  obtain ⟨haddr, hsize⟩ := h
  unfold Piece.Has at hq ⊢
  omega

namespace Accounts

/-- What is held is in use. -/
theorem inUse (hs : Accounts c s l k) (ha : a ∈ s.live) (hq : a.Has q) :
    InUse c q s.heap.mem.base l := by
  obtain ⟨x, hx, hfits⟩ := exists_of_forall₂_mem hs.fits (hs.perm.mem_iff.mp ha)
  exact inUse_of_mem hx (hfits.has hq)

theorem alloc (hs : Accounts c s l k) (hsize : size ≤ 2 ^ 64 - c.alignment)
    (hrun : s.heap.alloc c size = .ok (p, h')) :
    (∃ l' k', Accounts c ⟨h', handedOut p size ++ s.live⟩ l' k') ∧ h'.mem = s.heap.mem ∧
      KeepsUsed c s.heap.bytes h'.bytes s.heap.mem.base l := by
  obtain ⟨hdvd, hle⟩ := c.grant_of_le hsize
  obtain ⟨r, hr, hspec⟩ := hs.holds.alloc hdvd
  obtain rfl := ok_unique hr hrun
  cases hspec with
  | full _ => exact ⟨⟨l, k, hs⟩, rfl, .refl⟩
  | @taken pre b post _ hsplit hb hfit _ hchanged =>
    obtain rfl := hsplit
    have ha := c.le_alignment
    obtain ⟨hholds, hmem, hkeeps⟩ := hchanged
    refine ⟨⟨pre ++ (carve c (c.grant size) b ++ post), ?_⟩, hmem, hkeeps⟩
    have hfits := hs.fits
    rw [usedPieces_append, usedPieces_free hb] at hfits
    obtain ⟨k₁, k₂, rfl, hfst, hsnd⟩ := forall₂_append_right hfits
    refine ⟨k₁ ++ ⟨stop c s.heap.mem.base pre + c.alignment, size⟩ :: k₂, hholds,
      hs.coalesced.carve hb, ?_, ?_⟩
    · have hpos : stop c s.heap.mem.base pre + c.alignment ≠ 0 := by omega
      rw [handedOut, if_neg hpos]
      exact (hs.perm.cons _).trans List.perm_middle.symm
    · dsimp only
      rw [hmem, usedPieces_append, usedPieces_append, usedPieces_carve, stop_carve hfit]
      refine List.rel_append hfst (.cons ⟨rfl, ?_⟩ hsnd)
      dsimp only
      split <;> omega

theorem free (hs : Accounts c s l k) (ha : a ∈ s.live) :
    ∃ h', s.heap.free c a.addr = .ok h' ∧
      (∃ l' k', Accounts c ⟨h', s.live.erase a⟩ l' k') ∧ h'.mem = s.heap.mem ∧
      ∀ b ∈ s.live.erase a, ∀ q, b.Has q → h'.bytes q = s.heap.bytes q := by
  obtain ⟨k₁, k₂, rfl⟩ := List.append_of_mem (hs.perm.mem_iff.mp ha)
  obtain ⟨u₁, x, u₂, hpieces, hfst, hx, hsnd⟩ := forall₂_append_cons_left hs.fits
  obtain ⟨pre, u, post, rfl, hu, rfl, rfl, rfl⟩ := usedPieces_split hpieces
  obtain ⟨h', hrun, hholds, hmem, hkeeps⟩ := hs.holds.free hu
  have hperm : (s.live.erase a).Perm (k₁ ++ k₂) := by
    have := (hs.perm.trans List.perm_middle).erase a
    rwa [List.erase_cons_head] at this
  have hfits := List.rel_append hfst hsnd
  refine ⟨h', by rw [hx.1]; exact hrun, ⟨_, _, hholds, hs.coalesced.giveBack, hperm, ?_⟩, hmem, ?_⟩
  · dsimp only
    rw [hmem, usedPieces_giveBack]
    exact hfits
  · intro b hb q hq
    obtain ⟨y, hy, hyfits⟩ := exists_of_forall₂_mem hfits (hperm.mem_iff.mp hb)
    refine hkeeps q (.inr (.inl (inUse_of_mem ?_ (hyfits.has hq))))
    rw [usedPieces_append, usedPieces_free rfl]
    exact hy

theorem write (hs : Accounts c s l k) (hq : s.MayWrite q) (v : UInt8) :
    Accounts c ⟨{ s.heap with bytes := Function.update s.heap.bytes q v }, s.live⟩ l k := by
  obtain ⟨hregion, hstop, hlist, hlayout⟩ := hs.holds
  refine ⟨⟨hregion, hstop, hlist, hlayout.congr fun a hlo hhi hnot => ?_⟩, hs.coalesced, hs.perm,
    hs.fits⟩
  refine Function.update_of_ne ?_ _ _
  rintro rfl
  rcases hq with ⟨b, hb, hhas⟩ | hlt | hge
  · exact hnot (hs.inUse hb hhas)
  · omega
  · omega

end Accounts

/-- A null pointer and one whose header is not in the region are ignored. -/
theorem FirstFitHeap.free_ignored {h : FirstFitHeap}
    (hp : p = 0 ∨ h.ptrInRange (wsub p c.sizeofHeaderUsed) = false) : h.free c p = .ok h := by
  rw [FirstFitHeap.free]
  exact if_pos hp

/-- A new heap is one free block. -/
theorem FirstFitHeap.new_spec {mem : FixedMemory} (hr : Region c mem) (bytes : Memory) :
    ∃ h, FirstFitHeap.new c bytes mem = .ok h ∧ h.mem = mem ∧
      Holds c h [⟨mem.size - c.alignment, true⟩] := by
  have ha := c.le_alignment
  obtain ⟨hpos, halign, hroom, hsmall, hin⟩ := hr
  have hsize : wsub mem.size c.sizeofHeaderUsed = mem.size - c.alignment := by
    rw [c.sizeofHeaderUsed_eq, wsub_of_le (by omega) (by omega)]
  obtain ⟨h, hrun, hmem, hlist, hchunk, -⟩ := newHeaderFree_spec (s := mem.size - c.alignment)
    (⟨bytes, mem, mem.base⟩ : FirstFitHeap) halign (by omega) (by omega) (by omega)
  refine ⟨h, ?_, hmem, ⟨hmem ▸ ⟨hpos, halign, hroom, hsmall, hin⟩, ?_, ?_, ?_⟩⟩
  · have hpow : c.alignment &&& (c.alignment - 1) = 0 := by
      rw [Config.alignment, Nat.and_two_pow_sub_one_eq_mod, Nat.mod_self]
    have hbase : mem.base &&& (c.alignment - 1) = 0 := by
      rw [Config.alignment, Nat.and_two_pow_sub_one_eq_mod]
      exact Nat.mod_eq_zero_of_dvd halign
    have hend : mem.base < mem.end' := by
      rw [FixedMemory.end', wrap_of_lt hin]
      omega
    rw [FirstFitHeap.new, hsize, hrun, ok_bind,
      c.assertHeap_of _ ⟨by omega, ha, hpow, c.sizeofHeaderUsed_eq⟩, ok_bind,
      c.assertHeap_of _ ⟨by omega, hbase, hend⟩]
    rfl
  · rw [hmem, stop, stop]
    dsimp only
    omega
  · rw [hlist, hmem]
    rfl
  · rw [hmem]
    exact ⟨hchunk, trivial⟩

/-- Only the rounded size of a request matters. -/
theorem FirstFitHeap.alloc_congr {h : FirstFitHeap} {size' : ℕ}
    (hgrant : c.grant size = c.grant size') : h.alloc c size = h.alloc c size' := by
  unfold Config.grant at hgrant
  simp only [FirstFitHeap.alloc, FirstFitHeap.allocBlock, hgrant]

/-- The heap of the boot code, whose assertions are not enabled. -/
def bootHeap : Config := ⟨4, by decide, by decide, false⟩

theorem bootRegion : Region bootHeap ⟨0x200000, 2 ^ 20⟩ :=
  ⟨by decide, by decide, by decide, by decide, by decide⟩

namespace Session

/-- The used blocks are the allocations that are held, in the given region. -/
def Sane (c : Config) (mem : FixedMemory) (s : Session) : Prop :=
  s.heap.mem = mem ∧ ∃ l k, Accounts c s l k

/-- One action keeps the account and does not touch what others hold. -/
theorem Step.sane {mem : FixedMemory} (hs : Sane c mem s) (hstep : Step c s e t) :
    Sane c mem t ∧ ∀ a ∈ s.live, e ≠ .free a.addr → a ∈ t.live ∧
      ∀ q, a.Has q → (∀ v, e ≠ .write q v) → t.heap.bytes q = s.heap.bytes q := by
  obtain ⟨hmem, l, k, hs⟩ := hs
  cases hstep with
  | @alloc size p h' hsize hrun =>
    obtain ⟨hnew, hmem', hkeeps⟩ := hs.alloc hsize hrun
    refine ⟨⟨hmem'.trans hmem, hnew⟩, fun a ha _ => ⟨List.mem_append_right _ ha, fun q hq _ => ?_⟩⟩
    exact hkeeps q (.inr (.inl (hs.inUse ha hq)))
  | @free a h' ha hrun =>
    obtain ⟨h₁, hrun₁, hnew, hmem', hkeeps⟩ := hs.free ha
    obtain rfl := ok_unique hrun₁ hrun
    refine ⟨⟨hmem'.trans hmem, hnew⟩, fun b hb hne => ?_⟩
    have hmem : b ∈ s.live.erase a :=
      (List.mem_erase_of_ne fun heq => hne (by rw [heq])).mpr hb
    exact ⟨hmem, fun q hq _ => hkeeps b hmem q hq⟩
  | ignored hp hrun =>
    obtain rfl := ok_unique (FirstFitHeap.free_ignored hp) hrun
    exact ⟨⟨hmem, l, k, hs⟩, fun a ha _ => ⟨ha, fun _ _ _ => rfl⟩⟩
  | @write q v hq =>
    refine ⟨⟨hmem, l, k, hs.write hq v⟩, fun a ha _ => ⟨ha, fun q' _ hne => ?_⟩⟩
    exact Function.update_of_ne (fun heq => hne v (by rw [heq])) _ _

variable {mem : FixedMemory}

/-- A heap that was just built, before anything is allocated. -/
theorem sane_new {bytes : Memory} {h : FirstFitHeap} (hr : Region c mem)
    (hnew : FirstFitHeap.new c bytes mem = .ok h) : Sane c mem ⟨h, []⟩ := by
  obtain ⟨h', hnew', hmem, hholds⟩ := FirstFitHeap.new_spec hr bytes
  obtain rfl := ok_unique hnew' hnew
  exact ⟨hmem, _, [], hholds, .singleton _, .refl _, .nil⟩

/-- A state that users can bring a new heap of the region into. -/
def Reached (c : Config) (mem : FixedMemory) (s : Session) : Prop :=
  ∃ bytes h es, FirstFitHeap.new c bytes mem = .ok h ∧ Run (Step c) ⟨h, []⟩ es s

theorem Reached.sane (hr : Region c mem) (hs : Reached c mem s) : Sane c mem s := by
  obtain ⟨bytes, h, es, hnew, hrun⟩ := hs
  exact hrun.invariant (Sane c mem) (sane_new hr hnew) fun _ _ _ hs hstep => (hstep.sane hs).1

/-- The first allocation is at the start of the region. -/
theorem Reached.first (hr : Region c mem) (size : ℕ) (hsize : size ≤ 2 ^ 64 - c.alignment)
    (hfit : c.grant size ≤ mem.size - c.alignment) :
    ∃ h', Reached c mem ⟨h', [⟨mem.base + c.alignment, size⟩]⟩ := by
  obtain ⟨h, hnew, rfl, hholds⟩ := FirstFitHeap.new_spec hr fun _ => 0
  obtain ⟨⟨p, h'⟩, hrun, hspec⟩ := hholds.alloc (c.grant_of_le hsize).1
  cases hspec with
  | full hsmall => exact absurd (hsmall _ List.mem_cons_self rfl) (by dsimp only; omega)
  | @taken pre b post _ hsplit _ _ _ _ =>
    cases pre with
    | nil =>
      have hstep := Step.alloc (s := ⟨h, []⟩) hsize hrun
      have hpos := hr.base_pos
      rw [handedOut, if_neg (by rw [stop]; omega)] at hstep
      exact ⟨h', _, h, _, hnew, Run.nil.snoc hstep⟩
    | cons b pre => simp at hsplit

/-- What users rely on. -/
structure Sound (c : Config) (mem : FixedMemory) (s : Session) : Prop where
  /-- Allocations are in the region. -/
  inside : ∀ a ∈ s.live, mem.base + c.alignment ≤ a.addr ∧ a.addr + a.size ≤ mem.base + mem.size
  /-- Allocations are aligned. -/
  aligned : ∀ a ∈ s.live, c.alignment ∣ a.addr
  /-- Allocations do not even touch each other. -/
  apart : s.live.Pairwise fun a b => a.addr + a.size < b.addr ∨ b.addr + b.size < a.addr
  /-- A request is answered; no assertion fails and the search ends. -/
  allocates : ∀ size ≤ 2 ^ 64 - c.alignment, ∃ r, s.heap.alloc c size = .ok r
  /-- An allocation can be given back; no assertion fails and the search ends. -/
  frees : ∀ a ∈ s.live, ∃ h', s.heap.free c a.addr = .ok h'

/-- Blocks with their headers in between are apart, and so is what they were taken for. -/
theorem apart_of_fits {k u : List Piece} (hfits : List.Forall₂ Fits k u)
    (hu : u.Pairwise fun x y => x.addr + x.size + c.alignment ≤ y.addr) :
    k.Pairwise fun a b => a.addr + a.size < b.addr ∨ b.addr + b.size < a.addr := by
  have ha := c.le_alignment
  induction hfits with
  | nil => exact .nil
  | @cons a x k u hax hrest ih =>
    obtain ⟨hx, hu⟩ := List.pairwise_cons.mp hu
    refine .cons (fun b hb => .inl ?_) (ih hu)
    obtain ⟨y, hy, hby⟩ := exists_of_forall₂_mem hrest hb
    have hgap := hx y hy
    obtain ⟨haddr, hsize⟩ := hax
    obtain ⟨haddr', -⟩ := hby
    omega

theorem Sane.sound (hs : Sane c mem s) : Sound c mem s := by
  obtain ⟨rfl, l, k, hs⟩ := hs
  have hpiece : ∀ a ∈ s.live, ∃ x ∈ usedPieces c s.heap.mem.base l, Fits a x := fun a ha =>
    exists_of_forall₂_mem hs.fits (hs.perm.mem_iff.mp ha)
  refine ⟨fun a ha => ?_, fun a ha => ?_, ?_, fun size hsize => ?_, fun a ha => ?_⟩
  · obtain ⟨x, hx, haddr, hsize⟩ := hpiece a ha
    have := usedPieces_bounds hx
    rw [hs.holds.stop_eq] at this
    omega
  · obtain ⟨x, hx, haddr, -⟩ := hpiece a ha
    obtain ⟨pre, u, post, rfl, hu, rfl⟩ := exists_of_mem_usedPieces hx
    obtain ⟨-, hchunk, -⟩ := hs.holds.split
    rw [haddr]
    exact Nat.dvd_add hchunk.aligned (Nat.dvd_refl _)
  · have hk := apart_of_fits hs.fits usedPieces_pairwise
    exact (hs.perm.pairwise_iff fun h => h.symm).mpr hk
  · obtain ⟨r, hr, -⟩ := hs.holds.alloc (c.grant_of_le hsize).1
    exact ⟨r, hr⟩
  · obtain ⟨h', hrun, -⟩ := hs.free ha
    exact ⟨h', hrun⟩

/-- Whatever users do with a heap, it keeps working and their allocations stay apart. -/
theorem first_fit_sound (hr : Region c mem) (bytes : Memory) :
    ∃ h, FirstFitHeap.new c bytes mem = .ok h ∧
      ∀ es s, Run (Step c) ⟨h, []⟩ es s → Sound c mem s := by
  obtain ⟨h, hnew, -⟩ := FirstFitHeap.new_spec hr bytes
  exact ⟨h, hnew, fun es s hrun => (Reached.sane hr ⟨bytes, h, es, hnew, hrun⟩).sound⟩

theorem first_fit_sound_boot : ∃ h, FirstFitHeap.new bootHeap (fun _ => 0xff) ⟨0x200000, 2 ^ 20⟩ =
    .ok h ∧ ∀ es s, Run (Step bootHeap) ⟨h, []⟩ es s → Sound bootHeap ⟨0x200000, 2 ^ 20⟩ s :=
  first_fit_sound bootRegion _

/-- What is stored in an allocation stays there until it is written again or given back. -/
theorem contents_kept {es : List HeapEvent} (hr : Region c mem) (hs : Reached c mem s)
    (hrun : Run (Step c) s es t) (ha : a ∈ s.live) (hfree : .free a.addr ∉ es) :
    a ∈ t.live ∧ ∀ q, a.Has q → (∀ v, .write q v ∉ es) → t.heap.bytes q = s.heap.bytes q := by
  have hinv : Sane c mem t ∧ (.free a.addr ∉ es → a ∈ t.live ∧
      ∀ q, a.Has q → (∀ v, .write q v ∉ es) → t.heap.bytes q = s.heap.bytes q) := by
    refine hrun.history_invariant (fun es t => Sane c mem t ∧ (.free a.addr ∉ es → a ∈ t.live ∧
      ∀ q, a.Has q → (∀ v, .write q v ∉ es) → t.heap.bytes q = s.heap.bytes q))
      ⟨hs.sane hr, fun _ => ⟨ha, fun _ _ _ => rfl⟩⟩ ?_
    rintro es s₁ e s₂ - ⟨hs₁, hkept⟩ hstep
    obtain ⟨hs₂, hstepkept⟩ := hstep.sane hs₁
    refine ⟨hs₂, fun hnot => ?_⟩
    simp only [List.mem_append, List.mem_singleton, not_or] at hnot
    obtain ⟨ha₁, hbytes₁⟩ := hkept hnot.1
    obtain ⟨ha₂, hbytes₂⟩ := hstepkept a ha₁ (Ne.symm hnot.2)
    refine ⟨ha₂, fun q hq hwrite => ?_⟩
    simp only [List.mem_append, List.mem_singleton, not_or] at hwrite
    rw [hbytes₂ q hq fun v => Ne.symm (hwrite v).2, hbytes₁ q hq fun v => (hwrite v).1]
  exact hinv.2 hfree

theorem contents_kept_alloc : ∃ s t : Session, ∃ p, Run (Step bootHeap) s [.alloc 100 p] t ∧
    ∀ q, 0x200010 ≤ q → q < 0x200028 → t.heap.bytes q = s.heap.bytes q := by
  obtain ⟨h, hs⟩ := Reached.first bootRegion 24 (by decide) (by decide)
  obtain ⟨⟨p, h'⟩, hrun⟩ := (hs.sane bootRegion).sound.allocates 100 (by decide)
  have hstep := Run.nil.snoc (Step.alloc (by decide) hrun)
  refine ⟨_, _, p, hstep, fun q hlo hhi => ?_⟩
  exact (contents_kept bootRegion hs hstep (List.mem_singleton.mpr rfl) (by simp)).2 q ⟨hlo, hhi⟩
    (by simp)

/-- The size that the header of an allocation has. -/
def blockSize (c : Config) (s : Session) (a : Piece) : ℕ := s.heap.size c (a.addr - c.alignment)

theorem blockSize_eq {l : List Chunk} {k : List Piece} (hs : Accounts c s l k)
    (hx : x ∈ usedPieces c s.heap.mem.base l) (hax : Fits a x) : blockSize c s a = x.size := by
  obtain ⟨pre, u, post, rfl, hu, rfl⟩ := exists_of_mem_usedPieces hx
  obtain ⟨-, hchunk, -⟩ := hs.holds.split
  rw [blockSize, hax.1, Nat.add_sub_cancel, hchunk.size_eq]

theorem sum_blockSize {l : List Chunk} {k : List Piece} (hs : Accounts c s l k) :
    (s.live.map (blockSize c s)).sum =
      ((usedPieces c s.heap.mem.base l).map (·.size)).sum := by
  have hmap : ∀ k u, List.Forall₂ Fits k u → (∀ x ∈ u, x ∈ usedPieces c s.heap.mem.base l) →
      k.map (blockSize c s) = u.map (·.size) := by
    intro k u hfits hu
    induction hfits with
    | nil => rfl
    | @cons a x k u hax _ ih =>
      rw [List.map_cons, List.map_cons, blockSize_eq hs (hu x (by simp)) hax,
        ih fun y hy => hu y (by simp [hy])]
  rw [(hs.perm.map _).sum_nat, hmap k _ hs.fits fun _ hx => hx]

/-- Every byte of the region is free, in an allocation or in a header. -/
theorem nothing_lost (hr : Region c mem) (hs : Reached c mem s) :
    ∃ blocks bytes, s.heap.numBlocks c = .ok blocks ∧ s.heap.freeMem c = .ok bytes ∧
      bytes + (s.live.map (blockSize c s)).sum + (blocks + s.live.length) * c.alignment = mem.size ∧
      blocks ≤ s.live.length + 1 ∧ (s.live = [] → blocks = 1 ∧ bytes = mem.size - c.alignment) ∧
      ∀ a ∈ s.live, a.size ≤ blockSize c s a := by
  obtain ⟨rfl, l, k, hs⟩ := hs.sane hr
  have hin := hr.inside
  have hroom := hr.room
  have ha := c.le_alignment
  have hlength : s.live.length = (usedPieces c s.heap.mem.base l).length :=
    hs.perm.length_eq.trans hs.fits.length_eq
  have hstop := hs.holds.stop_eq
  rw [stop_eq_sum, ← hlength, ← sum_blockSize hs] at hstop
  have hcount := hs.holds.count (fun _ => 1) (fun _ => 1) fun _ _ _ _ => rfl
  have hbytes := hs.holds.count (fun elem => s.heap.size c elem) (·.size) fun pre b post hl => by
    subst hl
    exact hs.holds.split.2.1.size_eq
  have hone : ((l.filter (·.free)).map fun _ => 1).sum = (l.filter (·.free)).length := by simp
  have hmul : (l.filter (·.free)).length + s.live.length ≤
      ((l.filter (·.free)).length + s.live.length) * c.alignment :=
    Nat.le_mul_of_pos_right _ (by omega)
  rw [hone, wrap_of_lt (by omega)] at hcount
  rw [wrap_of_lt (by omega)] at hbytes
  have hfree := (hs.coalesced.free_le (c := c) (p := s.heap.mem.base)).1
  refine ⟨_, _, hcount, hbytes, by omega, by omega, fun hempty => ?_, fun a ha => ?_⟩
  · have hlive : s.live.length = 0 := by rw [hempty]; rfl
    have hsum : (s.live.map (blockSize c s)).sum = 0 := by rw [hempty]; rfl
    rw [hlive, hsum] at hstop
    cases hl : l.filter (·.free) with
    | nil =>
      rw [hl] at hstop
      simp only [List.map_nil, List.sum_nil, List.length_nil] at hstop
      omega
    | cons b rest =>
      rw [hl, List.length_cons] at hfree
      have hrest : rest = [] := List.length_eq_zero_iff.mp (by omega)
      rw [hl, hrest] at hstop
      simp only [hrest, List.length_cons, List.length_nil, List.map_cons, List.map_nil,
        List.sum_cons, List.sum_nil] at hstop ⊢
      exact ⟨trivial, by omega⟩
  · obtain ⟨x, hx, hax⟩ := exists_of_forall₂_mem hs.fits (hs.perm.mem_iff.mp ha)
    rw [blockSize_eq hs hx hax]
    exact hax.2

theorem nothing_lost_first : ∃ s : Session, s.live = [⟨0x200010, 24⟩] ∧ ∃ blocks bytes,
    s.heap.numBlocks bootHeap = .ok blocks ∧ s.heap.freeMem bootHeap = .ok bytes ∧ blocks ≤ 2 ∧
      bytes + (blockSize bootHeap s ⟨0x200010, 24⟩ + 0) + (blocks + 1) * 16 = 2 ^ 20 := by
  obtain ⟨h, hs⟩ := Reached.first bootRegion 24 (by decide) (by decide)
  obtain ⟨blocks, bytes, hblocks, hbytes, hsum, hle, -⟩ := nothing_lost bootRegion hs
  exact ⟨_, rfl, blocks, bytes, hblocks, hbytes, hle, hsum⟩

/-- A header and a block of the size would fit at the address without touching a block in use. -/
def Gap (c : Config) (s : Session) (size x : ℕ) : Prop :=
  s.heap.mem.base ≤ x ∧ x + c.alignment + size ≤ s.heap.mem.base + s.heap.mem.size ∧
    ∀ a ∈ s.live, x + c.alignment + size + c.alignment ≤ a.addr ∨ a.addr + blockSize c s a ≤ x

/-- A gap is in a free block that is large enough. -/
theorem Gap.block {l : List Chunk} {k : List Piece} {y g : ℕ} (hs : Accounts c s l k)
    (hgap : Gap c s g y) : ∃ pre b post, l = pre ++ b :: post ∧ b.free = true ∧
      stop c s.heap.mem.base pre ≤ y ∧ g ≤ b.size := by
  have ha := c.le_alignment
  obtain ⟨hlo, hhi, happart⟩ := hgap
  rw [← hs.holds.stop_eq, Nat.add_assoc] at hhi
  obtain ⟨pre, b, post, hl, hb, hstart, hend⟩ := hs.coalesced.gap hlo hhi (by omega) fun x hx => by
    have hflip : List.Forall₂ (flip Fits) (usedPieces c s.heap.mem.base l) k := hs.fits.flip
    obtain ⟨a, ha, hax⟩ := exists_of_forall₂_mem hflip hx
    have := happart a (hs.perm.mem_iff.mpr ha)
    rw [blockSize_eq hs hx hax, hax.1] at this
    omega
  exact ⟨pre, b, post, hl, hb, hstart, by omega⟩

/-- A free block that is large enough is a gap. -/
theorem gap_of_free {pre post : List Chunk} {b : Chunk} {k : List Piece} {g : ℕ}
    (hs : Accounts c s (pre ++ b :: post) k) (hb : b.free = true) (hg : g ≤ b.size) :
    Gap c s g (stop c s.heap.mem.base pre) := by
  have hstop := hs.holds.stop_eq
  have hend : stop c s.heap.mem.base pre + c.alignment + b.size ≤
      stop c s.heap.mem.base (pre ++ b :: post) := by
    rw [stop_append]
    exact le_stop
  refine ⟨le_stop, by omega, fun a ha => ?_⟩
  obtain ⟨x, hx, hax⟩ := exists_of_forall₂_mem hs.fits (hs.perm.mem_iff.mp ha)
  rw [blockSize_eq hs hx hax, hax.1]
  rw [usedPieces_append, usedPieces_free hb] at hx
  rcases List.mem_append.mp hx with hx | hx
  · exact .inr (usedPieces_bounds hx).2
  · have := (usedPieces_bounds hx).1
    exact .inl (by omega)

/-- A request gets the lowest gap that is large enough, and null only if there is none. -/
theorem alloc_lowest (hr : Region c mem) (hs : Reached c mem s)
    (hsize : size ≤ 2 ^ 64 - c.alignment) :
    ∃ p h', s.heap.alloc c size = .ok (p, h') ∧
      (p = 0 ∧ (∀ x, ¬Gap c s (c.grant size) x) ∨
        ∃ x, p = x + c.alignment ∧ Gap c s (c.grant size) x ∧
          ∀ y, Gap c s (c.grant size) y → x ≤ y) := by
  obtain ⟨rfl, l, k, hs⟩ := hs.sane hr
  obtain ⟨⟨p, h'⟩, hrun, hspec⟩ := hs.holds.alloc (c.grant_of_le hsize).1
  refine ⟨p, h', hrun, ?_⟩
  cases hspec with
  | full hsmall =>
    refine .inl ⟨rfl, fun x hgap => ?_⟩
    obtain ⟨pre, b, post, rfl, hb, -, hg⟩ := hgap.block hs
    exact absurd (hsmall b (by simp) hb) (by omega)
  | @taken pre b post _ hsplit hb hfit hsmall _ =>
    subst hsplit
    refine .inr ⟨_, rfl, gap_of_free hs hb hfit, fun y hgap => ?_⟩
    obtain ⟨pre', b', post', hsplit, hb', hstart, hg⟩ := hgap.block hs
    refine le_trans ?_ hstart
    rcases List.append_eq_append_iff.mp hsplit with ⟨mid, rfl, -⟩ | ⟨mid, rfl, hmid⟩
    · rw [stop_append]
      exact le_stop
    · cases mid with
      | nil => rw [List.append_nil]
      | cons b'' mid =>
        obtain ⟨rfl, -⟩ := List.cons.inj hmid
        exact absurd (hsmall b' (by simp) hb') (by omega)

theorem alloc_lowest_second : ∃ s : Session, s.live = [⟨0x200010, 24⟩] ∧ ∃ p h',
    s.heap.alloc bootHeap 100 = .ok (p, h') ∧
      (p = 0 ∧ (∀ x, ¬Gap bootHeap s 112 x) ∨ ∃ x, p = x + 16 ∧ Gap bootHeap s 112 x ∧
        ∀ y, Gap bootHeap s 112 y → x ≤ y) := by
  obtain ⟨h, hs⟩ := Reached.first bootRegion 24 (by decide) (by decide)
  exact ⟨_, rfl, alloc_lowest bootRegion hs (by decide)⟩

/-- A request that cannot be rounded up is answered like one for the smallest block. -/
theorem oversized_request (hr : Region c mem) (hs : Reached c mem s) (horder : c.order = 4)
    (hsize : 2 ^ 64 - 16 < size) (hlt : size < 2 ^ 64) :
    s.heap.alloc c size = s.heap.alloc c 16 ∧
      ∀ x, Gap c s 16 x → ∃ p h', s.heap.alloc c size = .ok (p, h') ∧ p ≠ 0 ∧
        mem.base + mem.size < p + size := by
  have halign : c.alignment = 16 := by
    rw [Config.alignment, horder]
    rfl
  have hsmallest : c.grant 16 = 16 := by
    rw [Config.grant, Config.align_eq, halign]
    rfl
  have hgrant : c.grant size = c.grant 16 := by
    rw [c.grant_of_lt (by rw [halign]; exact hsize) hlt, hsmallest]
  have hsame : s.heap.alloc c size = s.heap.alloc c 16 := FirstFitHeap.alloc_congr hgrant
  refine ⟨hsame, fun x hgap => ?_⟩
  obtain ⟨rfl, l, k, hs⟩ := hs.sane hr
  have hdvd : c.alignment ∣ c.grant 16 := by rw [hsmallest, halign]
  obtain ⟨⟨p, h'⟩, hrun, hspec⟩ := hs.holds.alloc hdvd
  refine ⟨p, h', hsame.trans hrun, ?_⟩
  have hin := hr.inside
  cases hspec with
  | full hsmall =>
    obtain ⟨pre, b, post, rfl, hb, -, hg⟩ := hgap.block hs
    exact absurd (hsmall b (by simp) hb) (by omega)
  | @taken pre b post _ _ _ _ _ _ =>
    have hle : s.heap.mem.base ≤ stop c s.heap.mem.base pre := le_stop
    omega

theorem oversized_request_second : ∃ s : Session, s.live = [⟨0x200010, 24⟩] ∧
    s.heap.alloc bootHeap (2 ^ 64 - 1) = s.heap.alloc bootHeap 16 := by
  obtain ⟨h, hs⟩ := Reached.first bootRegion 24 (by decide) (by decide)
  exact ⟨_, rfl, (oversized_request bootRegion hs rfl (by decide) (by decide)).1⟩

end Session

end Toyos.Memory.FirstFit
