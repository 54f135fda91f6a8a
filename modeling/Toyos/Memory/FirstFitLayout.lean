import Toyos.Memory.FirstFit

/-!
# Layout of the first-fit heap

What memory holds for one block: the header in front of it and, as long as it
is free, the link behind the header and the footer at its end. Every access of
the heap to a block is an equation on these words, and a block is not changed by
what is written elsewhere, nor a used block by what is written into it.
-/

namespace Toyos.Memory.FirstFit

open Toyos.Core

/-- The header word of a block. -/
def rawOf (size : ℕ) (prevFree isFree : Bool) : BitVec 64 :=
  putFlag (putFlag (BitVec.ofNat 64 size &&& ~~~sizeMask) prevFreeBit prevFree) thisFreeBit isFree

section RawOf

variable {s s' : ℕ} {pf fr v : Bool}

theorem getLsbD_sizeMask (i : ℕ) : sizeMask.getLsbD i = (decide (i = 63) || decide (i = 62)) := by
  rw [sizeMask, BitVec.getLsbD_or, getLsbD_flag (by decide), getLsbD_flag (by decide)]
  rfl

theorem getLsbD_rawOf {i : ℕ} (hi : i < 64) : (rawOf s pf fr).getLsbD i =
    if i = 62 then fr else if i = 63 then pf else s.testBit i := by
  rw [rawOf, getLsbD_putFlag (by decide), getLsbD_putFlag (by decide), BitVec.getLsbD_and,
    BitVec.getLsbD_not, getLsbD_sizeMask, BitVec.getLsbD_ofNat]
  by_cases h62 : i = 62
  · simp [h62, thisFreeBit]
  · by_cases h63 : i = 63
    · simp [h63, thisFreeBit, prevFreeBit]
    · simp [h62, h63, hi, thisFreeBit, prevFreeBit]

theorem hasFlag_rawOf_prev : hasFlag (rawOf s pf fr) prevFreeBit = pf := by
  rw [hasFlag_eq, getLsbD_rawOf (by decide)]
  rfl

theorem hasFlag_rawOf_this : hasFlag (rawOf s pf fr) thisFreeBit = fr := by
  rw [hasFlag_eq, getLsbD_rawOf (by decide)]
  rfl

theorem putFlag_rawOf_prev : putFlag (rawOf s pf fr) prevFreeBit v = rawOf s v fr := by
  apply BitVec.eq_of_getLsbD_eq
  intro i hi
  rw [getLsbD_putFlag (by decide), getLsbD_rawOf hi, getLsbD_rawOf hi]
  by_cases h63 : i = 63
  · simp [h63, prevFreeBit]
  · simp [h63, prevFreeBit]

theorem putFlag_rawOf_this : putFlag (rawOf s pf fr) thisFreeBit v = rawOf s pf v := by
  apply BitVec.eq_of_getLsbD_eq
  intro i hi
  rw [getLsbD_putFlag (by decide), getLsbD_rawOf hi, getLsbD_rawOf hi]
  by_cases h62 : i = 62
  · simp [h62, thisFreeBit]
  · simp [h62, thisFreeBit]

/-- Setting the size in a header keeps the flags. -/
theorem setSize_rawOf : rawOf s pf fr &&& sizeMask ||| (BitVec.ofNat 64 s' &&& ~~~sizeMask) =
    rawOf s' pf fr := by
  apply BitVec.eq_of_getLsbD_eq
  intro i hi
  rw [BitVec.getLsbD_or, BitVec.getLsbD_and, BitVec.getLsbD_and, BitVec.getLsbD_not,
    getLsbD_sizeMask, BitVec.getLsbD_ofNat, getLsbD_rawOf hi, getLsbD_rawOf hi]
  by_cases h62 : i = 62
  · simp [h62]
  · by_cases h63 : i = 63
    · simp [h63]
    · simp [h62, h63, hi]

theorem zero_eq_rawOf : (0 : BitVec 64) = rawOf 0 false false := by decide

theorem rawOf_and_not_sizeMask :
    rawOf s pf fr &&& ~~~sizeMask = BitVec.ofNat 64 s &&& ~~~sizeMask := by
  apply BitVec.eq_of_getLsbD_eq
  intro i hi
  rw [BitVec.getLsbD_and, BitVec.getLsbD_and, BitVec.getLsbD_not, getLsbD_sizeMask,
    BitVec.getLsbD_ofNat, getLsbD_rawOf hi]
  by_cases h62 : i = 62
  · simp [h62]
  · by_cases h63 : i = 63
    · simp [h63]
    · simp [h62, h63, hi]

/-- Sizes below the flags pass the check of the setter. -/
theorem ofNat_and_not_sizeMask (hs : s < 2 ^ 62) :
    BitVec.ofNat 64 s &&& ~~~sizeMask = BitVec.ofNat 64 s := by
  apply BitVec.eq_of_getLsbD_eq
  intro i hi
  rw [BitVec.getLsbD_and, BitVec.getLsbD_not, getLsbD_sizeMask, BitVec.getLsbD_ofNat]
  by_cases hlow : i < 62
  · simp [hi, show i ≠ 62 by omega, show i ≠ 63 by omega]
  · rw [Nat.testBit_lt_two_pow (hs.trans_le (Nat.pow_le_pow_right (by decide) (by omega)))]
    simp

/-- A size is read back from a header. -/
theorem size_rawOf (hs : s < 2 ^ 62) : (rawOf s pf fr &&& ~~~sizeMask).toNat = s := by
  rw [rawOf_and_not_sizeMask, ofNat_and_not_sizeMask hs, BitVec.toNat_ofNat,
    Nat.mod_eq_of_lt (hs.trans (by decide))]

end RawOf

namespace Config

variable (c : Config)

theorem le_alignment : 16 ≤ c.alignment := by
  have h : 2 ^ 4 ≤ 2 ^ c.order := Nat.pow_le_pow_right (by decide) c.min_order
  exact h

theorem sizeofHeaderUsed_eq : c.sizeofHeaderUsed = c.alignment := by
  have := c.le_alignment
  unfold sizeofHeaderUsed alignChars heapMinAlignment
  omega

theorem rawAddr_eq (p : ℕ) : c.rawAddr p = p + c.alignment - 16 := by
  have := c.le_alignment
  unfold rawAddr alignChars heapMinAlignment
  omega

theorem canaryAddr_eq (p : ℕ) : c.canaryAddr p = p + c.alignment - 8 := by
  have := c.le_alignment
  unfold canaryAddr alignChars heapMinAlignment
  omega

theorem nextAddr_eq (p : ℕ) : c.nextAddr p = p + c.alignment := by
  rw [nextAddr, sizeofHeaderUsed_eq]

/-- An assertion that holds is passed in every build. -/
theorem assertHeap_of {cond : Prop} [Decidable cond] (fault : HeapFault) (h : cond) :
    c.assertHeap cond fault = .ok () := ensure_of fault fun _ => h

end Config

/-- A block of a layout. -/
structure Chunk where
  /-- The usable size. -/
  size : ℕ
  /-- Whether the block is free. -/
  free : Bool
  deriving DecidableEq, Repr

/-- Memory holds the header of a block at `p`, behind a block that is free or not. -/
structure HeaderAt (c : Config) (m : Memory) (p : ℕ) (prevFree : Bool) (b : Chunk) : Prop where
  /-- Headers are aligned. -/
  aligned : c.alignment ∣ p
  /-- A free block has room for the link and the footer. -/
  room : 16 ≤ b.size
  /-- Sizes stay below the flags. -/
  small : b.size < 2 ^ 62
  /-- The block lies in the address space. -/
  inside : p + c.alignment + b.size < 2 ^ 64
  /-- The header word. -/
  raw : m.word (c.rawAddr p) = rawOf b.size prevFree b.free
  /-- The canary. -/
  canary : m.word (c.canaryAddr p) = canaryValue

/-- Memory holds the link and the footer of a free block; `nx` is the next free block. -/
structure LinksAt (c : Config) (m : Memory) (p size nx : ℕ) : Prop where
  /-- The footer. -/
  footer : m.word (p + c.alignment + size - 8) = BitVec.ofNat 64 size
  /-- The link. -/
  next : m.word (c.nextAddr p) = BitVec.ofNat 64 nx

/-- Memory holds a block; if it is free, `nx` is the next free block. -/
structure ChunkAt (c : Config) (m : Memory) (p : ℕ) (prevFree : Bool) (b : Chunk) (nx : ℕ) : Prop
    extends HeaderAt c m p prevFree b where
  /-- A free block has its link and its footer. -/
  links : b.free = true → LinksAt c m p b.size nx

section Headers

variable {c : Config} {h : FirstFitHeap} {m m' : Memory} {p nx s v : ℕ} {pf fr val : Bool}
  {b : Chunk}

namespace FirstFitHeap

@[simp] theorem mem_put {w : BitVec 64} : (h.put v w).mem = h.mem := rfl

@[simp] theorem list_put {w : BitVec 64} : (h.put v w).list = h.list := rfl

@[simp] theorem mem_setNext : (h.setNext c p v).mem = h.mem := by rw [setNext, mem_put]

@[simp] theorem list_setNext : (h.setNext c p v).list = h.list := by rw [setNext, list_put]

@[simp] theorem mem_setPrevFree : (h.setPrevFree c p val).mem = h.mem := by
  rw [setPrevFree, mem_put]

@[simp] theorem list_setPrevFree : (h.setPrevFree c p val).list = h.list := by
  rw [setPrevFree, list_put]

@[simp] theorem mem_setIsFree : (h.setIsFree c p val).mem = h.mem := by rw [setIsFree, mem_put]

@[simp] theorem list_setIsFree : (h.setIsFree c p val).list = h.list := by rw [setIsFree, list_put]

@[simp] theorem mem_updateFooter : (h.updateFooter c p).mem = h.mem := by rw [updateFooter, mem_put]

@[simp] theorem list_updateFooter : (h.updateFooter c p).list = h.list := by
  rw [updateFooter, list_put]

end FirstFitHeap

/-- Writing a header word changes only the header. -/
theorem FirstFitHeap.put_raw_same {w : BitVec 64} :
    h.bytes.SameOutside (h.put (c.rawAddr p) w).bytes p (p + c.alignment) := by
  have ha := c.le_alignment
  refine Memory.SameOutside.setWord.mono ?_ ?_ <;> rw [c.rawAddr_eq] <;> omega

/-- Writing the canary changes only the header. -/
theorem FirstFitHeap.put_canary_same {w : BitVec 64} :
    h.bytes.SameOutside (h.put (c.canaryAddr p) w).bytes p (p + c.alignment) := by
  have ha := c.le_alignment
  refine Memory.SameOutside.setWord.mono ?_ ?_ <;> rw [c.canaryAddr_eq] <;> omega

/-- Writing a link changes only the link. -/
theorem FirstFitHeap.setNext_same : h.bytes.SameOutside (h.setNext c p v).bytes
    (p + c.alignment) (p + c.alignment + 8) := by
  rw [← c.nextAddr_eq]
  exact Memory.SameOutside.setWord

namespace HeaderAt

theorem congr (hb : HeaderAt c m p pf b) (hm : ∀ a, p ≤ a → a < p + c.alignment → m' a = m a) :
    HeaderAt c m' p pf b := by
  have ha := c.le_alignment
  refine { hb with raw := ?_, canary := ?_ }
  · rw [← hb.raw]
    refine Memory.word_congr fun a hl hu => hm a ?_ ?_ <;> rw [c.rawAddr_eq] at hl hu <;> omega
  · rw [← hb.canary]
    refine Memory.word_congr fun a hl hu => hm a ?_ ?_ <;> rw [c.canaryAddr_eq] at hl hu <;> omega

theorem size_eq (hb : HeaderAt c h.bytes p pf b) : h.size c p = b.size := by
  rw [FirstFitHeap.size, FirstFitHeap.raw, hb.raw, size_rawOf hb.small]

theorem prevFree_eq (hb : HeaderAt c h.bytes p pf b) : h.prevFree c p = pf := by
  rw [FirstFitHeap.prevFree, FirstFitHeap.raw, hb.raw, hasFlag_rawOf_prev]

theorem isFree_eq (hb : HeaderAt c h.bytes p pf b) : h.isFree c p = b.free := by
  rw [FirstFitHeap.isFree, FirstFitHeap.raw, hb.raw, hasFlag_rawOf_this]

theorem canaryAlive_eq (hb : HeaderAt c h.bytes p pf b) : h.canaryAlive c p = true := by
  rw [FirstFitHeap.canaryAlive, hb.canary, beq_self_eq_true]

theorem getFooter_eq (hb : HeaderAt c h.bytes p pf b) :
    h.getFooter c p = p + c.alignment + b.size - 8 := by
  have hin := hb.inside
  have hroom := hb.room
  rw [FirstFitHeap.getFooter, c.sizeofHeaderUsed_eq, hb.size_eq, wrap_of_lt hin,
    wsub_of_le hin (by unfold sizeofFooter; omega)]
  rfl

theorem followingBlock_eq (hb : HeaderAt c h.bytes p pf b) :
    h.followingBlock c p =
      if h.mem.end' ≤ p + c.alignment + b.size then 0 else p + c.alignment + b.size := by
  rw [FirstFitHeap.followingBlock, c.sizeofHeaderUsed_eq, hb.size_eq, wrap_of_lt hb.inside]

/-- Writing the header word. -/
theorem put_raw (hb : HeaderAt c h.bytes p pf b) (hroom : 16 ≤ s) (hsmall : s < 2 ^ 62)
    (hin : p + c.alignment + s < 2 ^ 64) :
    HeaderAt c (h.put (c.rawAddr p) (rawOf s val fr)).bytes p val ⟨s, fr⟩ := by
  have ha := c.le_alignment
  refine ⟨hb.aligned, hroom, hsmall, hin, Memory.word_setWord, ?_⟩
  rw [← hb.canary]
  exact Memory.word_setWord_of_apart (by rw [c.rawAddr_eq, c.canaryAddr_eq]; omega)

theorem setPrevFree_eq (hb : HeaderAt c h.bytes p pf b) :
    h.setPrevFree c p val = h.put (c.rawAddr p) (rawOf b.size val b.free) := by
  rw [FirstFitHeap.setPrevFree, FirstFitHeap.raw, hb.raw, putFlag_rawOf_prev]

theorem setIsFree_eq (hb : HeaderAt c h.bytes p pf b) :
    h.setIsFree c p val = h.put (c.rawAddr p) (rawOf b.size pf val) := by
  rw [FirstFitHeap.setIsFree, FirstFitHeap.raw, hb.raw, putFlag_rawOf_this]

theorem setIsFree (hb : HeaderAt c h.bytes p pf b) (val : Bool) :
    HeaderAt c (h.setIsFree c p val).bytes p pf ⟨b.size, val⟩ := by
  rw [hb.setIsFree_eq]
  exact hb.put_raw hb.room hb.small hb.inside

theorem setIsFree_same (hb : HeaderAt c h.bytes p pf b) (val : Bool) :
    h.bytes.SameOutside (h.setIsFree c p val).bytes p (p + c.alignment) := by
  rw [hb.setIsFree_eq]
  exact FirstFitHeap.put_raw_same

theorem setSize_eq (hraw : h.bytes.word (c.rawAddr p) = rawOf b.size pf b.free)
    (hs : s < 2 ^ 62) : h.setSize c p s = .ok (h.put (c.rawAddr p) (rawOf s pf b.free)) := by
  rw [FirstFitHeap.setSize, c.assertHeap_of _ (ofNat_and_not_sizeMask hs), ok_bind,
    FirstFitHeap.raw, hraw, setSize_rawOf]
  rfl

theorem updateFooter_eq (hb : HeaderAt c h.bytes p pf b) :
    h.updateFooter c p = h.put (p + c.alignment + b.size - 8) (BitVec.ofNat 64 b.size) := by
  rw [FirstFitHeap.updateFooter, hb.getFooter_eq, hb.size_eq]

theorem updateFooter (hb : HeaderAt c h.bytes p pf b) :
    HeaderAt c (h.updateFooter c p).bytes p pf b := by
  have hroom := hb.room
  rw [hb.updateFooter_eq]
  exact hb.congr fun a hl hu => Memory.setWord_of_outside (by omega)

/-- The footer lies inside the block. -/
theorem updateFooter_same (hb : HeaderAt c h.bytes p pf b) :
    h.bytes.SameOutside (h.updateFooter c p).bytes p (p + c.alignment + b.size) := by
  have hroom := hb.room
  rw [hb.updateFooter_eq]
  exact Memory.SameOutside.setWord.mono (by omega) (by omega)

theorem setNext (hb : HeaderAt c h.bytes p pf b) (v : ℕ) :
    HeaderAt c (h.setNext c p v).bytes p pf b :=
  hb.congr fun a _ hu => FirstFitHeap.setNext_same a (.inl hu)

/-- Writing the footer behind a link. -/
theorem linksAt (hb : HeaderAt c h.bytes p pf b)
    (hnext : h.bytes.word (c.nextAddr p) = BitVec.ofNat 64 nx) :
    LinksAt c (h.updateFooter c p).bytes p b.size nx := by
  have hroom := hb.room
  rw [hb.updateFooter_eq]
  refine ⟨Memory.word_setWord, ?_⟩
  rw [← hnext]
  exact Memory.word_setWord_of_apart (by rw [c.nextAddr_eq]; omega)

end HeaderAt

namespace LinksAt

/-- The links depend on the bytes behind the header. -/
theorem congr (hb : LinksAt c m p s nx) (hroom : 16 ≤ s)
    (hm : ∀ a, p + c.alignment ≤ a → a < p + c.alignment + s → m' a = m a) :
    LinksAt c m' p s nx := by
  constructor
  · rw [← hb.footer]
    exact Memory.word_congr fun a hl hu => hm a (by omega) (by omega)
  · rw [← hb.next]
    refine Memory.word_congr fun a hl hu => hm a ?_ ?_ <;> rw [c.nextAddr_eq] at hl hu <;> omega

theorem of_header_same (hb : LinksAt c m p s nx) (hroom : 16 ≤ s)
    (hm : m.SameOutside m' p (p + c.alignment)) : LinksAt c m' p s nx :=
  hb.congr hroom fun a hl _ => hm a (.inr hl)

end LinksAt

namespace ChunkAt

/-- A block depends on its own bytes only, and on those of its header if it is used. -/
theorem congr (hb : ChunkAt c m p pf b nx)
    (hm : ∀ a, p ≤ a → a < p + c.alignment + (if b.free then b.size else 0) → m' a = m a) :
    ChunkAt c m' p pf b nx := by
  refine ⟨hb.toHeaderAt.congr fun a hl hu => hm a hl (by omega), fun hf => ?_⟩
  refine (hb.links hf).congr hb.room fun a hl hu => hm a (by omega) ?_
  rw [if_pos hf]
  exact hu

/-- A block is not changed by what happens elsewhere. -/
theorem frame {lo hi : ℕ} (hb : ChunkAt c m p pf b nx) (hm : m.SameOutside m' lo hi)
    (hapart : p + c.alignment + b.size ≤ lo ∨ hi ≤ p) : ChunkAt c m' p pf b nx := by
  refine hb.congr fun a hl hu => hm a ?_
  split at hu <;> omega

/-- A used block needs only its header. -/
theorem of_used (hb : HeaderAt c m p pf ⟨s, false⟩) : ChunkAt c m p pf ⟨s, false⟩ nx :=
  ⟨hb, fun hf => by cases hf⟩

theorem next_eq (hb : ChunkAt c h.bytes p pf b nx) (hfree : b.free = true) (hnx : nx < 2 ^ 64) :
    h.next c p = nx := by
  rw [FirstFitHeap.next, (hb.links hfree).next, BitVec.toNat_ofNat, Nat.mod_eq_of_lt hnx]

/-- The footer of a free block leads to its header. -/
theorem footerHeader_eq (hb : ChunkAt c h.bytes p pf b nx) (hfree : b.free = true) :
    h.footerHeader c (p + c.alignment + b.size - 8) = p := by
  have hin := hb.inside
  have hroom := hb.room
  have hsmall := hb.small
  rw [FirstFitHeap.footerHeader, (hb.links hfree).footer, BitVec.toNat_ofNat,
    Nat.mod_eq_of_lt (hsmall.trans (by decide)), c.sizeofHeaderUsed_eq, sizeofFooter,
    Nat.sub_add_cancel (by omega), wrap_of_lt hin, wsub_of_le hin (by omega),
    wsub_of_le (by omega) (by omega)]
  omega

/-- Setting the link. -/
theorem setNext (hb : ChunkAt c h.bytes p pf b nx) (v : ℕ) :
    ChunkAt c (h.setNext c p v).bytes p pf b v := by
  have hroom := hb.room
  refine ⟨hb.toHeaderAt.setNext v, fun hf => ⟨?_, Memory.word_setWord⟩⟩
  rw [← (hb.links hf).footer]
  exact Memory.word_setWord_of_apart (by rw [c.nextAddr_eq]; omega)

theorem setPrevFree (hb : ChunkAt c h.bytes p pf b nx) (val : Bool) :
    ChunkAt c (h.setPrevFree c p val).bytes p val b nx := by
  rw [hb.setPrevFree_eq]
  exact ⟨hb.toHeaderAt.put_raw hb.room hb.small hb.inside,
    fun hf => (hb.links hf).of_header_same hb.room FirstFitHeap.put_raw_same⟩

theorem setPrevFree_same (hb : ChunkAt c h.bytes p pf b nx) (val : Bool) :
    h.bytes.SameOutside (h.setPrevFree c p val).bytes p (p + c.alignment + b.size) := by
  rw [hb.setPrevFree_eq]
  exact FirstFitHeap.put_raw_same.mono le_rfl (by omega)

/-- Setting the size of a free block and writing its footer. -/
theorem resize (hb : ChunkAt c h.bytes p pf b nx) (hfree : b.free = true) (hroom : 16 ≤ s)
    (hsmall : s < 2 ^ 62) (hin : p + c.alignment + s < 2 ^ 64) :
    ∃ h', h.setSize c p s = .ok h' ∧ h'.mem = h.mem ∧ h'.list = h.list ∧
      ChunkAt c (h'.updateFooter c p).bytes p pf ⟨s, true⟩ nx ∧
      h.bytes.SameOutside (h'.updateFooter c p).bytes p (p + c.alignment + s) := by
  have ha := c.le_alignment
  have hheader : HeaderAt c (h.put (c.rawAddr p) (rawOf s pf true)).bytes p pf ⟨s, true⟩ :=
    hb.toHeaderAt.put_raw hroom hsmall hin
  have hsize := HeaderAt.setSize_eq hb.raw hsmall
  rw [hfree] at hsize
  refine ⟨_, hsize, rfl, rfl, ⟨hheader.updateFooter, fun _ => hheader.linksAt ?_⟩, ?_⟩
  · rw [← (hb.links hfree).next]
    exact Memory.word_setWord_of_apart (by rw [c.rawAddr_eq, c.nextAddr_eq]; omega)
  · exact (FirstFitHeap.put_raw_same.mono le_rfl (by omega)).trans hheader.updateFooter_same

/-- A used block becomes a free one. -/
theorem release (hb : ChunkAt c h.bytes p pf b nx) (v : ℕ) :
    ChunkAt c (((h.setNext c p v).setIsFree c p true).updateFooter c p).bytes p pf
        ⟨b.size, true⟩ v ∧
      h.bytes.SameOutside (((h.setNext c p v).setIsFree c p true).updateFooter c p).bytes p
        (p + c.alignment + b.size) := by
  have ha := c.le_alignment
  have hroom := hb.room
  have hlink := hb.toHeaderAt.setNext v
  have hheader := hlink.setIsFree true
  have hsame : (h.setNext c p v).bytes.SameOutside
      ((h.setNext c p v).setIsFree c p true).bytes p (p + c.alignment) :=
    hlink.setIsFree_same true
  refine ⟨⟨hheader.updateFooter, fun _ => hheader.linksAt ?_⟩, ?_⟩
  · have hnext : (h.setNext c p v).bytes.word (c.nextAddr p) = BitVec.ofNat 64 v :=
      Memory.word_setWord
    rw [← hnext]
    exact Memory.word_congr fun a hl _ => hsame a (.inr (by rw [c.nextAddr_eq] at hl; omega))
  · refine Memory.SameOutside.trans ?_ hheader.updateFooter_same
    exact (FirstFitHeap.setNext_same.mono (by omega) (by omega)).trans
      (hsame.mono le_rfl (by omega))

end ChunkAt

/-- A new free block. -/
theorem newHeaderFree_spec (h : FirstFitHeap) (halign : c.alignment ∣ p) (hroom : 16 ≤ s)
    (hsmall : s < 2 ^ 62) (hin : p + c.alignment + s < 2 ^ 64) :
    ∃ h', h.newHeaderFree c p s = .ok h' ∧ h'.mem = h.mem ∧ h'.list = h.list ∧
      ChunkAt c h'.bytes p false ⟨s, true⟩ 0 ∧
      h.bytes.SameOutside h'.bytes p (p + c.alignment + s) := by
  have ha := c.le_alignment
  let h₁ := (h.put (c.rawAddr p) 0).put (c.canaryAddr p) canaryValue
  let h₂ := h₁.put (c.rawAddr p) (rawOf s false false)
  have hraw : h₁.bytes.word (c.rawAddr p) = rawOf 0 false false := by
    rw [← zero_eq_rawOf]
    refine (Memory.word_setWord_of_apart ?_).trans Memory.word_setWord
    rw [c.rawAddr_eq, c.canaryAddr_eq]
    omega
  have hheader : HeaderAt c h₂.bytes p false ⟨s, false⟩ := by
    refine ⟨halign, hroom, hsmall, hin, Memory.word_setWord, ?_⟩
    refine (Memory.word_setWord_of_apart ?_).trans Memory.word_setWord
    rw [c.rawAddr_eq, c.canaryAddr_eq]
    omega
  have hlink := hheader.setNext 0
  have hfooter := hlink.updateFooter
  have hrun : h.newHeaderFree c p s =
      .ok (((h₂.setNext c p 0).updateFooter c p).setIsFree c p true) := by
    have hsize := HeaderAt.setSize_eq (b := ⟨0, false⟩) (h := h₁) hraw hsmall
    rw [FirstFitHeap.newHeaderFree]
    exact (congrArg (· >>= _) hsize).trans rfl
  refine ⟨_, hrun, by simp [h₂, h₁], by simp [h₂, h₁], ⟨hfooter.setIsFree true, fun _ => ?_⟩, ?_⟩
  · have hnext : (h₂.setNext c p 0).bytes.word (c.nextAddr p) = BitVec.ofNat 64 0 :=
      Memory.word_setWord
    exact (hlink.linksAt hnext).of_header_same hroom (hfooter.setIsFree_same true)
  · have hsame : h.bytes.SameOutside h₂.bytes p (p + c.alignment) :=
      (FirstFitHeap.put_raw_same.trans FirstFitHeap.put_canary_same).trans
        FirstFitHeap.put_raw_same
    refine Memory.SameOutside.trans ?_ ((hfooter.setIsFree_same true).mono le_rfl (by omega))
    refine Memory.SameOutside.trans ?_ hlink.updateFooter_same
    exact (hsame.mono le_rfl (by omega)).trans
      (FirstFitHeap.setNext_same.mono (by omega) (by omega))

end Headers

end Toyos.Memory.FirstFit
