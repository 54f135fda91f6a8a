import Toyos.Core.Cell
import Toyos.Core.Flag
import Toyos.Core.BitField
import Toyos.Core.Loop
import Toyos.Core.Word

/-!
# The first-fit heap

The default heap of the boot code. Memory is divided into blocks, each with a
header in front of it that holds its size, a flag for the block itself and one
for the block before it. Free blocks are linked in the order of their addresses
and carry their size once more at their end, so that a block that is given back
can be joined with the free blocks on both sides. The assertions of the heap
are a build option.
-/

namespace Toyos.Memory.FirstFit

open Toyos.Core

/-- The assertions of the heap. -/
inductive HeapFault
  /-- `(s & ~SIZE_MASK) == s`. -/
  | sizeTooLarge
  /-- `prev_footer > mem.base()`. -/
  | footerOutside
  /-- `block ? block->canary_alive() : true`, `header->canary_alive()`. -/
  | canaryDead
  /-- `val > *other`. -/
  | unordered
  /-- `val != *other`. -/
  | insertedTwice
  /-- `preceding->is_free()`. -/
  | precedingUsed
  /-- `size >= min_block_size()`. -/
  | requestTooSmall
  /-- `not header->is_free()`. -/
  | alreadyFree
  /-- The assertions about `ALIGNMENT`. -/
  | badAlignment
  /-- The assertions about the region. -/
  | badMemory
  /-- The free list does not end. -/
  | endless
  deriving DecidableEq, Repr

/-- The template argument, which is a power of two, and the build option. -/
structure Config where
  /-- The logarithm of `ALIGNMENT`. -/
  order : ℕ
  /-- `ALIGNMENT` is not below `HEAP_MIN_ALIGNMENT`. -/
  min_order : 4 ≤ order
  /-- Sizes are not rounded to more than a size can be. -/
  order_lt : order < 62
  /-- `HEAP_ENABLE_ASSERT`. -/
  enableAssert : Bool

/-- `fixed_memory`. -/
structure FixedMemory where
  /-- The first address. -/
  base : ℕ
  /-- The number of bytes. -/
  size : ℕ
  deriving DecidableEq, Repr

/-- `fixed_memory::end`. -/
def FixedMemory.end' (mem : FixedMemory) : ℕ := wrap (mem.base + mem.size)

/-- A heap together with the memory it works on. -/
structure FirstFitHeap where
  /-- The bytes of memory. -/
  bytes : Memory
  /-- The region of the heap. -/
  mem : FixedMemory
  /-- The first block of the free list; null is zero. -/
  list : ℕ

/-- `HEAP_MIN_ALIGNMENT`. -/
def heapMinAlignment : ℕ := 16

/-- The bit of `PREV_FREE_MASK`. -/
def prevFreeBit : ℕ := 63

/-- The bit of `THIS_FREE_MASK`. -/
def thisFreeBit : ℕ := 62

/-- `SIZE_MASK`. -/
def sizeMask : BitVec 64 := flag 64 prevFreeBit ||| flag 64 thisFreeBit

/-- `CANARY_VALUE`. -/
def canaryValue : BitVec 64 := 0x1337133713371337#64

/-- `sizeof(footer)`. -/
def sizeofFooter : ℕ := 8

namespace Config

variable (c : Config) (p : ℕ)

/-- `ALIGNMENT`. -/
def alignment : ℕ := 2 ^ c.order

/-- `ASSERT_HEAP`, which is empty unless the build enables it. -/
def assertHeap (cond : Prop) [Decidable cond] (fault : HeapFault) : Except HeapFault Unit :=
  ensure (c.enableAssert = true → cond) fault

/-- The length of `align_chars`, which fill the header up to the alignment. -/
def alignChars : ℕ := c.alignment - heapMinAlignment

/-- `sizeof(header_used)`. -/
def sizeofHeaderUsed : ℕ := c.alignChars + 16

/-- `sizeof(header_free)`. -/
def sizeofHeaderFree : ℕ := c.sizeofHeaderUsed + 8

/-- The address of `raw`. -/
def rawAddr : ℕ := p + c.alignChars

/-- The address of `canary`. -/
def canaryAddr : ℕ := p + c.alignChars + 8

/-- The address of `next_`. -/
def nextAddr : ℕ := p + c.sizeofHeaderUsed

/-- `header_used::data_ptr`. -/
def dataPtr : ℕ := wrap (p + c.sizeofHeaderUsed)

/-- `min_block_size`. -/
def minBlockSize : ℕ := c.sizeofHeaderFree - c.sizeofHeaderUsed + sizeofFooter

/-- `align`. -/
def align (size : ℕ) : ℕ :=
  let a := BitVec.ofNat 64 c.alignment
  let realSize := ((BitVec.ofNat 64 size + a - 1) &&& ~~~(a - 1)).toNat
  max c.minBlockSize realSize

end Config

namespace FirstFitHeap

variable (c : Config) (h : FirstFitHeap) (p : ℕ)

/-- Write a word. -/
def put (addr : ℕ) (v : BitVec 64) : FirstFitHeap := { h with bytes := h.bytes.setWord addr v }

/-- `header_used::raw`. -/
def raw : BitVec 64 := h.bytes.word (c.rawAddr p)

/-- `header_used::size`. -/
def size : ℕ := (h.raw c p &&& ~~~sizeMask).toNat

/-- `header_used::size`, setting it. -/
def setSize (s : ℕ) : Except HeapFault FirstFitHeap := do
  c.assertHeap (BitVec.ofNat 64 s &&& ~~~sizeMask = BitVec.ofNat 64 s) .sizeTooLarge
  return h.put (c.rawAddr p) (h.raw c p &&& sizeMask ||| (BitVec.ofNat 64 s &&& ~~~sizeMask))

/-- `header_used::prev_free`. -/
def prevFree : Bool := hasFlag (h.raw c p) prevFreeBit

/-- `header_used::prev_free`, setting it. -/
def setPrevFree (val : Bool) : FirstFitHeap :=
  h.put (c.rawAddr p) (putFlag (h.raw c p) prevFreeBit val)

/-- `header_used::is_free`. -/
def isFree : Bool := hasFlag (h.raw c p) thisFreeBit

/-- `header_used::is_free`, setting it. -/
def setIsFree (val : Bool) : FirstFitHeap :=
  h.put (c.rawAddr p) (putFlag (h.raw c p) thisFreeBit val)

/-- `header_used::canary_alive`. -/
def canaryAlive : Bool := h.bytes.word (c.canaryAddr p) == canaryValue

/-- `header_used::following_block`. -/
def followingBlock : ℕ :=
  let following := wrap (p + c.sizeofHeaderUsed + h.size c p)
  if h.mem.end' ≤ following then 0 else following

/-- `footer::header`. -/
def footerHeader (footer : ℕ) : ℕ :=
  wsub (wsub (wrap (footer + sizeofFooter)) (h.bytes.word footer).toNat) c.sizeofHeaderUsed

/-- `header_used::preceding_block`. -/
def precedingBlock : Except HeapFault ℕ :=
  if h.prevFree c p = false then return 0
  else do
    let prevFooter := wsub p sizeofFooter
    c.assertHeap (h.mem.base < prevFooter) .footerOutside
    return h.footerHeader c prevFooter

/-- `header_free::next`. -/
def next : ℕ := (h.bytes.word (c.nextAddr p)).toNat

/-- `header_free::next`, setting it. -/
def setNext (val : ℕ) : FirstFitHeap := h.put (c.nextAddr p) (BitVec.ofNat 64 val)

/-- `header_free::get_footer`. -/
def getFooter : ℕ := wsub (wrap (p + c.sizeofHeaderUsed + h.size c p)) sizeofFooter

/-- `header_free::update_footer`. -/
def updateFooter : FirstFitHeap := h.put (h.getFooter c p) (BitVec.ofNat 64 (h.size c p))

/-- The constructor of `header_free`. -/
def newHeaderFree (size : ℕ) : Except HeapFault FirstFitHeap := do
  let h := h.put (c.rawAddr p) 0
  let h := h.put (c.canaryAddr p) canaryValue
  let h ← h.setSize c p size
  let h := h.setNext c p 0
  let h := h.updateFooter c p
  return h.setIsFree c p true

/-- `iterator::operator++`. -/
def advance (block : ℕ) : Except HeapFault ℕ := do
  let block := h.next c block
  c.assertHeap (block ≠ 0 → h.canaryAlive c block = true) .canaryDead
  return block

/-- The number of rounds after which a walk over the free list is given up. -/
def rounds : ℕ := h.mem.size + 1

/-- One round of `position_for`. -/
def positionRound (val elem : ℕ) : Except HeapFault (ℕ ⊕ ℕ) :=
  if elem = 0 then return .inr 0
  else if h.next c elem = 0 ∨ val < h.next c elem then
    return .inr (if elem < val then elem else 0)
  else return .inl (← h.advance c elem)

/-- `position_for`. -/
def positionFor (val : ℕ) : Except HeapFault ℕ :=
  loop (h.positionRound c val) .endless h.rounds h.list

/-- The first part of `insert_after`: link a block behind another one, or as the first. -/
def linkAfter (val other : ℕ) : Except HeapFault FirstFitHeap := do
  let tmp := if other = 0 then h.list else h.next c other
  let h := h.setNext c val tmp
  let h := h.setIsFree c val true
  let h := h.updateFooter c val
  if other = 0 then return { h with list := val }
  else
    c.assertHeap (val ≠ other) .insertedTwice
    return h.setNext c other val

/-- The second part of `insert_after`: update the meta data of the surrounding blocks. -/
def flagNeighbours (val : ℕ) : Except HeapFault FirstFitHeap := do
  let following := h.followingBlock c val
  let preceding ← h.precedingBlock c val
  let h := if following ≠ 0 then h.setPrevFree c following true else h
  return if preceding ≠ 0 ∧ h.isFree c preceding = true then h.setPrevFree c val true else h

/-- `insert_after`. -/
def insertAfter (val other : ℕ) : Except HeapFault (ℕ × FirstFitHeap) :=
  if val = 0 then return (0, h)
  else do
    c.assertHeap (other < val) .unordered
    let h ← h.linkAfter c val other
    let h ← h.flagNeighbours c val
    return (val, h)

/-- `try_merge_back`. -/
def tryMergeBack (it : ℕ) : Except HeapFault FirstFitHeap :=
  let following := h.followingBlock c it
  if following ≠ 0 ∧ h.isFree c following = true then do
    let h := h.setNext c it (h.next c following)
    let h ← h.setSize c it (wrap (h.size c it + h.size c following + c.sizeofHeaderUsed))
    return h.updateFooter c it
  else return h

/-- `try_merge_front`. -/
def tryMergeFront (it : ℕ) : Except HeapFault FirstFitHeap :=
  if h.prevFree c it = false then return h
  else do
    let preceding ← h.precedingBlock c it
    if preceding = 0 then return h
    else
      c.assertHeap (h.isFree c preceding = true) .precedingUsed
      h.tryMergeBack c preceding

/-- `free_list_container::insert`. -/
def insert (val : ℕ) : Except HeapFault FirstFitHeap := do
  let pos ← h.positionFor c val
  let (elem, h) ← h.insertAfter c val pos
  let h ← h.tryMergeBack c elem
  h.tryMergeFront c elem

/-- `fits`. -/
def fits (block size : ℕ) : Except HeapFault Bool := do
  c.assertHeap (c.minBlockSize ≤ size) .requestTooSmall
  return size ≤ h.size c block

/-- One round of `first_free`, on a block and the block before it in the list. -/
def firstFreeRound (size : ℕ) (s : ℕ × ℕ) :
    Except HeapFault ((ℕ × ℕ) ⊕ Option (ℕ × ℕ)) :=
  if s.1 = 0 then return .inr none
  else do
    if ← h.fits c s.1 size then return .inr (some s)
    else return .inl (← h.advance c s.1, s.1)

/-- `first_free`: a block that fits and the block before it in the list. -/
def firstFree (size : ℕ) : Except HeapFault (Option (ℕ × ℕ)) :=
  loop (h.firstFreeRound c size) .endless h.rounds (h.list, 0)

/-- The split in `free_list_container::alloc`: the first part gets the size, the rest becomes a
new free block. -/
def splitBlock (block size sizeRemaining : ℕ) : Except HeapFault FirstFitHeap := do
  let h ← h.setSize c block size
  let h := h.updateFooter c block
  let newBlock := h.followingBlock c block
  let h ← h.newHeaderFree c newBlock (wsub sizeRemaining c.sizeofHeaderUsed)
  let h := h.setNext c newBlock (h.next c block)
  let h := h.setPrevFree c newBlock true
  return h.setNext c block newBlock

/-- The last part of `free_list_container::alloc`: take a block out of the list. -/
def takeBlock (block prev : ℕ) : FirstFitHeap :=
  let h :=
    if prev ≠ 0 then h.setNext c prev (h.next c block) else { h with list := h.next c block }
  let following := h.followingBlock c block
  let h := if following ≠ 0 then h.setPrevFree c following false else h
  h.setIsFree c block false

/-- `free_list_container::alloc`; null is zero. -/
def allocBlock (size : ℕ) : Except HeapFault (ℕ × FirstFitHeap) := do
  let size := c.align (max size c.alignment)
  match ← h.firstFree c size with
  | none => return (0, h)
  | some (block, prev) =>
    let sizeRemaining := wsub (h.size c block) size
    let h ←
      if sizeRemaining < c.sizeofHeaderFree + sizeofFooter then pure h
      else h.splitBlock c block size sizeRemaining
    return (block, h.takeBlock c block prev)

/-- `ptr_in_range`. -/
def ptrInRange : Bool := h.mem.base ≤ p && p < h.mem.end'

/-- The constructors of `first_fit_heap` and of its `free_list_container`. -/
def new (bytes : Memory) (mem : FixedMemory) : Except HeapFault FirstFitHeap := do
  let h ← newHeaderFree c ⟨bytes, mem, mem.base⟩ mem.base (wsub mem.size c.sizeofHeaderUsed)
  c.assertHeap (c.alignment ≠ 0 ∧ heapMinAlignment ≤ c.alignment ∧
    c.alignment &&& (c.alignment - 1) = 0 ∧ c.sizeofHeaderUsed = c.alignment) .badAlignment
  c.assertHeap (mem.size ≠ 0 ∧ mem.base &&& (c.alignment - 1) = 0 ∧ mem.base < mem.end') .badMemory
  return h

/-- `first_fit_heap::alloc`; null is zero. -/
def alloc (size : ℕ) : Except HeapFault (ℕ × FirstFitHeap) := do
  let (block, h) ← h.allocBlock c size
  return (if block ≠ 0 then c.dataPtr block else 0, h)

/-- `first_fit_heap::free`. -/
def free : Except HeapFault FirstFitHeap :=
  let header := wsub p c.sizeofHeaderUsed
  if p = 0 ∨ h.ptrInRange header = false then return h
  else do
    c.assertHeap (h.canaryAlive c header = true) .canaryDead
    c.assertHeap (h.isFree c header = false) .alreadyFree
    h.insert c header

/-- One round of a walk over the free list that adds up a value of each block. -/
def countRound (value : ℕ → ℕ) (s : ℕ × ℕ) : Except HeapFault ((ℕ × ℕ) ⊕ ℕ) :=
  if s.1 = 0 then return .inr s.2
  else return .inl (← h.advance c s.1, wrap (s.2 + value s.1))

/-- `num_blocks`. -/
def numBlocks : Except HeapFault ℕ :=
  loop (h.countRound c fun _ => 1) .endless h.rounds (h.list, 0)

/-- `free_mem`. -/
def freeMem : Except HeapFault ℕ :=
  loop (h.countRound c fun elem => h.size c elem) .endless h.rounds (h.list, 0)

end FirstFitHeap

end Toyos.Memory.FirstFit
