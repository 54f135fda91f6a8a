import Toyos.Core.Loop
import Toyos.Core.Dyadic
import Toyos.Util.Math
import Mathlib.Data.Finset.Max

/-!
# The buddy allocator

A state-passing embedding of `heap_block_manager` and `buddy_impl`. Each order
has its own ordered set of free addresses. A block identifier holds an order and
an iterator into the set of that order; the iterator is represented by the
address it points to, and using it while that address is absent is a fault.
Failed assertions and out-of-range accesses are explicit results.
-/

namespace Toyos.Memory

open Toyos.Core Toyos.Util

/-- The checks of the buddy allocator, named after their messages. -/
inductive BuddyFault
  /-- "Bad maximal order". -/
  | badMaximalOrder
  /-- "cannot split block of order 0". -/
  | cannotSplitOrderZero
  /-- "failed to insert right half of split block". -/
  | rightHalfPresent
  /-- "failed to insert left half of split block". -/
  | leftHalfPresent
  /-- "Failed to insert merged free block", in `merge_free` and in `add_free`. -/
  | blockPresent
  /-- "Order {} too large, maximum {}". -/
  | orderTooLarge
  /-- "Address {#x} not aligned to order {}". -/
  | addressNotAligned
  /-- "Vector with size {} too small for index {}". -/
  | vectorTooSmall
  /-- "no opt_id". -/
  | noBlockId
  /-- "Block manager broken". -/
  | blockManagerBroken
  /-- A vector access outside the vector. -/
  | indexOutOfRange
  /-- An iterator that points to no element. -/
  | invalidIterator
  /-- A loop that does not end within its bound. -/
  | unfinishedLoop
  deriving DecidableEq, Repr

/-- The largest order that any block manager accepts. -/
def maximalOrder : ℕ := 63

/-- A free block: its order and the set element its iterator points to. -/
abbrev FreeBlockId := Block

/-- Free blocks by order. -/
structure HeapBlockManager where
  /-- One ordered set of addresses for each order. -/
  freeBlocks : List (Finset ℕ)
  /-- The largest order that is stored. -/
  maxOrd : ℕ
  deriving DecidableEq

namespace HeapBlockManager

/-- An empty manager with room for all orders up to the maximum. -/
def new (maxOrd : ℕ) : Except BuddyFault HeapBlockManager := do
  ensure (maxOrd ≤ maximalOrder) .badMaximalOrder
  return ⟨List.replicate (maxOrd + 1) ∅, maxOrd⟩

/-- The set `free_blocks[ord]`. -/
def storage (m : HeapBlockManager) (ord : ℕ) : Except BuddyFault (Finset ℕ) :=
  match m.freeBlocks[ord]? with
  | some s => .ok s
  | none => .error .indexOutOfRange

/-- The address that a block identifier points to. -/
def getAddr (m : HeapBlockManager) (block : FreeBlockId) : Except BuddyFault ℕ := do
  let s ← m.storage block.ord
  ensure (block.addr ∈ s) .invalidIterator
  return block.addr

/-- `free_blocks[block.ord].erase(block.it)`. -/
def erase (m : HeapBlockManager) (block : FreeBlockId) : Except BuddyFault HeapBlockManager := do
  let s ← m.storage block.ord
  ensure (block.addr ∈ s) .invalidIterator
  return { m with freeBlocks := m.freeBlocks.set block.ord (s.erase block.addr) }

/-- `free_blocks[ord].emplace(addr)`, together with whether the address was new. -/
def emplace (m : HeapBlockManager) (ord addr : ℕ) :
    Except BuddyFault (HeapBlockManager × Bool) := do
  let s ← m.storage ord
  return ({ m with freeBlocks := m.freeBlocks.set ord (insert addr s) }, addr ∉ s)

/-- The first element of an ordered set, if it has one. -/
def first (s : Finset ℕ) : Option ℕ :=
  if h : s.Nonempty then some (s.min' h) else none

/-- One round of the search for an order with a free block. -/
def getFreeRound (m : HeapBlockManager) (order : ℕ) : Except BuddyFault (ℕ ⊕ ℕ) := do
  if order ≤ m.maxOrd then
    let s ← m.storage order
    if s = ∅ then return .inl (order + 1) else return .inr order
  else return .inr order

/-- A free block of at least the given order, of the least such order and address. -/
def getFree (m : HeapBlockManager) (order : ℕ) : Except BuddyFault (Option FreeBlockId) := do
  let order ← loop m.getFreeRound .unfinishedLoop (maximalOrder + 2) order
  if order > m.maxOrd then return none
  else
    let s ← m.storage order
    match first s with
    | some addr => return some ⟨order, addr⟩
    | none => .error .invalidIterator

/-- Split a free block in two halves and return the first one. -/
def splitFree (m : HeapBlockManager) (block : FreeBlockId) :
    Except BuddyFault (HeapBlockManager × FreeBlockId) := do
  let ord := block.ord
  let addr ← m.getAddr block
  ensure (ord ≠ 0) .cannotSplitOrderZero
  let m ← m.erase block
  let ord := ord - 1
  let (m, inserted) ← m.emplace ord (wrap (addr + wrap (1 <<< ord)))
  ensure (inserted = true) .rightHalfPresent
  let (m, inserted) ← m.emplace ord addr
  ensure (inserted = true) .leftHalfPresent
  return (m, ⟨ord, addr⟩)

/-- The address of the buddy of a block. -/
def getBuddyAddr (m : HeapBlockManager) (addr order : ℕ) : Except BuddyFault ℕ := do
  ensure (order ≤ maximalOrder) .orderTooLarge
  ensure (order ≤ m.maxOrd) .orderTooLarge
  return addr ^^^ wrap (1 <<< order)

/-- Merge a free block with its buddy and return the result, if that is possible. -/
def mergeFree (m : HeapBlockManager) (block : FreeBlockId) :
    Except BuddyFault (HeapBlockManager × Option FreeBlockId) := do
  let ord := block.ord
  if ord ≥ m.maxOrd then return (m, none)
  else
    let addr ← m.getAddr block
    let buddyAddr ← m.getBuddyAddr addr ord
    let s ← m.storage ord
    if buddyAddr ∉ s then return (m, none)
    else
      let m ← m.erase block
      let m ← m.erase ⟨ord, buddyAddr⟩
      let addr := min addr buddyAddr
      let ord := ord + 1
      let (m, inserted) ← m.emplace ord addr
      ensure (inserted = true) .blockPresent
      return (m, some ⟨ord, addr⟩)

/-- Remove a free block. -/
def markUsed (m : HeapBlockManager) (block : FreeBlockId) : Except BuddyFault HeapBlockManager :=
  m.erase block

/-- Add a free block without merging. -/
def addFree (m : HeapBlockManager) (addr ord : ℕ) :
    Except BuddyFault (HeapBlockManager × FreeBlockId) := do
  ensure (ord ≤ m.maxOrd) .orderTooLarge
  ensure (isAligned addr ord = true) .addressNotAligned
  ensure (m.freeBlocks.length > ord) .vectorTooSmall
  let (m, inserted) ← m.emplace ord addr
  ensure (inserted = true) .blockPresent
  return (m, ⟨ord, addr⟩)

end HeapBlockManager

/-- A buddy allocator: the public maximal order and the block manager. -/
structure BuddyImpl where
  /-- The maximal order, stored in eight bits. -/
  maxOrder : ℕ
  /-- The free blocks. -/
  blocks : HeapBlockManager
  deriving DecidableEq

namespace BuddyImpl

/-- A buddy without memory. -/
def new (maxOrd : ℕ) : Except BuddyFault BuddyImpl := do
  let maxOrder := maxOrd % 2 ^ 8
  let blocks ← HeapBlockManager.new maxOrder
  ensure (maxOrder ≤ maximalOrder) .badMaximalOrder
  return ⟨maxOrder, blocks⟩

/-- One round of splitting towards the requested order. -/
def allocRound (order : ℕ) (state : HeapBlockManager × FreeBlockId) :
    Except BuddyFault ((HeapBlockManager × FreeBlockId) ⊕ (HeapBlockManager × FreeBlockId)) := do
  if state.2.ord > order then return .inl (← state.1.splitFree state.2)
  else return .inr state

/-- Take a naturally aligned range of the given order, splitting a larger block if needed. -/
def alloc (b : BuddyImpl) (order : ℕ) : Except BuddyFault (Option ℕ × BuddyImpl) := do
  match ← b.blocks.getFree order with
  | none => return (none, b)
  | some id =>
    let (blocks, id) ← loop (allocRound order) .unfinishedLoop (maximalOrder + 2) (b.blocks, id)
    let retAddr ← blocks.getAddr id
    ensure (id.ord = order) .blockManagerBroken
    let blocks ← blocks.markUsed id
    return (some retAddr, { b with blocks })

/-- One round of merging after a block was added. -/
def freeRound (state : HeapBlockManager × FreeBlockId) :
    Except BuddyFault ((HeapBlockManager × FreeBlockId) ⊕ HeapBlockManager) := do
  match ← state.1.mergeFree state.2 with
  | (blocks, some id) => return .inl (blocks, id)
  | (blocks, none) => return .inr blocks

/-- Give back a range of the given order and merge as far as possible. -/
def free (b : BuddyImpl) (addr order : ℕ) : Except BuddyFault BuddyImpl := do
  let (blocks, id) ← b.blocks.addFree addr order
  ensure ((some id).isSome = true) .noBlockId
  let blocks ← loop freeRound .unfinishedLoop (maximalOrder + 2) (blocks, id)
  return { b with blocks }

end BuddyImpl

end Toyos.Memory
