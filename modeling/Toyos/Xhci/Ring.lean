import Toyos.Core.Loop
import Toyos.Core.Word
import Toyos.Xhci.Trb

/-!
# Rings of transfer request blocks

The ring buffers shared with the host controller. Software and hardware each own
one end: the producer marks an item by its cycle bit, and the consumer takes
items while the bit equals the cycle state of the ring. A transfer ring ends in a
Link item that leads back to the first item; an event ring wraps on its own.
-/

namespace Toyos.Xhci

open Toyos.Core

/-- The checks of a ring, with the accesses the language leaves undefined. -/
inductive RingFault
  /-- "Trying to enqueue in full queue!" -/
  | full
  /-- "Trying to dequeue from empty queue!" -/
  | empty
  /-- An access outside the buffer. -/
  | badIndex
  /-- The search for the enqueue pointer does not end. -/
  | unfinishedScan
  deriving DecidableEq, Repr

/-- A ring of `size` items, with or without a Link item. -/
structure TrbRing (size : ℕ) (hasLink : Bool) where
  /-- The items. -/
  ring : Vector Trb size
  /-- Linear address of the first item. -/
  base : ℕ
  /-- Address of the first item as the controller sees it. -/
  dmaAddr : ℕ
  enqueuePtr : ℕ
  dequeuePtr : ℕ
  /-- The cycle state. -/
  cycle : Bool
  deriving DecidableEq, Repr

namespace TrbRing

variable {size : ℕ} {hasLink : Bool}

/-- `ring_[i]`. -/
def item (r : TrbRing size hasLink) (i : ℕ) : Except RingFault Trb :=
  if h : i < size then .ok r.ring[i] else .error .badIndex

/-- Change `ring_[i]` in place. -/
def modifyItem (r : TrbRing size hasLink) (i : ℕ) (f : Trb → Trb) :
    Except RingFault (TrbRing size hasLink) :=
  if h : i < size then .ok { r with ring := r.ring.set i (f r.ring[i]) } else .error .badIndex

/-- Prepare a Link item that leads to the given address. -/
def prepareLink (target : ℕ) (t : Trb) : Trb :=
  { (t.setToggle true).setType Trb.linkType with buffer := BitVec.ofNat 64 target }

/-- `initialize`. -/
def initializeRing (r : TrbRing size hasLink) : Except RingFault (TrbRing size hasLink) :=
  let cleared : TrbRing size hasLink :=
    { r with
      ring := Vector.replicate size Trb.zero
      enqueuePtr := r.base
      dequeuePtr := r.base
      cycle := true }
  if hasLink then cleared.modifyItem (size - 1) (prepareLink r.dmaAddr) else .ok cleared

/-- The constructor over a buffer at `base`; without a separate address the controller sees
the linear one. -/
def new (buffer : Vector Trb size) (base dmaAddr : ℕ) : Except RingFault (TrbRing size hasLink) :=
  initializeRing ⟨buffer, base, if dmaAddr = 0 then base else dmaAddr, 0, 0, true⟩

/-- `index`. -/
def index (r : TrbRing size hasLink) (ptr : ℕ) : ℕ := wsub ptr r.base / Trb.size

/-- `check_enqueue_increment`. -/
def checkEnqueueIncrement (r : TrbRing size hasLink) (ptr : ℕ) : Except RingFault ℕ := do
  let cur ← r.item (r.index ptr)
  if cur.type = Trb.linkType then
    return r.base
  let ret := wrap (ptr + Trb.size)
  return if r.index ret = size then r.base else ret

/-- `increment`: the old pointer, the new pointer and the new cycle state. -/
def increment (r : TrbRing size hasLink) (ptr : ℕ) (cycle : Bool) :
    Except RingFault (ℕ × ℕ × Bool) := do
  let cur ← r.item (r.index ptr)
  let isLink := cur.type = Trb.linkType
  let cycle := if isLink ∧ cur.toggle then !cycle else cycle
  let old := if isLink then r.base else ptr
  let next := wrap (old + Trb.size)
  return if r.index next = size then (old, r.base, !cycle) else (old, next, cycle)

/-- `full`. -/
def full (r : TrbRing size hasLink) : Except RingFault Bool := do
  let next ← r.checkEnqueueIncrement r.enqueuePtr
  return next == r.dequeuePtr

/-- `empty`. -/
def empty (r : TrbRing size hasLink) : Bool := r.enqueuePtr == r.dequeuePtr

/-- `enqueue` returns the index of the free item, which it marks as inactive. Passing the
Link item hands that item to the consumer. -/
def enqueue (r : TrbRing size hasLink) : Except RingFault (ℕ × TrbRing size hasLink) := do
  let isFull ← r.full
  ensure (isFull = false) .full
  let (old, ptr, cycle) ← r.increment r.enqueuePtr r.cycle
  let moved := { r with enqueuePtr := ptr, cycle := cycle }
  let marked ← moved.modifyItem (r.index old) (·.setCycle (!cycle))
  if r.cycle ≠ cycle ∧ hasLink then
    let linked ← marked.modifyItem (size - 1) Trb.commit
    return (r.index old, linked)
  return (r.index old, marked)

/-- `dequeue` returns the index of the item in line for processing. -/
def dequeue (r : TrbRing size hasLink) : Except RingFault (ℕ × TrbRing size hasLink) := do
  ensure (r.empty = false) .empty
  let (old, ptr, cycle) ← r.increment r.dequeuePtr r.cycle
  let _ ← r.item (r.index old)
  return (r.index old, { r with dequeuePtr := ptr, cycle := cycle })

/-- One round of the search for a cycle bit transition. -/
def scanRound (r : TrbRing size hasLink) (s : ℕ × Bool) :
    Except RingFault ((ℕ × Bool) ⊕ ℕ) := do
  let cur ← r.item (r.index s.1)
  if cur.cycle = s.2 then
    let (_, ptr, cycle) ← r.increment s.1 s.2
    return .inl (ptr, cycle)
  return .inr s.1

/-- `update_enqueue_ptr`. A search that visits some pointer twice with the same cycle state
goes on forever, so more rounds than there are such pairs never end. -/
def updateEnqueuePtr (r : TrbRing size hasLink) : Except RingFault (TrbRing size hasLink) := do
  let ptr ← loop r.scanRound .unfinishedScan (2 * size + 1) (r.enqueuePtr, r.cycle)
  return { r with enqueuePtr := ptr }

/-- `update_dequeue_ptr`. -/
def updateDequeuePtr (r : TrbRing size hasLink) (newPtrDma : ℕ) :
    Except RingFault (TrbRing size hasLink) := do
  let (_, ptr, _) ← r.increment (wrap (r.base + wsub newPtrDma r.dmaAddr)) r.cycle
  return { r with dequeuePtr := ptr }

end TrbRing

end Toyos.Xhci
