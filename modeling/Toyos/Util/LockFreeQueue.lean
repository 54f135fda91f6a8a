import Toyos.Core.Run
import Toyos.Core.Word
import Mathlib.Data.Vector.Basic

/-!
# The lock-free queue

A ring buffer shared by one producer and one consumer. Each party loads and
stores the two positions one at a time, so between any two accesses of one party
the other one may take any number of steps. The two loads of a comparison happen
in either order.
-/

namespace Toyos.Util

open Toyos.Core

/-- The shared storage, with room for one element more than the maximum. -/
structure QueueStorage (T : Type) (maxSize : ℕ) where
  /-- The number of elements the queue may hold. -/
  entryNum : ℕ
  readPosition : ℕ
  writePosition : ℕ
  elements : Vector T (maxSize + 1)

namespace QueueStorage

variable {T : Type} {maxSize : ℕ}

/-- `initialize`. -/
def initializeQueue (q : QueueStorage T maxSize) (numElems : ℕ) : QueueStorage T maxSize :=
  { q with
    readPosition := 0
    writePosition := 0
    entryNum := if numElems < maxSize then numElems else maxSize }

/-- `next_slot`. -/
def nextSlot (q : QueueStorage T maxSize) (old : ℕ) : ℕ := wrap (old + 1) % wrap (q.entryNum + 1)

/-- `full`, by the values it loaded. -/
def isFull (q : QueueStorage T maxSize) (read write : ℕ) : Bool := read == q.nextSlot write

end QueueStorage

/-- `empty`, by the values it loaded. -/
def isEmpty (read write : ℕ) : Bool := read == write

/-- Where the producer is. -/
inductive Producer (T : Type)
  /-- Between two calls. -/
  | idle
  /-- In the check of `push`, with the positions loaded so far. -/
  | checking (elem : T) (read write : Option ℕ)
  /-- Before `push` loads the write position again. -/
  | reloading (elem : T)
  /-- Before `push` writes the element. -/
  | filling (elem : T) (slot : ℕ)
  /-- Before `push` stores the write position. -/
  | publishing (elem : T) (slot : ℕ)

/-- The places where the consumer calls `empty`. -/
inductive Check (T : Type)
  /-- A call of its own. -/
  | empty
  /-- The check of `get_and_pop`. -/
  | get
  /-- The assertion of `front`, which may be called by `get_and_pop`. -/
  | front (getting : Bool)
  /-- The check of `pop`, with the value that `get_and_pop` returns. -/
  | pop (val : Option T)

/-- Where the consumer is. -/
inductive Consumer (T : Type)
  /-- Between two calls. -/
  | idle
  /-- In a call of `empty`, with the positions loaded so far. -/
  | checking (check : Check T) (read write : Option ℕ)
  /-- Before `front` loads the read position. -/
  | fronting (getting : Bool)
  /-- Before `get_and_pop` copies the element. -/
  | copying (slot : ℕ)
  /-- Before `pop` loads the read position. -/
  | popping (val : Option T)
  /-- Before `pop` stores the read position. -/
  | advancing (val : Option T) (slot : ℕ)
  /-- An assertion failed. -/
  | failed

/-- Where the consumer continues after `empty`. -/
def Check.outcome {T : Type} (empty : Bool) : Check T → Consumer T
  | .empty => .idle
  | .get => if empty then .idle else .checking (.front true) none none
  | .front getting => if empty then .failed else .fronting getting
  | .pop none => if empty then .idle else .popping none
  | .pop (some val) => if empty then .failed else .popping (some val)

/-- A call of `empty` that answers no permits a call of `front`. -/
def Check.permits {T : Type} (empty ready : Bool) : Check T → Bool
  | .empty => !empty
  | _ => ready

/-- Storage, producer and consumer. -/
structure QueueSystem (T : Type) (maxSize : ℕ) where
  queue : QueueStorage T maxSize
  producer : Producer T
  consumer : Consumer T
  /-- The consumer knows that there is an element. -/
  ready : Bool
  /-- The element `front` returned a reference to. -/
  held : Option ℕ
  /-- The values for which `push` returned true. -/
  pushed : List T
  /-- The values that were popped. -/
  popped : List T

/-- An access of the producer or of the consumer. -/
inductive QueueAction (T : Type)
  | push (elem : T)
  | loadRead
  | loadWrite
  | checkFull
  | reload
  | fill
  | publish
  | empty
  | front
  | pop
  | getAndPop
  | peekRead
  | peekWrite
  | checkEmpty
  | loadFront
  | copy
  | loadPop
  | advance
  deriving DecidableEq, Repr

namespace QueueSystem

variable {T : Type} {maxSize : ℕ}

/-- Both parties idle on initialized storage. -/
def start (q : QueueStorage T maxSize) : QueueSystem T maxSize :=
  ⟨q, .idle, .idle, false, none, [], []⟩

/-- One load or store, one access to an element or the beginning of a call. -/
inductive Step : QueueSystem T maxSize → QueueAction T → QueueSystem T maxSize → Prop
  | push {s : QueueSystem T maxSize} {elem} (hp : s.producer = .idle) :
      Step s (.push elem) { s with producer := .checking elem none none }
  | loadRead {s : QueueSystem T maxSize} {elem write}
      (hp : s.producer = .checking elem none write) :
      Step s .loadRead { s with producer := .checking elem (some s.queue.readPosition) write }
  | loadWrite {s : QueueSystem T maxSize} {elem read}
      (hp : s.producer = .checking elem read none) :
      Step s .loadWrite { s with producer := .checking elem read (some s.queue.writePosition) }
  | checkFull {s : QueueSystem T maxSize} {elem read write}
      (hp : s.producer = .checking elem (some read) (some write)) :
      Step s .checkFull { s with
        producer := if s.queue.isFull read write then .idle else .reloading elem }
  | reload {s : QueueSystem T maxSize} {elem} (hp : s.producer = .reloading elem) :
      Step s .reload { s with producer := .filling elem s.queue.writePosition }
  | fill {s : QueueSystem T maxSize} {elem slot} (hp : s.producer = .filling elem slot)
      (hslot : slot < maxSize + 1) :
      Step s .fill { s with
        queue := { s.queue with elements := s.queue.elements.set slot elem }
        producer := .publishing elem slot }
  | publish {s : QueueSystem T maxSize} {elem slot} (hp : s.producer = .publishing elem slot) :
      Step s .publish { s with
        queue := { s.queue with writePosition := s.queue.nextSlot slot }
        producer := .idle
        pushed := s.pushed ++ [elem] }
  | empty {s : QueueSystem T maxSize} (hc : s.consumer = .idle) :
      Step s .empty { s with consumer := .checking .empty none none }
  | front {s : QueueSystem T maxSize} (hc : s.consumer = .idle) (hready : s.ready = true) :
      Step s .front { s with consumer := .checking (.front false) none none }
  | pop {s : QueueSystem T maxSize} (hc : s.consumer = .idle) :
      Step s .pop { s with consumer := .checking (.pop none) none none }
  | getAndPop {s : QueueSystem T maxSize} (hc : s.consumer = .idle) :
      Step s .getAndPop { s with consumer := .checking .get none none }
  | peekRead {s : QueueSystem T maxSize} {check write}
      (hc : s.consumer = .checking check none write) :
      Step s .peekRead { s with consumer := .checking check (some s.queue.readPosition) write }
  | peekWrite {s : QueueSystem T maxSize} {check read}
      (hc : s.consumer = .checking check read none) :
      Step s .peekWrite { s with consumer := .checking check read (some s.queue.writePosition) }
  | checkEmpty {s : QueueSystem T maxSize} {check read write}
      (hc : s.consumer = .checking check (some read) (some write)) :
      Step s .checkEmpty { s with
        consumer := check.outcome (isEmpty read write)
        ready := check.permits (isEmpty read write) s.ready }
  | loadFront {s : QueueSystem T maxSize} {getting} (hc : s.consumer = .fronting getting) :
      Step s .loadFront { s with
        consumer := if getting then .copying s.queue.readPosition else .idle
        held := some s.queue.readPosition }
  | copy {s : QueueSystem T maxSize} {slot} (hc : s.consumer = .copying slot)
      (hslot : slot < maxSize + 1) :
      Step s .copy { s with
        consumer := .checking (.pop (some s.queue.elements[slot])) none none }
  | loadPop {s : QueueSystem T maxSize} {val} (hc : s.consumer = .popping val) :
      Step s .loadPop { s with consumer := .advancing val s.queue.readPosition }
  | advance {s : QueueSystem T maxSize} {val slot} (hc : s.consumer = .advancing val slot)
      (hslot : slot < maxSize + 1) :
      Step s .advance { s with
        queue := { s.queue with readPosition := s.queue.nextSlot slot }
        consumer := .idle
        ready := false
        held := none
        popped := s.popped ++ [val.getD s.queue.elements[slot]] }

/-- The consumer may read the slot through the reference `front` returned. -/
def Reads (s : QueueSystem T maxSize) (slot : ℕ) : Prop :=
  s.held = some slot ∨ s.consumer = .copying slot

/-- The producer is about to write the slot. -/
def Writes (s : QueueSystem T maxSize) (slot : ℕ) : Prop :=
  ∃ elem, s.producer = .filling elem slot

/-- What holds in every state. -/
structure Sound (s : QueueSystem T maxSize) : Prop where
  /-- The values popped are the first values pushed. -/
  popped_initial : s.popped <+: s.pushed
  /-- The queue holds no more elements than it may. -/
  stored_le : s.pushed.length ≤ s.popped.length + s.queue.entryNum
  /-- No slot is read while it is written. -/
  apart : ∀ i j, s.Writes i → s.Reads j → i ≠ j
  /-- What the consumer reads is the oldest element. -/
  reads_oldest : ∀ slot, s.Reads slot → ∃ h : slot < maxSize + 1,
    s.pushed[s.popped.length]? = some s.queue.elements[slot]
  readPosition_le : s.queue.readPosition ≤ s.queue.entryNum
  writePosition_le : s.queue.writePosition ≤ s.queue.entryNum
  /-- Every slot that is written or removed exists. -/
  writes_le : ∀ slot, s.Writes slot → slot ≤ maxSize
  removes_le : ∀ val slot, s.consumer = .advancing val slot → slot ≤ maxSize
  /-- No assertion fails. -/
  not_failed : s.consumer ≠ .failed

end QueueSystem

end Toyos.Util
