import Toyos.Core.Run
import Toyos.Xhci.LinkRing

/-!
# Transfers over a shared ring

Driver and controller share the items of a transfer ring. The calls of the driver
reach the items as single stores: setting a cycle bit clears it first and raises
it afterwards, and the enqueue that passes the Link item commits that item after
it marked the free one. The controller may look at the ring between any two
stores.
-/

namespace Toyos.Xhci

open Toyos.Core

namespace TrbRing

variable {size : ℕ} {hasLink : Bool}

/-- `enqueue` up to its first store: the index of the free item, whether the cycle state
changed, and the ring with the cycle bit of that item cleared. -/
def enqueueStart (r : TrbRing size hasLink) :
    Except RingFault (ℕ × Bool × TrbRing size hasLink) := do
  let isFull ← r.full
  ensure (isFull = false) .full
  let (old, ptr, cycle) ← r.increment r.enqueuePtr r.cycle
  let moved := { r with enqueuePtr := ptr, cycle := cycle }
  let cleared ← moved.modifyItem (r.index old) Trb.clearCycle
  return (r.index old, r.cycle != cycle, cleared)

/-- The stores of `enqueue` after the first one. -/
def enqueueRest (slot : ℕ) (wrapped : Bool) (r : TrbRing size hasLink) :
    Except RingFault (ℕ × TrbRing size hasLink) := do
  let marked ← r.modifyItem slot (·.raiseCycle (!r.cycle))
  if wrapped ∧ hasLink then
    let link ← marked.item (size - 1)
    let cleared ← marked.modifyItem (size - 1) Trb.clearCycle
    let linked ← cleared.modifyItem (size - 1) (·.raiseCycle (!link.cycle))
    return (slot, linked)
  return (slot, marked)

theorem modifyItem_bind (r : TrbRing size hasLink) (i : ℕ) (f g : Trb → Trb) :
    (r.modifyItem i f >>= fun r' => r'.modifyItem i g) = r.modifyItem i (fun t => g (f t)) := by
  by_cases h : i < size
  · rw [modifyItem_of_lt h, ok_bind, modifyItem_of_lt h, modifyItem_of_lt h]
    simp
  · simp [modifyItem, h]

/-- Two stores commit the Link item. -/
theorem commit_eq_stores (r : TrbRing size hasLink) (i : ℕ) :
    (do
      let t ← r.item i
      let cleared ← r.modifyItem i Trb.clearCycle
      cleared.modifyItem i (·.raiseCycle (!t.cycle))) = r.modifyItem i Trb.commit := by
  by_cases h : i < size
  · rw [item_of_lt h, ok_bind, modifyItem_bind, modifyItem_of_lt h, modifyItem_of_lt h]
    rfl
  · simp [item, modifyItem, h]

/-- After the free item is cleared, marking it and committing the Link item finish the call. -/
theorem enqueueRest_eq {r cleared : TrbRing size hasLink} {slot : ℕ} (wrapped : Bool)
    (h : r.modifyItem slot Trb.clearCycle = .ok cleared) :
    enqueueRest slot wrapped cleared = (do
      let marked ← r.modifyItem slot (·.setCycle (!r.cycle))
      if wrapped ∧ hasLink then
        let linked ← marked.modifyItem (size - 1) Trb.commit
        return (slot, linked)
      return (slot, marked)) := by
  have hcycle : cleared.cycle = r.cycle := by
    unfold modifyItem at h
    split at h
    · rw [← Except.ok.inj h]
    · simp at h
  have hmark : cleared.modifyItem slot (·.raiseCycle (!cleared.cycle)) =
      r.modifyItem slot (·.setCycle (!r.cycle)) := by
    have hbind := modifyItem_bind r slot Trb.clearCycle (·.raiseCycle (!r.cycle))
    rw [h, ok_bind] at hbind
    rw [hcycle, hbind]
    rfl
  rw [enqueueRest, hmark]
  congr 1
  funext marked
  split
  · rw [← commit_eq_stores marked (size - 1)]
    simp only [bind_assoc]
  · rfl

/-- Without an interruption the single stores make up `enqueue`. -/
theorem enqueue_eq_stores (r : TrbRing size hasLink) :
    r.enqueue = (do
      let (slot, wrapped, cleared) ← r.enqueueStart
      enqueueRest slot wrapped cleared) := by
  simp only [enqueue, enqueueStart, bind_assoc]
  congr 1
  funext isFull
  congr 1
  funext _
  congr 1
  funext advanced
  obtain ⟨old, ptr, cycle⟩ := advanced
  generalize hmoved : ({ r with enqueuePtr := ptr, cycle := cycle } : TrbRing size hasLink) = moved
  have hcycle : moved.cycle = cycle := by rw [← hmoved]
  cases hcall : moved.modifyItem (r.index old) Trb.clearCycle with
  | error e =>
    have hbad : ¬r.index old < size := by
      intro hlt
      rw [modifyItem_of_lt hlt] at hcall
      simp at hcall
    rw [modifyItem, dif_neg hbad] at hcall
    simp only [modifyItem, dif_neg hbad, error_bind]
    rw [Except.error.inj hcall]
  | ok cleared =>
    simp only [ok_bind, pure_eq_ok]
    rw [enqueueRest_eq _ hcall, hcycle]
    simp

/-- The `k`-th enqueue takes item `k % n` and passes the Link item from behind the last slot. -/
theorem LinkRing.enqueueStart_eq {n k : ℕ} {r : TrbRing (n + 1) true} (h : r.LinkRing)
    (hn : 0 < n) (henq : r.enqueuePtr = r.slotAddr (restPos n k)) (hfull : r.full = .ok false)
    (hslot : k % n < n + 1) :
    r.enqueueStart = .ok (k % n, decide (restPos n k = n), { r with
      ring := r.ring.set (k % n) r.ring[k % n].clearCycle
      enqueuePtr := r.slotAddr (restPos n (k + 1))
      cycle := if restPos n k = n then !r.cycle else r.cycle }) := by
  simp only [enqueueStart, hfull, ok_bind, ensure_of, henq, h.increment_eq hn,
    index_slotAddr h.fits hslot, modifyItem_of_lt hslot]
  by_cases hend : restPos n k = n
  · simp [hend]
  · simp [hend]

end TrbRing

/-- How far the driver has come. -/
inductive Phase
  /-- Between two transfers. -/
  | idle
  /-- Inside `enqueue`, with the cycle bit of the free item cleared. -/
  | marking (slot : ℕ) (wrapped : Bool)
  /-- Inside `enqueue`, before the Link item is committed. -/
  | linking (slot : ℕ)
  /-- Inside `enqueue`, with the cycle bit of the Link item cleared. -/
  | linkCleared (slot : ℕ) (set : Bool)
  /-- Between `enqueue` and `commit`. -/
  | filling (slot : ℕ)
  /-- Inside `commit`, with the cycle bit of the item cleared. -/
  | committing (slot : ℕ) (set : Bool)
  deriving DecidableEq, Repr

/-- The item the driver took and has not begun to commit. -/
def Phase.pending : Phase → Option ℕ
  | .idle => none
  | .marking slot _ => some slot
  | .linking slot => some slot
  | .linkCleared slot _ => some slot
  | .filling slot => some slot
  | .committing _ _ => none

/-- Driver, shared ring and controller. -/
structure Transfer (size : ℕ) where
  ring : TrbRing size true
  phase : Phase
  /-- The item the controller looks at. -/
  position : ℕ
  /-- The cycle state of the controller. -/
  cycleState : Bool
  /-- Completed items the driver has not been told about. -/
  events : List ℕ
  /-- Items in the order of their `commit` calls. -/
  committed : List Trb
  /-- Items in the order the controller took them. -/
  consumed : List Trb
  deriving DecidableEq, Repr

/-- A step of the driver or of the controller. -/
inductive TransferEvent
  /-- `enqueue` up to its first store. -/
  | enqueue
  /-- The second store to the free item. -/
  | mark
  /-- The first store to the Link item. -/
  | clearLink
  /-- The second store to the Link item. -/
  | raiseLink
  /-- A store that fills the item. -/
  | fill (t : Trb)
  /-- `commit` up to its first store. -/
  | commit
  /-- The second store of `commit`. -/
  | raise
  /-- `update_dequeue_ptr` with the address of a completed item. -/
  | report
  /-- The controller takes an item; the phase is that of the driver. -/
  | consume (slot : ℕ) (phase : Phase)
  /-- The controller follows the Link item. -/
  | follow
  deriving DecidableEq, Repr

/-- The controller takes an item the driver has not begun to commit. -/
def TransferEvent.Premature : TransferEvent → Prop
  | .consume slot phase => phase.pending = some slot
  | _ => False

/-- The controller takes an item between the two stores that mark the free item. -/
def TransferEvent.WhileMarking : TransferEvent → Prop
  | .consume _ (.marking _ _) => True
  | _ => False

namespace Transfer

variable {size : ℕ}

/-- A new ring, an idle driver and a controller at the first item with cycle state one. -/
def start (r : TrbRing size true) : Transfer size := ⟨r, .idle, 0, true, [], [], []⟩

/-- One store of the driver, one call that does not reach the items, or one item of the
controller. -/
inductive Step : Transfer size → TransferEvent → Transfer size → Prop
  | enqueue {s : Transfer size} {slot wrapped r} (hphase : s.phase = .idle)
      (hempty : s.ring.empty = true) (hcall : s.ring.enqueueStart = .ok (slot, wrapped, r)) :
      Step s .enqueue { s with ring := r, phase := .marking slot wrapped }
  | mark {s : Transfer size} {slot wrapped r} (hphase : s.phase = .marking slot wrapped)
      (hcall : s.ring.modifyItem slot (·.raiseCycle (!s.ring.cycle)) = .ok r) :
      Step s .mark { s with
        ring := r
        phase := if wrapped then .linking slot else .filling slot }
  | clearLink {s : Transfer size} {slot link r} (hphase : s.phase = .linking slot)
      (hitem : s.ring.item (size - 1) = .ok link)
      (hcall : s.ring.modifyItem (size - 1) Trb.clearCycle = .ok r) :
      Step s .clearLink { s with ring := r, phase := .linkCleared slot (!link.cycle) }
  | raiseLink {s : Transfer size} {slot set r} (hphase : s.phase = .linkCleared slot set)
      (hcall : s.ring.modifyItem (size - 1) (·.raiseCycle set) = .ok r) :
      Step s .raiseLink { s with ring := r, phase := .filling slot }
  | fill {s : Transfer size} {slot old t r} (hphase : s.phase = .filling slot)
      (hitem : s.ring.item slot = .ok old) (hcycle : t.cycle = old.cycle)
      (htype : t.type ≠ Trb.linkType) (hcall : s.ring.modifyItem slot (fun _ => t) = .ok r) :
      Step s (.fill t) { s with ring := r }
  | commit {s : Transfer size} {slot t r} (hphase : s.phase = .filling slot)
      (hitem : s.ring.item slot = .ok t) (hcall : s.ring.modifyItem slot Trb.clearCycle = .ok r) :
      Step s .commit { s with
        ring := r
        phase := .committing slot (!t.cycle)
        committed := s.committed ++ [t.commit] }
  | raise {s : Transfer size} {slot set r} (hphase : s.phase = .committing slot set)
      (hcall : s.ring.modifyItem slot (·.raiseCycle set) = .ok r) :
      Step s .raise { s with ring := r, phase := .idle }
  | report {s : Transfer size} {slot rest r} (hevents : s.events = slot :: rest)
      (hcall : s.ring.updateDequeuePtr (wrap (s.ring.dmaAddr + Trb.size * slot)) = .ok r) :
      Step s .report { s with ring := r, events := rest }
  | consume {s : Transfer size} {t} (hitem : s.ring.item s.position = .ok t)
      (hcycle : t.cycle = s.cycleState) (htype : t.type ≠ Trb.linkType) :
      Step s (.consume s.position s.phase) { s with
        position := s.position + 1
        events := s.events ++ [s.position]
        consumed := s.consumed ++ [t] }
  | follow {s : Transfer size} {t} (hitem : s.ring.item s.position = .ok t)
      (hcycle : t.cycle = s.cycleState) (htype : t.type = Trb.linkType) :
      Step s .follow { s with position := 0, cycleState := !s.cycleState }

/-- The controller took a prefix of the committed items; outside of `commit`, a controller with
nothing to take has taken all of them. -/
structure InOrder (s : Transfer size) : Prop where
  consumed_initial : s.consumed <+: s.committed
  caught_up : (∀ slot set, s.phase ≠ .committing slot set) →
    (∀ t, s.ring.item s.position = .ok t → t.cycle ≠ s.cycleState) → s.consumed = s.committed

end Transfer

end Toyos.Xhci
