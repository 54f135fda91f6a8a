import Toyos.Core.Run
import Toyos.Xhci.EventRing

/-!
# Delivery of events

A controller that produces events and a driver that takes them. The driver
searches for the enqueue pointer one item at a time, and the controller may
produce events between any two rounds of the search.
-/

namespace Toyos.Xhci

open Toyos.Core

/-- What may stop the driver. -/
inductive EventFault
  /-- A check of the ring. -/
  | ring (fault : RingFault)
  /-- Dequeuing does not empty the ring. -/
  | unfinishedDrain
  deriving DecidableEq, Repr

namespace TrbRing

variable {size : ℕ}

/-- One round of the loop of `handle_events`; the events taken so far are listed. -/
def drainRound (s : TrbRing size false × List Trb) :
    Except EventFault ((TrbRing size false × List Trb) ⊕ (TrbRing size false × List Trb)) := do
  if s.1.empty then
    return .inr s
  let (slot, r) ← s.1.dequeue.mapError .ring
  let t ← (r.item slot).mapError .ring
  return .inl (r, s.2 ++ [t])

/-- The event loop of `handle_events`: search for the enqueue pointer, then dequeue until the
ring is empty. A loop that outlasts the items never meets the enqueue pointer. -/
def handleEvents (r : TrbRing size false) :
    Except EventFault (TrbRing size false × List Trb) := do
  let r ← r.updateEnqueuePtr.mapError .ring
  loop drainRound .unfinishedDrain (size + 1) (r, [])

end TrbRing

/-- A call of `update_enqueue_ptr` in progress. -/
structure Search where
  /-- The local cycle state. -/
  cycle : Bool
  /-- The items it has passed. -/
  rounds : ℕ
  deriving DecidableEq, Repr

/-- Controller, shared ring and driver. -/
structure EventFlow (size : ℕ) where
  ring : TrbRing size false
  /-- The search the driver is in. -/
  search : Option Search
  /-- The item `dequeue` returned last. -/
  held : Option ℕ
  /-- The item the controller fills next. -/
  position : ℕ
  /-- The cycle state of the controller. -/
  cycleState : Bool
  /-- The events the controller produced. -/
  produced : List Trb
  /-- The events the driver dequeued. -/
  dequeued : List Trb
  deriving DecidableEq, Repr

/-- A step of the controller or of the driver. -/
inductive FlowStep
  /-- The controller writes an event. -/
  | produce (t : Trb)
  /-- The driver calls `update_enqueue_ptr`. -/
  | search
  /-- The search passes an item. -/
  | pass
  /-- The search ends. -/
  | stop
  /-- The driver dequeues an event. -/
  | dequeue
  deriving DecidableEq, Repr

namespace EventFlow

variable {size : ℕ}

/-- A new ring and a controller at the first item with cycle state one. -/
def start (r : TrbRing size false) : EventFlow size := ⟨r, none, none, 0, true, [], []⟩

/-- One event of the controller, one round of the search or one call of the driver. -/
inductive Step : EventFlow size → FlowStep → EventFlow size → Prop
  | produce {s : EventFlow size} {t r} (htype : t.type ≠ Trb.linkType)
      (hcycle : t.cycle = s.cycleState)
      (hroom : s.produced.length - s.dequeued.length < size - 1)
      (hstore : s.ring.modifyItem s.position (fun _ => t) = .ok r) :
      Step s (.produce t) { s with
        ring := r
        position := if s.position + 1 = size then 0 else s.position + 1
        cycleState := if s.position + 1 = size then !s.cycleState else s.cycleState
        produced := s.produced ++ [t] }
  | search {s : EventFlow size} (hsearch : s.search = none) :
      Step s .search { s with search := some ⟨s.ring.cycle, 0⟩ }
  | pass {s : EventFlow size} {q ptr c} (hsearch : s.search = some q)
      (hround : s.ring.scanRound (s.ring.enqueuePtr, q.cycle) = .ok (.inl (ptr, c))) :
      Step s .pass { s with
        ring := { s.ring with enqueuePtr := ptr }
        search := some ⟨c, q.rounds + 1⟩ }
  | stop {s : EventFlow size} {q ptr} (hsearch : s.search = some q)
      (hround : s.ring.scanRound (s.ring.enqueuePtr, q.cycle) = .ok (.inr ptr)) :
      Step s .stop { s with ring := { s.ring with enqueuePtr := ptr }, search := none }
  | dequeue {s : EventFlow size} {slot r t} (hsearch : s.search = none)
      (hempty : s.ring.empty = false) (hcall : s.ring.dequeue = .ok (slot, r))
      (hitem : r.item slot = .ok t) :
      Step s .dequeue { s with ring := r, held := some slot, dequeued := s.dequeued ++ [t] }

/-- Without the controller the steps of a search are a call of `update_enqueue_ptr`. -/
theorem run_updateEnqueuePtr {s : EventFlow size} {r : TrbRing size false}
    (hsearch : s.search = none) (hcall : s.ring.updateEnqueuePtr = .ok r) :
    ∃ k, Run Step s (.search :: (List.replicate k .pass ++ [.stop])) { s with ring := r } := by
  obtain ⟨ptr, hloop, hr⟩ := bind_eq_ok.mp hcall
  obtain rfl := Except.ok.inj hr
  have hrounds : ∀ n start c rounds,
      loop s.ring.scanRound .unfinishedScan n (start, c) = .ok ptr →
      ∃ k, Run Step
        { s with ring := { s.ring with enqueuePtr := start }, search := some ⟨c, rounds⟩ }
        (List.replicate k .pass ++ [.stop])
        { s with ring := { s.ring with enqueuePtr := ptr } } := by
    intro n
    induction n with
    | zero =>
      intro start c rounds h
      cases h
    | succ n ih =>
      intro start c rounds h
      obtain ⟨next, hround, hrest⟩ := bind_eq_ok.mp h
      cases next with
      | inl next =>
        obtain ⟨k, hrun⟩ := ih next.1 next.2 (rounds + 1) hrest
        exact ⟨k + 1, hrun.cons (.pass rfl hround)⟩
      | inr last =>
        obtain rfl := Except.ok.inj hrest
        have hstop := Step.stop (s := { s with
          ring := { s.ring with enqueuePtr := start }, search := some ⟨c, rounds⟩ }) rfl hround
        refine ⟨0, Run.nil.snoc ?_⟩
        simpa only [hsearch] using hstop
  obtain ⟨k, hrun⟩ := hrounds _ _ _ 0 hloop
  exact ⟨k, hrun.cons (.search hsearch)⟩

/-- What holds in every state. -/
structure Sound (s : EventFlow size) : Prop where
  /-- The driver took the first events, in order. -/
  dequeued_initial : s.dequeued <+: s.produced
  /-- The item dequeued last is intact. -/
  held_intact : ∀ slot, s.held = some slot →
    ∃ t, s.dequeued.getLast? = some t ∧ s.ring.item slot = .ok t
  /-- A search can go on, and it ends in time whatever the controller does. -/
  search_ends : ∀ q, s.search = some q → q.rounds < 2 * size ∧
    ((∃ t, Step s .pass t) ∨ ∃ t, Step s .stop t)
  /-- A search that is not interrupted ends. -/
  search_terminates : s.search = none → ∃ r, s.ring.updateEnqueuePtr = .ok r
  /-- A ring that is not empty has an event to dequeue. -/
  can_dequeue : s.search = none → s.ring.empty = false → ∃ t, Step s .dequeue t
  /-- Without the controller, two rounds of `handle_events` deliver everything, and one does
  from an empty ring. -/
  delivers : s.search = none → ∃ r₁ r₂ first second, s.ring.handleEvents = .ok (r₁, first) ∧
    r₁.handleEvents = .ok (r₂, second) ∧ s.dequeued ++ first ++ second = s.produced ∧
    (s.ring.empty = true → s.dequeued ++ first = s.produced)

end EventFlow

end Toyos.Xhci
