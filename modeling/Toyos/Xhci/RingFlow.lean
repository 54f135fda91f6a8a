import Toyos.Core.Run
import Toyos.Xhci.LinkRing

/-!
# Flow control of a transfer ring

The producer enqueues while the ring is not full, fills the items it was given
and reports them as completed in the order it received them. The items between
the two form the window of outstanding items. Looking ahead from the Link item
stops at the first item instead of the second, so one enqueue too many passes
when the pointer rests on the Link item and the dequeue pointer on the second
item; all other runs keep the window apart from the item handed out next.
-/

namespace Toyos.Xhci

open Toyos.Core

/-- A transfer ring with the items its producer holds, oldest first. -/
structure Flow (size : ℕ) where
  ring : TrbRing size true
  outstanding : List ℕ
  deriving DecidableEq, Repr

/-- A call of the producer. -/
inductive FlowEvent
  /-- An enqueue returned an item; the pointers are those before the call. -/
  | enqueue (slot enqueuePtr dequeuePtr : ℕ)
  /-- The producer filled an outstanding item. -/
  | fill (slot : ℕ) (t : Trb)
  /-- The oldest outstanding item completed. -/
  | complete (slot : ℕ)
  deriving DecidableEq, Repr

/-- An enqueue from the Link item while the dequeue pointer rests on the second item. -/
def FlowEvent.Overruns (base size : ℕ) : FlowEvent → Prop
  | .enqueue _ enqueuePtr dequeuePtr =>
    enqueuePtr = base + Trb.size * (size - 1) ∧ dequeuePtr = base + Trb.size
  | .fill _ _ => False
  | .complete _ => False

namespace Flow

variable {size : ℕ}

/-- The steps of a producer that respects the fullness check. -/
inductive Step : Flow size → FlowEvent → Flow size → Prop
  | enqueue {s : Flow size} {slot r} (hroom : s.ring.full = .ok false)
      (hcall : s.ring.enqueue = .ok (slot, r)) :
      Step s (.enqueue slot s.ring.enqueuePtr s.ring.dequeuePtr) ⟨r, s.outstanding ++ [slot]⟩
  | fill {s : Flow size} {slot t r} (hheld : slot ∈ s.outstanding)
      (htype : t.type ≠ Trb.linkType) (hcall : s.ring.modifyItem slot (fun _ => t) = .ok r) :
      Step s (.fill slot t) ⟨r, s.outstanding⟩
  | complete {r outstanding slot r'}
      (hcall : r.updateDequeuePtr (wrap (r.dmaAddr + Trb.size * slot)) = .ok r') :
      Step ⟨r, slot :: outstanding⟩ (.complete slot) ⟨r', outstanding⟩

/-- Emptiness is exact, and an enqueue that passes the fullness check returns an item that is
not outstanding. -/
structure Sound (s : Flow size) : Prop where
  empty_iff : s.ring.empty = true ↔ s.outstanding = []
  enqueue_fresh : s.ring.full = .ok false →
    ∃ slot r, s.ring.enqueue = .ok (slot, r) ∧ slot ∉ s.outstanding

variable {n base first count : ℕ} {s t : Flow (n + 1)} {e : FlowEvent}

/-- The state after `first + count` enqueues and `first` completions. -/
structure Counts (base : ℕ) (s : Flow (n + 1)) (first count : ℕ) : Prop where
  linkRing : s.ring.LinkRing
  base_eq : s.ring.base = base
  enqueuePtr_eq : s.ring.enqueuePtr = s.ring.slotAddr (restPos n (first + count))
  dequeuePtr_eq : s.ring.dequeuePtr = s.ring.slotAddr (restPos n first)
  outstanding_eq : s.outstanding = window n first count

namespace Counts

/-- The fullness check looks ahead of the enqueue counter. -/
theorem full_eq (h : Counts base s first count) (hn : 0 < n) :
    s.ring.full = .ok (lookAhead n (restPos n (first + count)) == restPos n first) :=
  h.linkRing.full_eq (restPos_le hn) h.enqueuePtr_eq h.dequeuePtr_eq

/-- An enqueue passes the check exactly when the position ahead is not the dequeue position. -/
theorem full_eq_false_iff (h : Counts base s first count) (hn : 0 < n) :
    s.ring.full = .ok false ↔ lookAhead n (restPos n (first + count)) ≠ restPos n first := by
  rw [h.full_eq hn, Except.ok.injEq, beq_eq_false_iff_ne]

theorem empty_iff (h : Counts base s first count) :
    s.ring.empty = true ↔ restPos n (first + count) = restPos n first := by
  rw [TrbRing.empty, beq_iff_eq, h.enqueuePtr_eq, h.dequeuePtr_eq, TrbRing.slotAddr_inj]

/-- An enqueue overruns exactly when its counters do. -/
theorem overruns_iff (h : Counts base s first count) (slot : ℕ) :
    (FlowEvent.enqueue slot s.ring.enqueuePtr s.ring.dequeuePtr).Overruns base (n + 1) ↔
      restPos n (first + count) = n ∧ restPos n first = 1 := by
  rw [FlowEvent.Overruns, h.enqueuePtr_eq, h.dequeuePtr_eq, TrbRing.slotAddr, TrbRing.slotAddr,
    h.base_eq]
  unfold Trb.size
  omega

/-- An enqueue returns the item after the window and takes it into the window. -/
theorem enqueue_ok (h : Counts base s first count) (hn : 0 < n) (hroom : s.ring.full = .ok false) :
    ∃ r, s.ring.enqueue = .ok ((first + count) % n, r) ∧
      Counts base ⟨r, s.outstanding ++ [(first + count) % n]⟩ first (count + 1) := by
  obtain ⟨ring, hitems, hcall⟩ := h.linkRing.enqueue_ok hn h.enqueuePtr_eq hroom
  refine ⟨_, hcall, ⟨h.linkRing.fits, hitems⟩, h.base_eq, rfl, h.dequeuePtr_eq, ?_⟩
  rw [window_concat, h.outstanding_eq]

/-- The same, read off a call that was made. -/
theorem enqueue_next (h : Counts base s first count) (hn : 0 < n)
    (hroom : s.ring.full = .ok false) {slot : ℕ} {r : TrbRing (n + 1) true}
    (hcall : s.ring.enqueue = .ok (slot, r)) :
    Counts base ⟨r, s.outstanding ++ [slot]⟩ first (count + 1) := by
  obtain ⟨r', hcall', hnext⟩ := h.enqueue_ok hn hroom
  obtain ⟨rfl, rfl⟩ := Prod.mk.inj (ok_unique hcall' hcall)
  exact hnext

/-- Filling an outstanding item changes neither the pointers nor the window. -/
theorem fill_ok (h : Counts base s first count) (hn : 0 < n) {slot : ℕ} {u : Trb}
    {r : TrbRing (n + 1) true} (hheld : slot ∈ s.outstanding) (htype : u.type ≠ Trb.linkType)
    (hcall : s.ring.modifyItem slot (fun _ => u) = .ok r) :
    Counts base ⟨r, s.outstanding⟩ first count := by
  have hslot : slot < n := lt_of_mem_window hn (h.outstanding_eq ▸ hheld)
  rw [TrbRing.modifyItem_of_lt (Nat.lt_succ_of_lt hslot), Except.ok.injEq] at hcall
  subst hcall
  refine ⟨⟨h.linkRing.fits, h.linkRing.items.set (Nat.lt_succ_of_lt hslot) ?_ ?_⟩, h.base_eq,
    h.enqueuePtr_eq, h.dequeuePtr_eq, h.outstanding_eq⟩
  · exact iff_of_false htype hslot.ne
  · exact fun heq => absurd heq hslot.ne

/-- Completing the oldest item gives it back. -/
theorem complete_ok {r r' : TrbRing (n + 1) true} {outstanding : List ℕ} {slot : ℕ}
    (h : Counts base ⟨r, slot :: outstanding⟩ first count) (hn : 0 < n)
    (hcall : r.updateDequeuePtr (wrap (r.dmaAddr + Trb.size * slot)) = .ok r') :
    ∃ rest, count = rest + 1 ∧ Counts base ⟨r', outstanding⟩ (first + 1) rest := by
  cases count with
  | zero => simpa using h.outstanding_eq
  | succ rest =>
    have hwindow := h.outstanding_eq
    rw [window_cons, List.cons.injEq] at hwindow
    obtain ⟨rfl, rfl⟩ := hwindow
    rw [h.linkRing.updateDequeuePtr_eq (Nat.mod_lt first hn), Except.ok.injEq] at hcall
    subst hcall
    have henq := h.enqueuePtr_eq
    rw [show first + (rest + 1) = first + 1 + rest by omega] at henq
    exact ⟨rest, rfl, ⟨h.linkRing.fits, h.linkRing.items⟩, h.base_eq, henq, rfl, rfl⟩

end Counts

/-- The window has not lapped. -/
def Inv (base : ℕ) (s : Flow (n + 1)) : Prop :=
  ∃ first count, Counts base s first count ∧ Unlapped n first count

/-- Without a lap, emptiness is exact and the next item is free. -/
theorem Inv.sound (hn : 0 < n) (h : s.Inv base) : s.Sound := by
  obtain ⟨first, count, hcounts, hlap⟩ := h
  constructor
  · rw [hcounts.empty_iff, hlap.restPos_eq_iff, hcounts.outstanding_eq, window_eq_nil_iff]
  · intro hroom
    obtain ⟨r, hcall, -⟩ := hcounts.enqueue_ok hn hroom
    have hlt := hlap.lt_of_room hn ((hcounts.full_eq_false_iff hn).mp hroom)
    refine ⟨_, r, hcall, ?_⟩
    rw [hcounts.outstanding_eq, next_mem_window_iff hn]
    omega

/-- Every step that does not overrun keeps the window from lapping. -/
theorem Inv.step (hn : 0 < n) (h : s.Inv base) (hstep : Step s e t)
    (hgood : ¬e.Overruns base (n + 1)) : t.Inv base := by
  obtain ⟨first, count, hcounts, hlap⟩ := h
  cases hstep with
  | enqueue hroom hcall =>
    rw [hcounts.overruns_iff] at hgood
    exact ⟨first, count + 1, hcounts.enqueue_next hn hroom hcall,
      hlap.succ hn ((hcounts.full_eq_false_iff hn).mp hroom) hgood⟩
  | fill hheld htype hcall => exact ⟨first, count, hcounts.fill_ok hn hheld htype hcall, hlap⟩
  | complete hcall =>
    obtain ⟨rest, rfl, hnext⟩ := hcounts.complete_ok hn hcall
    exact ⟨first + 1, rest, hnext, hlap.tail⟩

/-- An enqueue that overruns leaves a ring that looks empty with items outstanding. -/
theorem Inv.overrun (hn : 0 < n) (h : s.Inv base) (hstep : Step s e t)
    (hbad : e.Overruns base (n + 1)) : ¬t.Sound := by
  obtain ⟨first, count, hcounts, hlap⟩ := h
  cases hstep with
  | enqueue hroom hcall =>
    have hnext := hcounts.enqueue_next hn hroom hcall
    rw [hcounts.overruns_iff] at hbad
    intro hsound
    have hnil := hsound.empty_iff.mp (hnext.empty_iff.mpr (hlap.lapped hbad))
    exact List.append_ne_nil_of_right_ne_nil _ (List.cons_ne_nil _ _) hnil
  | fill => exact hbad.elim
  | complete => exact hbad.elim

/-- A new ring has nothing outstanding. -/
theorem new_inv {buffer : Vector Trb (n + 1)} {dmaAddr : ℕ} {r : TrbRing (n + 1) true}
    (hn : 0 < n) (hfits : base + Trb.size * (n + 1) ≤ 2 ^ 64)
    (hnew : TrbRing.new buffer base dmaAddr = .ok r) : Inv base ⟨r, []⟩ := by
  obtain ⟨hring, hbase, henq, hdeq⟩ := TrbRing.new_ok hfits hnew
  exact ⟨0, 0, ⟨hring, hbase, henq, hdeq, rfl⟩, .inl hn⟩

/-- Emptiness is exact and no enqueue returns an outstanding item throughout exactly those runs
in which no enqueue is made from the Link item with the dequeue pointer on the second item. -/
theorem flow_control_iff {buffer : Vector Trb size} {dmaAddr : ℕ} {r : TrbRing size true}
    {es : List FlowEvent} {t : Flow size} (hsize : 3 ≤ size)
    (hfits : base + Trb.size * size ≤ 2 ^ 64) (hnew : TrbRing.new buffer base dmaAddr = .ok r)
    (hrun : Run Step ⟨r, []⟩ es t) :
    Run.Always Step ⟨r, []⟩ es t Sound ↔ ∀ e ∈ es, ¬e.Overruns base size := by
  obtain ⟨n, rfl⟩ : ∃ n, size = n + 1 := ⟨size - 1, by omega⟩
  have hn : 0 < n := by omega
  exact Run.always_iff (Inv base) Sound (FlowEvent.Overruns base (n + 1))
    (new_inv hn hfits hnew) (fun _ h => h.sound hn) (fun _ _ _ h => h.step hn)
    (fun _ _ _ h => h.overrun hn) hrun

/-- A ring of two items and the Link item at address 4096, by the cycle bits of its items, its
pointers and its cycle state. -/
def smallRing (first second link : Bool) (enqueuePtr dequeuePtr : ℕ) (cycle : Bool) :
    TrbRing 3 true :=
  ⟨#v[Trb.zero.setCycle first, Trb.zero.setCycle second,
    (TrbRing.prepareLink 4096 Trb.zero).setCycle link], 4096, 4096, enqueuePtr, dequeuePtr, cycle⟩

/-- The small ring before any call. -/
def smallStart : Flow 3 := ⟨smallRing false false false 4096 4096 true, []⟩

theorem new_small : TrbRing.new (Vector.replicate 3 Trb.zero) 4096 0 = .ok smallStart.ring := by
  decide +kernel

/-- The first enqueue of the small ring. -/
theorem smallRing_run : Run Step smallStart [.enqueue 0 4096 4096]
    ⟨smallRing false false false 4112 4096 true, [0]⟩ := by
  have hcall : smallStart.ring.enqueue =
      .ok (0, smallRing false false false 4112 4096 true) := by decide +kernel
  exact Run.nil.snoc (.enqueue (by decide +kernel) hcall)

/-- A lap over the small ring that completes each item before the next enqueue. -/
def smallLap : List FlowEvent :=
  [.enqueue 0 4096 4096, .complete 0, .enqueue 1 4112 4112, .complete 1, .enqueue 0 4128 4128]

/-- Such a lap passes the Link item without an overrun. -/
theorem flow_control_iff_small :
    Run Step smallStart smallLap ⟨smallRing true false true 4112 4128 false, [0]⟩ ∧
    Run.Always Step smallStart smallLap ⟨smallRing true false true 4112 4128 false, [0]⟩
      Sound := by
  have hfirst : (smallRing false false false 4112 4096 true).updateDequeuePtr 4096 =
      .ok (smallRing false false false 4112 4112 true) := by decide +kernel
  have hsecond : (smallRing false false false 4112 4112 true).enqueue =
      .ok (1, smallRing false false false 4128 4112 true) := by decide +kernel
  have hdone : (smallRing false false false 4128 4112 true).updateDequeuePtr 4112 =
      .ok (smallRing false false false 4128 4128 true) := by decide +kernel
  have hwrap : (smallRing false false false 4128 4128 true).enqueue =
      .ok (0, smallRing true false true 4112 4128 false) := by decide +kernel
  have hrun := (((smallRing_run.snoc (.complete hfirst)).snoc
    (.enqueue (by decide +kernel) hsecond)).snoc (.complete hdone)).snoc
    (.enqueue (by decide +kernel) hwrap)
  refine ⟨hrun, (flow_control_iff (by decide) (by decide) new_small hrun).mpr ?_⟩
  simp [FlowEvent.Overruns, smallRing, Trb.size]

/-- A state some run of a transfer ring reaches. -/
def Reachable (t : Flow size) : Prop :=
  ∃ buffer base dmaAddr r es, base + Trb.size * size ≤ 2 ^ 64 ∧
    TrbRing.new buffer base dmaAddr = .ok r ∧ Run Step ⟨r, []⟩ es t

/-- With the first item completed and the second outstanding, the enqueue from the Link item
passes the fullness check. The ring then looks empty with both items outstanding, and the next
enqueue returns the second one again. -/
theorem outstanding_item_reused :
    (¬∀ size ≥ 3, ∀ t : Flow size, t.Reachable → (t.ring.empty = true ↔ t.outstanding = [])) ∧
    ¬∀ size ≥ 3, ∀ t : Flow size, t.Reachable → ∀ slot r, t.ring.full = .ok false →
      t.ring.enqueue = .ok (slot, r) → slot ∉ t.outstanding := by
  have hsecond : (smallRing false false false 4112 4096 true).enqueue =
      .ok (1, smallRing false false false 4128 4096 true) := by decide +kernel
  have hfirst : (smallRing false false false 4128 4096 true).updateDequeuePtr 4096 =
      .ok (smallRing false false false 4128 4112 true) := by decide +kernel
  have hover : (smallRing false false false 4128 4112 true).enqueue =
      .ok (0, smallRing true false true 4112 4112 false) := by decide +kernel
  have hreuse : (smallRing true false true 4112 4112 false).enqueue =
      .ok (1, smallRing true true true 4128 4112 false) := by decide +kernel
  have hrun := ((smallRing_run.snoc (.enqueue (by decide +kernel) hsecond)).snoc
    (.complete hfirst)).snoc (.enqueue (by decide +kernel) hover)
  have hreach : Reachable ⟨smallRing true false true 4112 4112 false, [1, 0]⟩ :=
    ⟨_, _, _, _, _, by decide, new_small, hrun⟩
  constructor
  · intro h
    exact absurd ((h 3 (le_refl 3) _ hreach).mp (by decide +kernel)) (by decide)
  · intro h
    exact h 3 (le_refl 3) _ hreach 1 _ (by decide +kernel) hreuse (by decide)

end Flow

end Toyos.Xhci
