import Toyos.Xhci.EventFlow

/-!
# Delivery of events over whole runs

Whatever the interleaving, the search for the enqueue pointer stays between the
dequeued and the produced events or on entries of the lap before, so the driver
takes the produced events in order and none twice.
-/

namespace Toyos.Xhci

open Toyos.Core

namespace TrbRing

variable {size : ℕ}

theorem Ahead.mono {d p p' left e : ℕ} {c : Bool} (h : Ahead size d p left e c) (hp : p ≤ p') :
    Ahead size d p' left e c :=
  ⟨h.dequeued_le, h.le_produced.trans hp, h.cycle_eq, h.left_ge⟩

theorem Behind.mono {d p p' left e : ℕ} {c : Bool} (h : Behind size d p left e c) (hp : p ≤ p') :
    Behind size d p' left e c :=
  ⟨h.lap_eq, h.cycle_eq, h.lap_le_produced.trans hp, h.left_ge⟩

namespace Delivery

variable {r : TrbRing size false} {produced : List Trb} {d e : ℕ}

/-- Dequeuing until the ring is empty takes the events up to the enqueue pointer. -/
theorem drain_eq (h : r.Delivery produced d) (henq : r.enqueuePtr = r.slotAddr (e % size))
    (hde : d ≤ e) (hep : e ≤ produced.length) :
    ∃ r' taken, loop drainRound .unfinishedDrain (size + 1) (r, []) = .ok (r', taken) ∧
      r'.Delivery produced e ∧ r'.enqueuePtr = r'.slotAddr (e % size) ∧
      produced.take d ++ taken = produced.take e := by
  have hroom := h.room
  obtain ⟨⟨r', taken⟩, hloop, hq⟩ :
      ∃ s, loop drainRound .unfinishedDrain (size + 1) (r, []) = .ok s ∧
        s.1.Delivery produced e ∧ s.1.enqueuePtr = s.1.slotAddr (e % size) ∧
        produced.take d ++ s.2 = produced.take e := by
    apply loop_rounds (fun m s => ∃ k, k ≤ e ∧ m = e - k ∧ s.1.Delivery produced k ∧
      s.1.enqueuePtr = s.1.slotAddr (e % size) ∧ produced.take d ++ s.2 = produced.take k) _ _
      ⟨d, hde, rfl, h, henq, List.append_nil _⟩ (by omega)
    rintro _ ⟨u, taken⟩ ⟨k, hke, rfl, hu, hptr, htake⟩
    have hiff := hu.empty_iff hptr hke hep
    by_cases hend : e = k
    · subst hend
      refine .inl ⟨(u, taken), ?_, hu, hptr, htake⟩
      simp [drainRound, hiff.mpr rfl]
    · have hempty : u.empty = false := Bool.eq_false_iff.mpr (mt hiff.mp hend)
      have hlt : k < produced.length := by omega
      have hitem := hu.stored k hlt (Nat.le_succ k)
      refine .inr ⟨(_, taken ++ [produced[k]]), e - (k + 1), ?_,
        ⟨k + 1, by omega, rfl, hu.afterDequeue hlt, hptr, ?_⟩, by omega⟩
      · simp only [drainRound, hempty, hu.dequeue_eq hempty, mapError_ok, ok_bind]
        exact congrArg (fun x => x.mapError EventFault.ring >>= _) hitem
      · rw [← List.append_assoc, htake, List.take_append_getElem]
  exact ⟨r', taken, hloop, hq⟩

/-- A round of `handle_events` takes the events its search finds. -/
theorem handleEvents_eq (h : r.Delivery produced d)
    (henq : r.enqueuePtr = r.slotAddr (e % size)) (hde : d ≤ e) (hep : e ≤ produced.length) :
    ∃ e' r' taken, r.handleEvents = .ok (r', taken) ∧ e' ≤ produced.length ∧
      r'.Delivery produced e' ∧ r'.enqueuePtr = r'.slotAddr (e' % size) ∧
      produced.take d ++ taken = produced.take e' ∧ (e = d → e' = produced.length) := by
  obtain ⟨e', hsearch, hde', hep', hall⟩ := h.updateEnqueuePtr_eq henq hde hep
  obtain ⟨r', taken, hdrain, hnext, henq', htake⟩ :=
    (h.withEnqueuePtr (r.slotAddr (e' % size))).drain_eq rfl hde' hep'
  refine ⟨e', r', taken, ?_, hep', hnext, henq', htake, hall⟩
  simp only [handleEvents, hsearch, mapError_ok, ok_bind, hdrain]

end Delivery

end TrbRing

namespace EventFlow

variable {size : ℕ} {s t : EventFlow size}

/-- Where the enqueue pointer is. -/
def Located (s : EventFlow size) : Prop :=
  match s.search with
  | none => ∃ e, s.ring.enqueuePtr = s.ring.slotAddr (e % size) ∧ s.dequeued.length ≤ e ∧
      e ≤ s.produced.length
  | some q => ∃ e left, s.ring.enqueuePtr = s.ring.slotAddr (e % size) ∧
      q.rounds + left ≤ 2 * size ∧
      (TrbRing.Ahead size s.dequeued.length s.produced.length left e q.cycle ∨
        TrbRing.Behind size s.dequeued.length s.produced.length left e q.cycle)

/-- The counters and the slots agree. -/
structure Inv (s : EventFlow size) : Prop where
  delivery : s.ring.Delivery s.produced s.dequeued.length
  position_eq : s.position = s.produced.length % size
  cycleState_eq : s.cycleState = lapCycle (s.produced.length / size)
  dequeued_eq : s.dequeued = s.produced.take s.dequeued.length
  held_eq : ∀ slot, s.held = some slot →
    ∃ d, s.dequeued.length = d + 1 ∧ slot = d % size
  located : s.Located

theorem located_of_none (hsearch : s.search = none) :
    s.Located ↔ ∃ e, s.ring.enqueuePtr = s.ring.slotAddr (e % size) ∧ s.dequeued.length ≤ e ∧
      e ≤ s.produced.length := by
  simp only [Located, hsearch]

theorem located_of_some {q : Search} (hsearch : s.search = some q) :
    s.Located ↔ ∃ e left, s.ring.enqueuePtr = s.ring.slotAddr (e % size) ∧
      q.rounds + left ≤ 2 * size ∧
      (TrbRing.Ahead size s.dequeued.length s.produced.length left e q.cycle ∨
        TrbRing.Behind size s.dequeued.length s.produced.length left e q.cycle) := by
  simp only [Located, hsearch]

/-- A round of a search in progress. -/
theorem Inv.round (h : s.Inv) {q : Search} (hsearch : s.search = some q) :
    q.rounds < 2 * size ∧
    ((∃ e, s.ring.scanRound (s.ring.enqueuePtr, q.cycle) =
        .ok (.inr (s.ring.slotAddr (e % size))) ∧ s.dequeued.length ≤ e ∧
        e ≤ s.produced.length) ∨
      ∃ e left c, s.ring.scanRound (s.ring.enqueuePtr, q.cycle) =
        .ok (.inl (s.ring.slotAddr (e % size), c)) ∧ q.rounds + 1 + left ≤ 2 * size ∧
        (TrbRing.Ahead size s.dequeued.length s.produced.length left e c ∨
          TrbRing.Behind size s.dequeued.length s.produced.length left e c)) := by
  have hd := h.delivery
  have hsize := hd.size_pos
  have hroom := hd.room
  obtain ⟨e, left, hptr, hleft, hahead | hbehind⟩ := (located_of_some hsearch).mp h.located
  · have hge := hahead.left_ge
    have hle := hahead.le_produced
    refine ⟨by omega, ?_⟩
    rw [hptr]
    rcases hahead.round hd.eventRing hsize hroom hd.unmarked with
      ⟨hround, -⟩ | ⟨c, hround, hpos, hnext⟩
    · exact .inl ⟨e, hround, hahead.dequeued_le, hle⟩
    · exact .inr ⟨e + 1, left - 1, c, hround, by omega, .inl hnext⟩
  · have hge := hbehind.left_ge
    have hlt : e < (s.dequeued.length / size + 1) * size + size := by
      rw [← hbehind.lap_eq]
      exact Nat.lt_div_mul_add hsize
    rw [show s.dequeued.length / size + 3 = s.dequeued.length / size + 1 + 2 by omega,
      Nat.add_mul _ 2] at hge
    refine ⟨by omega, ?_⟩
    rw [hptr]
    rcases hbehind.round hd.eventRing hsize hd.unmarked hroom with
      ⟨hround, hle, hlt'⟩ | ⟨e', c, hround, hpos, hnext⟩
    · exact .inl ⟨e, hround, hle, hlt'.le⟩
    · exact .inr ⟨e', left - 1, c, hround, by omega, hnext⟩

/-- A ring that is not empty has an event that was not dequeued. -/
theorem Inv.oldest (h : s.Inv) (hsearch : s.search = none) (hempty : s.ring.empty = false) :
    ∃ e, s.ring.enqueuePtr = s.ring.slotAddr (e % size) ∧ s.dequeued.length < e ∧
      e ≤ s.produced.length := by
  obtain ⟨e, hptr, hde, hep⟩ := (located_of_none hsearch).mp h.located
  have hne : e ≠ s.dequeued.length :=
    mt (h.delivery.empty_iff hptr hde hep).mpr (Bool.eq_false_iff.mp hempty)
  exact ⟨e, hptr, lt_of_le_of_ne hde hne.symm, hep⟩

/-- More events leave the enqueue pointer where it was found to be. -/
theorem Located.mono (h : s.Located) (hsearch : t.search = s.search)
    (hptr : t.ring.enqueuePtr = s.ring.enqueuePtr) (hslot : t.ring.slotAddr = s.ring.slotAddr)
    (hdequeued : t.dequeued = s.dequeued) (hmono : s.produced.length ≤ t.produced.length) :
    t.Located := by
  cases hq : s.search with
  | none =>
    rw [located_of_none (hsearch.trans hq), hptr, hslot, hdequeued]
    obtain ⟨e, he, hde, hep⟩ := (located_of_none hq).mp h
    exact ⟨e, he, hde, hep.trans hmono⟩
  | some q =>
    rw [located_of_some (hsearch.trans hq), hptr, hslot, hdequeued]
    obtain ⟨e, left, he, hleft, hmode⟩ := (located_of_some hq).mp h
    exact ⟨e, left, he, hleft, hmode.imp (·.mono hmono) (·.mono hmono)⟩

/-- The controller stores an event into the slot behind the last one. -/
theorem Inv.produce (h : s.Inv) {u : Trb} {r : TrbRing size false}
    (htype : u.type ≠ Trb.linkType) (hcycle : u.cycle = s.cycleState)
    (hroom : s.produced.length - s.dequeued.length < size - 1)
    (hstore : s.ring.modifyItem s.position (fun _ => u) = .ok r) :
    Inv { s with
      ring := r
      position := if s.position + 1 = size then 0 else s.position + 1
      cycleState := if s.position + 1 = size then !s.cycleState else s.cycleState
      produced := s.produced ++ [u] } := by
  have hd := h.delivery
  have hsize := hd.size_pos
  have hle := hd.dequeued_le
  have hslot : s.produced.length % size < size := Nat.mod_lt _ hsize
  have hwrap := mod_add_one_eq_iff (k := s.produced.length) hsize
  rw [h.cycleState_eq] at hcycle
  rw [h.position_eq, TrbRing.modifyItem_of_lt hslot] at hstore
  obtain rfl := Except.ok.inj hstore
  refine ⟨hd.afterProduce (by omega) hcycle htype hslot, ?_, ?_, ?_, h.held_eq, ?_⟩
  · simp only [h.position_eq, List.length_append, List.length_singleton]
    split
    · exact (hwrap.mp ‹_›).symm
    · exact restPos_of_ne (k := s.produced.length + 1) hsize ‹_›
  · simp only [h.position_eq, h.cycleState_eq, hwrap, List.length_append, List.length_singleton]
    exact lapCycle_succ_div.symm
  · simp only [List.take_append_of_le_length hle]
    exact h.dequeued_eq
  · have hmono : s.produced.length ≤ (s.produced ++ [u]).length := by simp
    exact h.located.mono rfl rfl rfl rfl hmono

/-- The driver takes the oldest event. -/
theorem Inv.dequeue (h : s.Inv) {slot : ℕ} {r : TrbRing size false} {u : Trb}
    (hsearch : s.search = none) (hempty : s.ring.empty = false)
    (hcall : s.ring.dequeue = .ok (slot, r)) (hitem : r.item slot = .ok u) :
    Inv { s with ring := r, held := some slot, dequeued := s.dequeued ++ [u] } := by
  have hd := h.delivery
  obtain ⟨e, hptr, hlt, hep⟩ := h.oldest hsearch hempty
  have hstored := hd.stored _ (hlt.trans_le hep) (Nat.le_succ _)
  cases ok_unique hcall (hd.dequeue_eq hempty)
  cases ok_unique hitem hstored
  have hlength : (s.dequeued ++ [s.produced[s.dequeued.length]]).length =
      s.dequeued.length + 1 := by simp
  refine ⟨?_, h.position_eq, h.cycleState_eq, ?_, ?_, ?_⟩
  · simp only [hlength]
    exact hd.afterDequeue (hlt.trans_le hep)
  · simp only [hlength]
    rw [← List.take_append_getElem (hlt.trans_le hep), ← h.dequeued_eq]
  · rintro _ ⟨⟩
    exact ⟨_, hlength, rfl⟩
  · refine (located_of_none (by exact hsearch)).mpr ⟨e, hptr, ?_, hep⟩
    simp only [hlength]
    exact hlt

/-- Every step keeps the invariant. -/
theorem Inv.step (h : s.Inv) {e : FlowStep} (hstep : Step s e t) : t.Inv := by
  have hd := h.delivery
  cases hstep with
  | produce htype hcycle hroom hstore => exact h.produce htype hcycle hroom hstore
  | search hsearch =>
    obtain ⟨e, hptr, hde, hep⟩ := (located_of_none hsearch).mp h.located
    have hmode := TrbRing.ahead_or_behind hd.size_pos hde hep hd.room
    rw [← hd.cycle_eq] at hmode
    exact { h with
      located := (located_of_some rfl).mpr ⟨e, 2 * size, hptr, (Nat.zero_add _).le, hmode⟩ }
  | @pass q ptr c hsearch hround =>
    obtain ⟨-, ⟨e, hleave, -⟩ | ⟨e, left, c', hpass, hleft, hmode⟩⟩ := h.round hsearch
    · cases ok_unique hround hleave
    · cases ok_unique hround hpass
      exact { h with
        delivery := hd.withEnqueuePtr _
        located := (located_of_some rfl).mpr ⟨e, left, rfl, hleft, hmode⟩ }
  | @stop q ptr hsearch hround =>
    obtain ⟨-, ⟨e, hleave, hde, hep⟩ | ⟨e, left, c', hpass, -⟩⟩ := h.round hsearch
    · cases ok_unique hround hleave
      exact { h with
        delivery := hd.withEnqueuePtr _
        located := (located_of_none rfl).mpr ⟨e, rfl, hde, hep⟩ }
    · cases ok_unique hround hpass
  | dequeue hsearch hempty hcall hitem => exact h.dequeue hsearch hempty hcall hitem

/-- A new ring satisfies the invariant. -/
theorem start_inv {buffer : Vector Trb size} {base dmaAddr : ℕ} {r : TrbRing size false}
    (hsize : 2 ≤ size) (hfits : base + Trb.size * size < 2 ^ 64)
    (hnew : TrbRing.new buffer base dmaAddr = .ok r) : Inv (start r) := by
  obtain rfl := Except.ok.inj hnew
  exact {
    delivery := {
      eventRing := by
        refine ⟨hfits, fun i hi => ?_⟩
        simp only [start, Vector.getElem_replicate]
        decide
      dequeuePtr_eq := by simp [start, TrbRing.slotAddr]
      cycle_eq := by simp [start]
      dequeued_le := le_rfl
      room := by
        simp only [start, List.length_nil]
        omega
      unmarked := by
        intro i _ hhi
        simp only [start, List.length_nil, Nat.zero_add] at hhi
        rw [Nat.mod_eq_of_lt hhi, Nat.div_eq_of_lt hhi, cycleAt_of_lt hhi]
        simp only [start, Vector.getElem_replicate]
        decide
      stored := by simp [start] }
    position_eq := by simp [start]
    cycleState_eq := by simp [start]
    dequeued_eq := rfl
    held_eq := by simp [start]
    located := (located_of_none rfl).mpr ⟨0, by simp [start, TrbRing.slotAddr], le_rfl, le_rfl⟩ }

/-- The invariant says what holds in every state. -/
theorem Inv.sound (h : s.Inv) : s.Sound where
  dequeued_initial := by
    rw [h.dequeued_eq]
    exact List.take_prefix _ _
  held_intact := by
    intro slot hslot
    obtain ⟨d, hd, rfl⟩ := h.held_eq slot hslot
    have hlt : d < s.produced.length := by
      have := h.delivery.dequeued_le
      omega
    refine ⟨s.produced[d], ?_, h.delivery.stored d hlt hd.le⟩
    rw [h.dequeued_eq, hd, ← List.take_append_getElem hlt, List.getLast?_concat]
  search_ends := by
    intro q hq
    obtain ⟨hrounds, ⟨e, hleave, -⟩ | ⟨e, left, c, hpass, -⟩⟩ := h.round hq
    · exact ⟨hrounds, .inr ⟨_, .stop hq hleave⟩⟩
    · exact ⟨hrounds, .inl ⟨_, .pass hq hpass⟩⟩
  search_terminates := by
    intro hsearch
    obtain ⟨e, hptr, hde, hep⟩ := (located_of_none hsearch).mp h.located
    obtain ⟨e', hcall, -⟩ := h.delivery.updateEnqueuePtr_eq hptr hde hep
    exact ⟨_, hcall⟩
  can_dequeue := by
    intro hsearch hempty
    obtain ⟨e, -, hlt, hep⟩ := h.oldest hsearch hempty
    have hitem := h.delivery.stored _ (hlt.trans_le hep) (Nat.le_succ _)
    exact ⟨_, .dequeue hsearch hempty (h.delivery.dequeue_eq hempty) hitem⟩
  delivers := by
    intro hsearch
    obtain ⟨e, hptr, hde, hep⟩ := (located_of_none hsearch).mp h.located
    obtain ⟨e₁, r₁, first, hfirst, hle₁, hnext, hptr₁, htake₁, hall₁⟩ :=
      h.delivery.handleEvents_eq hptr hde hep
    obtain ⟨e₂, r₂, second, hsecond, -, -, -, htake₂, hall₂⟩ :=
      hnext.handleEvents_eq hptr₁ le_rfl hle₁
    rw [← h.dequeued_eq] at htake₁
    refine ⟨r₁, r₂, first, second, hfirst, hsecond, ?_, ?_⟩
    · rw [htake₁, htake₂, hall₂ rfl, List.take_length]
    · intro hempty
      rw [htake₁, hall₁ ((h.delivery.empty_iff hptr hde hep).mp hempty), List.take_length]

/-- The driver takes the produced events in order, each search for the enqueue pointer ends, and
once the controller pauses, two rounds of `handle_events` deliver every event. -/
theorem events_delivered {buffer : Vector Trb size} {base dmaAddr : ℕ} {r : TrbRing size false}
    {es : List FlowStep} (hsize : 2 ≤ size) (hfits : base + Trb.size * size < 2 ^ 64)
    (hnew : TrbRing.new buffer base dmaAddr = .ok r) (hrun : Run Step (start r) es s) :
    s.Sound := by
  have hinv : s.Inv :=
    hrun.invariant Inv (start_inv hsize hfits hnew) fun _ _ _ h hstep => h.step hstep
  exact hinv.sound

/-- A transfer event by its cycle bit. -/
def transferEvent (parameter : ℕ) (cycle : Bool) : Trb :=
  ⟨parameter, 0, if cycle then 32769 else 32768⟩

/-- A ring of three items at address 4096. -/
def smallEventRing : TrbRing 3 false :=
  ⟨Vector.replicate 3 Trb.zero, 4096, 4096, 4096, 4096, true⟩

/-- Two events of which the second arrives during the search, and two more around the end of the
ring. -/
def twoLaps : List FlowStep :=
  [.produce (transferEvent 1 true), .search, .produce (transferEvent 2 true), .pass, .pass, .stop,
    .dequeue, .dequeue, .produce (transferEvent 3 true), .produce (transferEvent 4 false), .search,
    .pass, .pass, .stop, .dequeue, .dequeue]

/-- All four events are delivered in order. -/
theorem events_delivered_twoLaps :
    ∃ s, Run Step (start smallEventRing) twoLaps s ∧ s.dequeued = s.produced ∧
      s.dequeued = [transferEvent 1 true, transferEvent 2 true, transferEvent 3 true,
        transferEvent 4 false] ∧ s.Sound := by
  have hnew : TrbRing.new (Vector.replicate 3 Trb.zero) 4096 0 = .ok smallEventRing := by
    decide +kernel
  have hfirst := Run.nil.snoc (Step.produce (s := start smallEventRing) (t := transferEvent 1 true)
    (by decide +kernel) (by decide +kernel) (by decide) rfl)
  have hsecond := (hfirst.snoc (.search rfl)).snoc (.produce (t := transferEvent 2 true)
    (by decide +kernel) (by decide +kernel) (by decide) rfl)
  have hfound := ((hsecond.snoc (.pass rfl rfl)).snoc (.pass rfl rfl)).snoc (.stop rfl rfl)
  have htaken := (hfound.snoc (.dequeue rfl (by decide +kernel) rfl rfl)).snoc
    (.dequeue rfl (by decide +kernel) rfl rfl)
  have hthird := htaken.snoc (.produce (t := transferEvent 3 true) (by decide +kernel)
    (by decide +kernel) (by decide) rfl)
  have hfourth := hthird.snoc (.produce (t := transferEvent 4 false) (by decide +kernel)
    (by decide +kernel) (by decide) rfl)
  have hagain := ((hfourth.snoc (.search rfl)).snoc (.pass rfl rfl)).snoc (.pass rfl rfl)
  have hrun := ((hagain.snoc (.stop rfl rfl)).snoc (.dequeue rfl (by decide +kernel) rfl rfl)).snoc
    (.dequeue rfl (by decide +kernel) rfl rfl)
  exact ⟨_, hrun, rfl, rfl, events_delivered (by decide) (by decide) hnew hrun⟩

end EventFlow

end Toyos.Xhci
