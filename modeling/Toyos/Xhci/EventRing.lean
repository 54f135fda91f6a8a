import Toyos.Xhci.LinkRing

/-!
# Event rings

An event ring has no Link item: a pointer that passes the last item returns to
the first one and toggles the cycle state. Events are numbered in the order they
are produced; event `i` lies in slot `i % size` and carries the parity of lap
`i / size`. The search for the enqueue pointer starts with the cycle state of the
dequeue pointer. It either walks over produced events, or starts one lap ahead
and walks over entries of the lap before until it returns to the first slot.
-/

namespace Toyos.Xhci.TrbRing

open Toyos.Core

variable {size : ℕ}

/-- An event ring inside the address space. -/
structure EventRing (r : TrbRing size false) : Prop where
  /-- The buffer ends inside the address space. -/
  fits : r.base + Trb.size * size < 2 ^ 64
  /-- No item is a Link item. -/
  type_ne_link : ∀ i (_ : i < size), r.ring[i].type ≠ Trb.linkType

namespace EventRing

variable {r : TrbRing size false} {k : ℕ}

/-- Advancing a pointer toggles the cycle state when it returns to the first item. -/
theorem increment_eq (h : r.EventRing) (hsize : 0 < size) (c : Bool) :
    r.increment (r.slotAddr (k % size)) c =
      .ok (r.slotAddr (k % size), r.slotAddr ((k + 1) % size),
        if (k + 1) % size = 0 then !c else c) := by
  have hlt : k % size < size := Nat.mod_lt k hsize
  have hfits := h.fits
  have hnext : r.slotAddr (k % size) + Trb.size = r.slotAddr (k % size + 1) := by
    rw [slotAddr, slotAddr, Nat.mul_succ, Nat.add_assoc]
  have hbound : r.slotAddr (k % size + 1) < 2 ^ 64 := by
    unfold slotAddr Trb.size at *
    omega
  have hindex : r.index (r.slotAddr (k % size + 1)) = k % size + 1 := by
    rw [index, wsub_of_le hbound (Nat.le_add_right _ _), slotAddr, Nat.add_sub_cancel_left,
      Nat.mul_div_cancel_left _ (by decide)]
  simp only [increment, index_slotAddr hfits.le hlt, item_of_lt hlt, ok_bind,
    h.type_ne_link _ hlt, if_false, false_and, hnext, wrap_of_lt hbound, hindex, pure_eq_ok]
  by_cases hend : k % size + 1 = size
  · have hzero : (k + 1) % size = 0 := mod_of_restPos_eq (k := k + 1) hsize hend
    simp [hend, hzero, slotAddr]
  · have hmod : (k + 1) % size = k % size + 1 := (restPos_of_ne (k := k + 1) hsize hend).symm
    simp [hend, hmod]

/-- Advancing a pointer with the parity of its lap keeps the parity of its lap. -/
theorem increment_lapCycle (h : r.EventRing) (hsize : 0 < size) :
    r.increment (r.slotAddr (k % size)) (lapCycle (k / size)) =
      .ok (r.slotAddr (k % size), r.slotAddr ((k + 1) % size), lapCycle ((k + 1) / size)) := by
  rw [h.increment_eq hsize, lapCycle_succ_div]

/-- A round of the search by the cycle bit of the item. -/
theorem scanRound_eq (h : r.EventRing) (hsize : 0 < size) (c : Bool) :
    r.scanRound (r.slotAddr (k % size), c) =
      .ok (if cycleAt r.ring (k % size) = c
        then .inl (r.slotAddr ((k + 1) % size), if (k + 1) % size = 0 then !c else c)
        else .inr (r.slotAddr (k % size))) := by
  have hlt : k % size < size := Nat.mod_lt k hsize
  simp only [scanRound, index_slotAddr h.fits.le hlt, item_of_lt hlt, ok_bind,
    h.increment_eq hsize, cycleAt_of_lt hlt, pure_eq_ok]
  split
  · rfl
  · rfl

end EventRing

/-- A search at event `e` with the parity of its lap, which ends in fewer than `left` rounds;
`d` events were dequeued and `p` produced. -/
structure Ahead (size d p left e : ℕ) (c : Bool) : Prop where
  dequeued_le : d ≤ e
  le_produced : e ≤ p
  cycle_eq : c = lapCycle (e / size)
  left_ge : d + size ≤ e + left

/-- A search at slot `e % size` with the parity of the lap before that of `e`. -/
structure Behind (size d p left e : ℕ) (c : Bool) : Prop where
  lap_eq : e / size = d / size + 1
  cycle_eq : c = lapCycle (d / size)
  lap_le_produced : (d / size + 1) * size ≤ p
  left_ge : (d / size + 3) * size ≤ e + left

section

variable {r : TrbRing size false} {d p left e : ℕ} {c : Bool}

/-- A search starts in one of the two ways. -/
theorem ahead_or_behind (hsize : 0 < size) (hde : d ≤ e) (hep : e ≤ p) (hroom : p < d + size) :
    Ahead size d p (2 * size) e (lapCycle (d / size)) ∨
      Behind size d p (2 * size) e (lapCycle (d / size)) := by
  have hlow : d / size ≤ e / size := Nat.div_le_div_right hde
  have hhigh : e / size ≤ d / size + 1 := by
    rw [← Nat.add_div_right d hsize]
    exact Nat.div_le_div_right (by omega)
  rcases hlow.eq_or_lt with hlap | hlap
  · exact .inl ⟨hde, hep, by rw [hlap], by omega⟩
  · have hlap : e / size = d / size + 1 := by omega
    have hstart : (d / size + 1) * size ≤ e := by
      rw [← hlap]
      exact Nat.div_mul_le_self e size
    refine .inr ⟨hlap, rfl, hstart.trans hep, ?_⟩
    rw [show d / size + 3 = d / size + 1 + 2 by omega, Nat.add_mul _ 2]
    omega

/-- A search over produced events ends at the first event not produced yet. -/
theorem Ahead.round (h : Ahead size d p left e c) (hring : r.EventRing) (hsize : 0 < size)
    (hroom : p < d + size) (hbits : Unmarked size (cycleAt r.ring) p (p + size)) :
    (r.scanRound (r.slotAddr (e % size), c) = .ok (.inr (r.slotAddr (e % size))) ∧ e = p) ∨
      ∃ c', r.scanRound (r.slotAddr (e % size), c) =
          .ok (.inl (r.slotAddr ((e + 1) % size), c')) ∧
        0 < left ∧ Ahead size d p (left - 1) (e + 1) c' := by
  obtain ⟨hde, hep, rfl, hleft⟩ := h
  rw [hring.scanRound_eq hsize]
  rcases hep.eq_or_lt with rfl | hlt
  · have hbit := hbits e le_rfl (by omega)
    exact .inl ⟨by simp [hbit], rfl⟩
  · have hbit := hbits.marked_of_lt hsize hlt (by omega)
    refine .inr ⟨lapCycle ((e + 1) / size), ?_, by omega, by omega, hlt, rfl, by omega⟩
    rw [if_pos hbit, ← lapCycle_succ_div]

/-- A search one lap ahead ends at a produced event, or it passes an entry of the lap before. -/
theorem Behind.round (h : Behind size d p left e c) (hring : r.EventRing) (hsize : 0 < size)
    (hbits : Unmarked size (cycleAt r.ring) p (p + size)) (hroom : p < d + size) :
    (r.scanRound (r.slotAddr (e % size), c) = .ok (.inr (r.slotAddr (e % size))) ∧
        d ≤ e ∧ e < p) ∨
      ∃ e' c', r.scanRound (r.slotAddr (e % size), c) =
          .ok (.inl (r.slotAddr (e' % size), c')) ∧ 0 < left ∧
        (Ahead size d p (left - 1) e' c' ∨ Behind size d p (left - 1) e' c') := by
  obtain ⟨hlap, rfl, hstart, hleft⟩ := h
  have hde : d < e := by
    by_contra hge
    have := Nat.div_le_div_right (c := size) (Nat.le_of_not_lt hge)
    omega
  have hend : e < (d / size + 1) * size + size := by
    rw [← hlap]
    exact Nat.lt_div_mul_add hsize
  rw [hring.scanRound_eq hsize]
  rcases Nat.lt_or_ge e p with hlt | hge
  · have hbit := hbits.marked_of_lt hsize hlt (by omega)
    rw [hlap, lapCycle_succ] at hbit
    exact .inl ⟨by simp [hbit], hde.le, hlt⟩
  · have hbit := hbits e hge (by omega)
    rw [hlap, lapCycle_succ, Bool.not_not] at hbit
    rw [if_pos hbit]
    rw [show d / size + 3 = d / size + 1 + 2 by omega, Nat.add_mul _ 2] at hleft
    by_cases hwrap : (e + 1) % size = 0
    · have hmod : (d / size + 1) * size % size = 0 := Nat.mul_mod_left _ _
      have hdiv : (d / size + 1) * size / size = d / size + 1 := Nat.mul_div_cancel _ hsize
      have hnext : d < (d / size + 1) * size := by
        rw [Nat.succ_mul]
        exact Nat.lt_div_mul_add hsize
      refine .inr ⟨(d / size + 1) * size, !lapCycle (d / size), ?_, by omega, .inl ?_⟩
      · rw [if_pos hwrap, hwrap, hmod]
      · exact ⟨hnext.le, hstart, by rw [hdiv, lapCycle_succ], by omega⟩
    · have hdiv : (e + 1) / size = d / size + 1 := by
        rw [Nat.succ_div_of_not_dvd (mt Nat.mod_eq_zero_of_dvd hwrap), hlap]
      refine .inr ⟨e + 1, lapCycle (d / size), ?_, by omega, .inr ?_⟩
      · rw [if_neg hwrap]
      · refine ⟨hdiv, rfl, hstart, ?_⟩
        rw [show d / size + 3 = d / size + 1 + 2 by omega, Nat.add_mul _ 2]
        omega

end

/-- The ring after `produced` was produced and its first `d` events were dequeued. The event
dequeued last still lies in its slot. -/
structure Delivery (r : TrbRing size false) (produced : List Trb) (d : ℕ) : Prop where
  eventRing : r.EventRing
  dequeuePtr_eq : r.dequeuePtr = r.slotAddr (d % size)
  cycle_eq : r.cycle = lapCycle (d / size)
  dequeued_le : d ≤ produced.length
  room : produced.length < d + size
  unmarked : Unmarked size (cycleAt r.ring) produced.length (produced.length + size)
  stored : ∀ i (_ : i < produced.length), d ≤ i + 1 → r.item (i % size) = .ok produced[i]

namespace Delivery

variable {r : TrbRing size false} {produced : List Trb} {d e : ℕ}

theorem size_pos (h : r.Delivery produced d) : 0 < size := by
  have := h.room
  have := h.dequeued_le
  omega

/-- The enqueue pointer plays no role. -/
theorem withEnqueuePtr (h : r.Delivery produced d) (ptr : ℕ) :
    Delivery { r with enqueuePtr := ptr } produced d :=
  ⟨⟨h.eventRing.fits, h.eventRing.type_ne_link⟩, h.dequeuePtr_eq, h.cycle_eq, h.dequeued_le,
    h.room, h.unmarked, h.stored⟩

/-- The ring is empty exactly when every event up to the enqueue pointer was dequeued. -/
theorem empty_iff (h : r.Delivery produced d) (henq : r.enqueuePtr = r.slotAddr (e % size))
    (hde : d ≤ e) (hep : e ≤ produced.length) : r.empty = true ↔ e = d := by
  have hroom := h.room
  rw [empty, beq_iff_eq, henq, h.dequeuePtr_eq, slotAddr_inj, mod_eq_mod_iff hde (by omega)]

/-- The search for the enqueue pointer ends between the dequeued and the produced events. From
an empty ring it finds every produced event. -/
theorem updateEnqueuePtr_eq (h : r.Delivery produced d)
    (henq : r.enqueuePtr = r.slotAddr (e % size)) (hde : d ≤ e) (hep : e ≤ produced.length) :
    ∃ e', r.updateEnqueuePtr = .ok { r with enqueuePtr := r.slotAddr (e' % size) } ∧
      d ≤ e' ∧ e' ≤ produced.length ∧ (e = d → e' = produced.length) := by
  have hsize := h.size_pos
  have hroom := h.room
  obtain ⟨ptr, hloop, e', rfl, hde', hep', hall⟩ :
      ∃ ptr, loop r.scanRound .unfinishedScan (2 * size + 1) (r.enqueuePtr, r.cycle) = .ok ptr ∧
        ∃ e', ptr = r.slotAddr (e' % size) ∧ d ≤ e' ∧ e' ≤ produced.length ∧
          (e = d → e' = produced.length) := by
    apply loop_rounds (fun m s => ∃ k, s.1 = r.slotAddr (k % size) ∧
      (Ahead size d produced.length m k s.2 ∨
        e ≠ d ∧ Behind size d produced.length m k s.2)) _ _ _ (Nat.lt_succ_self _)
    · rintro m ⟨_, c⟩ ⟨k, rfl, hahead | ⟨hne, hbehind⟩⟩
      · rcases hahead.round h.eventRing hsize hroom h.unmarked with
          ⟨hround, rfl⟩ | ⟨c', hround, hpos, hnext⟩
        · exact .inl ⟨_, hround, _, rfl, hahead.dequeued_le, le_rfl, fun _ => rfl⟩
        · exact .inr ⟨_, m - 1, hround, ⟨k + 1, rfl, .inl hnext⟩, by omega⟩
      · rcases hbehind.round h.eventRing hsize h.unmarked hroom with
          ⟨hround, hle, hlt⟩ | ⟨k', c', hround, hpos, hnext⟩
        · exact .inl ⟨_, hround, k, rfl, hle, hlt.le, fun heq => absurd heq hne⟩
        · refine .inr ⟨_, m - 1, hround, ⟨k', rfl, ?_⟩, by omega⟩
          exact hnext.imp id fun hb => ⟨hne, hb⟩
    · refine ⟨e, henq, ?_⟩
      rw [h.cycle_eq]
      rcases ahead_or_behind hsize hde hep hroom with hahead | hbehind
      · exact .inl hahead
      · refine .inr ⟨?_, hbehind⟩
        rintro rfl
        have := hbehind.lap_eq
        omega
  exact ⟨e', by simp [updateEnqueuePtr, hloop], hde', hep', hall⟩

/-- Dequeuing hands out the oldest event. -/
theorem dequeue_eq (h : r.Delivery produced d) (hempty : r.empty = false) :
    r.dequeue = .ok (d % size, { r with
      dequeuePtr := r.slotAddr ((d + 1) % size)
      cycle := lapCycle ((d + 1) / size) }) := by
  have hlt : d % size < size := Nat.mod_lt d h.size_pos
  simp only [dequeue, ensure_of _ hempty, ok_bind, h.dequeuePtr_eq, h.cycle_eq,
    h.eventRing.increment_lapCycle h.size_pos, index_slotAddr h.eventRing.fits.le hlt,
    item_of_lt hlt, pure_eq_ok]

/-- Dequeuing delivers one event. -/
theorem afterDequeue (h : r.Delivery produced d) (hlt : d < produced.length) :
    Delivery { r with
      dequeuePtr := r.slotAddr ((d + 1) % size)
      cycle := lapCycle ((d + 1) / size) } produced (d + 1) where
  eventRing := ⟨h.eventRing.fits, h.eventRing.type_ne_link⟩
  dequeuePtr_eq := rfl
  cycle_eq := rfl
  dequeued_le := hlt
  room := by
    have := h.room
    omega
  unmarked := h.unmarked
  stored := fun i hi hle => h.stored i hi (by omega)

/-- Producing fills the slot of the next event. -/
theorem afterProduce (h : r.Delivery produced d) (hroom : produced.length + 1 < d + size) {t : Trb}
    (hcycle : t.cycle = lapCycle (produced.length / size)) (htype : t.type ≠ Trb.linkType)
    (hslot : produced.length % size < size) :
    Delivery { r with ring := r.ring.set (produced.length % size) t } (produced ++ [t]) d where
  eventRing := by
    refine ⟨h.eventRing.fits, fun i hi => ?_⟩
    simp only [Vector.getElem_set]
    split
    · exact htype
    · exact h.eventRing.type_ne_link i hi
  dequeuePtr_eq := h.dequeuePtr_eq
  cycle_eq := h.cycle_eq
  dequeued_le := by
    rw [List.length_append]
    exact h.dequeued_le.trans (Nat.le_add_right _ _)
  room := by
    rw [List.length_append]
    exact hroom
  unmarked := by
    rw [List.length_append, List.length_singleton]
    refine h.unmarked.mark h.size_pos ?_ fun j hj => cycleAt_set_of_ne hslot t hj
    rw [cycleAt_set_self hslot, hcycle]
  stored := by
    intro i hi hle
    have hlt : i % size < size := Nat.mod_lt i h.size_pos
    rw [List.length_append, List.length_singleton] at hi
    rcases Nat.lt_succ_iff_lt_or_eq.mp hi with hold | rfl
    · have hne : produced.length % size ≠ i % size := mod_ne_of_lt hold (by omega)
      have hitem := h.stored i hold hle
      rw [item_of_lt hlt] at hitem ⊢
      rw [List.getElem_append_left hold]
      simpa only [Vector.getElem_set_ne _ _ hne] using hitem
    · rw [item_of_lt hlt]
      simp

end Delivery

end Toyos.Xhci.TrbRing
