import Toyos.Core.Cyclic
import Toyos.Xhci.Ring

/-!
# Transfer rings

The last item of a transfer ring is a Link item and no other item is one. Both
pointers then rest on items of the ring: after `k` advances a pointer rests at
position `restPos n k` of the `n` items before the Link item, and the item handed
out next is `k % n`.
-/

namespace Toyos.Xhci

open Toyos.Core

/-- The cycle bit of an item. -/
def cycleAt {m : ℕ} (ring : Vector Trb m) (j : ℕ) : Bool :=
  if h : j < m then ring[j].cycle else false

theorem cycleAt_of_lt {m j : ℕ} {ring : Vector Trb m} (h : j < m) :
    cycleAt ring j = ring[j].cycle := dif_pos h

theorem cycleAt_set_self {m i : ℕ} {ring : Vector Trb m} (hi : i < m) (t : Trb) :
    cycleAt (ring.set i t) i = t.cycle := by
  rw [cycleAt_of_lt hi, Vector.getElem_set_self]

theorem cycleAt_set_of_ne {m i j : ℕ} {ring : Vector Trb m} (hi : i < m) (t : Trb)
    (hne : j ≠ i) : cycleAt (ring.set i t) j = cycleAt ring j := by
  unfold cycleAt
  split
  · rw [Vector.getElem_set_ne _ _ hne.symm]
  · rfl

namespace TrbRing

section

variable {size : ℕ} {hasLink : Bool} {r : TrbRing size hasLink} {i k : ℕ}

/-- Linear address of an item. -/
def slotAddr (r : TrbRing size hasLink) (k : ℕ) : ℕ := r.base + Trb.size * k

theorem item_of_lt (h : i < size) : r.item i = .ok r.ring[i] := dif_pos h

theorem modifyItem_of_lt (h : i < size) (f : Trb → Trb) :
    r.modifyItem i f = .ok { r with ring := r.ring.set i (f r.ring[i]) } := dif_pos h

theorem slotAddr_inj {j : ℕ} : r.slotAddr i = r.slotAddr j ↔ i = j := by
  unfold slotAddr Trb.size
  omega

theorem index_slotAddr (hfits : r.base + Trb.size * size ≤ 2 ^ 64) (hk : k < size) :
    r.index (r.slotAddr k) = k := by
  have hlt : r.slotAddr k < 2 ^ 64 := by
    unfold slotAddr Trb.size at *
    omega
  rw [index, wsub_of_le hlt (Nat.le_add_right _ _), slotAddr, Nat.add_sub_cancel_left,
    Nat.mul_div_cancel_left k (by decide)]

theorem wrap_slotAddr_add (hfits : r.base + Trb.size * size ≤ 2 ^ 64) (hk : k + 1 < size) :
    wrap (r.slotAddr k + Trb.size) = r.slotAddr (k + 1) := by
  unfold slotAddr Trb.size at *
  rw [wrap_of_lt (by omega)]
  omega

/-- The address of an item as the controller reports it translates to the linear one. -/
theorem wrap_base_add (hfits : r.base + Trb.size * size ≤ 2 ^ 64) (hk : k < size) :
    wrap (r.base + wsub (wrap (r.dmaAddr + Trb.size * k)) r.dmaAddr) = r.slotAddr k := by
  unfold slotAddr Trb.size wrap wsub at *
  omega

end

variable {n : ℕ}

/-- Items that end in their only Link item. -/
structure LinkItems (ring : Vector Trb (n + 1)) : Prop where
  /-- Exactly the last item is a Link item. -/
  type_eq_link_iff : ∀ i (_ : i < n + 1), ring[i].type = Trb.linkType ↔ i = n
  /-- Passing it toggles the cycle state. -/
  link_toggle : ring[n].toggle = true

namespace LinkItems

variable {ring : Vector Trb (n + 1)} {i : ℕ}

/-- Replacing an item by one of the same kind keeps the Link item the only one. -/
theorem set (h : LinkItems ring) (hi : i < n + 1) {t : Trb}
    (htype : t.type = Trb.linkType ↔ i = n) (htoggle : i = n → t.toggle = true) :
    LinkItems (ring.set i t) where
  type_eq_link_iff := by
    intro j hj
    rw [Vector.getElem_set]
    split
    · rw [htype, ‹i = j›]
    · exact h.type_eq_link_iff j hj
  link_toggle := by
    rw [Vector.getElem_set]
    split
    · exact htoggle ‹i = n›
    · exact h.link_toggle

/-- Changing neither type nor toggle bit of an item keeps the Link item the only one. -/
theorem set_same (h : LinkItems ring) (hi : i < n + 1) {t : Trb} (htype : t.type = ring[i].type)
    (htoggle : t.toggle = ring[i].toggle) : LinkItems (ring.set i t) := by
  refine h.set hi ?_ ?_
  · rw [htype, h.type_eq_link_iff i hi]
  · rintro rfl
    rw [htoggle, h.link_toggle]

/-- Changing the cycle bit of an item keeps the Link item the only one. -/
theorem set_setCycle (h : LinkItems ring) (hi : i < n + 1) (c : Bool) :
    LinkItems (ring.set i (ring[i].setCycle c)) :=
  h.set_same hi Trb.type_setCycle Trb.toggle_setCycle

end LinkItems

/-- A transfer ring inside the address space. -/
structure LinkRing (r : TrbRing (n + 1) true) : Prop where
  /-- The buffer lies inside the address space. -/
  fits : r.base + Trb.size * (n + 1) ≤ 2 ^ 64
  /-- The buffer ends in its only Link item. -/
  items : LinkItems r.ring

namespace LinkRing

variable {r : TrbRing (n + 1) true} {i k : ℕ}

/-- The fullness check looks ahead by the position of the pointer alone. -/
theorem checkEnqueueIncrement_eq (h : r.LinkRing) (hk : k ≤ n) :
    r.checkEnqueueIncrement (r.slotAddr k) = .ok (r.slotAddr (lookAhead n k)) := by
  have hlt : k < n + 1 := Nat.lt_succ_of_le hk
  simp only [checkEnqueueIncrement, index_slotAddr h.fits hlt, item_of_lt hlt, ok_bind,
    h.items.type_eq_link_iff _ hlt, lookAhead]
  by_cases hend : k = n
  · simp [hend, slotAddr]
  · have hnext : k + 1 < n + 1 := by omega
    rw [if_neg hend, if_neg hend, wrap_slotAddr_add h.fits hnext, index_slotAddr h.fits hnext,
      if_neg (by omega)]
    rfl

/-- Advancing a pointer that made `k` advances hands out item `k % n`, and toggles the cycle
state when the pointer passes the Link item. -/
theorem increment_eq (h : r.LinkRing) (hn : 0 < n) (c : Bool) :
    r.increment (r.slotAddr (restPos n k)) c =
      .ok (r.slotAddr (k % n), r.slotAddr (restPos n (k + 1)),
        if restPos n k = n then !c else c) := by
  have hlt : restPos n k < n + 1 := Nat.lt_succ_of_le (restPos_le hn)
  have hmod : k % n + 1 < n + 1 := Nat.succ_lt_succ (Nat.mod_lt k hn)
  have hold : (if restPos n k = n then r.base else r.slotAddr (restPos n k)) =
      r.slotAddr (k % n) := by
    split
    · rw [mod_of_restPos_eq hn ‹_›]
      rfl
    · rw [restPos_of_ne hn ‹_›]
  have htoggle : (restPos n k = n ∧ r.ring[restPos n k].toggle = true) ↔ restPos n k = n := by
    refine and_iff_left_of_imp fun heq => ?_
    simp only [heq, h.items.link_toggle]
  simp only [increment, index_slotAddr h.fits hlt, item_of_lt hlt, ok_bind,
    h.items.type_eq_link_iff _ hlt, hold, wrap_slotAddr_add h.fits hmod, index_slotAddr h.fits hmod,
    htoggle, restPos_succ]
  rw [if_neg (by omega)]
  rfl

/-- `full` compares the position ahead with the dequeue pointer. -/
theorem full_eq (h : r.LinkRing) (hk : k ≤ n) (henq : r.enqueuePtr = r.slotAddr k)
    (hdeq : r.dequeuePtr = r.slotAddr i) : r.full = .ok (lookAhead n k == i) := by
  rw [full, henq, h.checkEnqueueIncrement_eq hk, hdeq]
  simp only [ok_bind, pure_eq_ok, Except.ok.injEq]
  rw [Bool.eq_iff_iff, beq_iff_eq, beq_iff_eq, slotAddr_inj]

/-- The `k`-th enqueue returns item `k % n` whenever the fullness check lets it pass, and
advances the enqueue pointer once. -/
theorem enqueue_ok (h : r.LinkRing) (hn : 0 < n) (henq : r.enqueuePtr = r.slotAddr (restPos n k))
    (hfull : r.full = .ok false) :
    ∃ ring, LinkItems ring ∧ r.enqueue = .ok (k % n, { r with
      ring := ring
      enqueuePtr := r.slotAddr (restPos n (k + 1))
      cycle := if restPos n k = n then !r.cycle else r.cycle }) := by
  have hslot : k % n < n + 1 := (Nat.mod_lt k hn).trans (Nat.lt_succ_self n)
  simp only [enqueue, hfull, ok_bind, ensure_of, henq, h.increment_eq hn,
    index_slotAddr h.fits hslot]
  generalize (if restPos n k = n then !r.cycle else r.cycle) = c
  have hmarked := h.items.set_setCycle hslot (!c)
  rw [modifyItem_of_lt hslot, ok_bind]
  split
  · rw [Nat.add_sub_cancel, modifyItem_of_lt (Nat.lt_succ_self n)]
    exact ⟨_, hmarked.set_setCycle (Nat.lt_succ_self n) _, rfl⟩
  · exact ⟨_, hmarked, rfl⟩

/-- Reporting item `k` as completed moves the dequeue pointer behind it. -/
theorem updateDequeuePtr_eq (h : r.LinkRing) (hk : k < n) :
    r.updateDequeuePtr (wrap (r.dmaAddr + Trb.size * k)) =
      .ok { r with dequeuePtr := r.slotAddr (k + 1) } := by
  have hrest : r.slotAddr k = r.slotAddr (restPos n k) := by
    cases k with
    | zero => rfl
    | succ k => rw [restPos_succ, Nat.mod_eq_of_lt (by omega)]
  rw [updateDequeuePtr, wrap_base_add h.fits (by omega), hrest, h.increment_eq (by omega)]
  simp [Nat.mod_eq_of_lt hk]

end LinkRing

/-- The prepared Link item. -/
theorem prepareLink_zero (target : ℕ) : (prepareLink target Trb.zero).type = Trb.linkType ∧
    (prepareLink target Trb.zero).toggle = true ∧
      (prepareLink target Trb.zero).cycle = false := by
  have hlink : (prepareLink 0 Trb.zero).type = Trb.linkType ∧
      (prepareLink 0 Trb.zero).toggle = true ∧
        (prepareLink 0 Trb.zero).cycle = false := by decide +kernel
  exact hlink

/-- A new ring is cleared up to its Link item. -/
theorem new_eq (buffer : Vector Trb (n + 1)) (base dmaAddr : ℕ) :
    ∃ dma, (TrbRing.new buffer base dmaAddr : Except RingFault (TrbRing (n + 1) true)) =
      .ok ⟨(Vector.replicate (n + 1) Trb.zero).set n (prepareLink dma Trb.zero), base, dma, base,
        base, true⟩ := by
  refine ⟨if dmaAddr = 0 then base else dmaAddr, ?_⟩
  simp only [new, initializeRing, if_true, Nat.add_sub_cancel,
    modifyItem_of_lt (Nat.lt_succ_self n), Vector.getElem_replicate]

/-- A new ring over a buffer inside the address space is a transfer ring with both pointers at
its first item. -/
theorem new_ok {buffer : Vector Trb (n + 1)} {base dmaAddr : ℕ} {r : TrbRing (n + 1) true}
    (hfits : base + Trb.size * (n + 1) ≤ 2 ^ 64) (hnew : TrbRing.new buffer base dmaAddr = .ok r) :
    r.LinkRing ∧ r.base = base ∧ r.enqueuePtr = r.slotAddr 0 ∧ r.dequeuePtr = r.slotAddr 0 := by
  obtain ⟨dma, heq⟩ := new_eq buffer base dmaAddr
  obtain rfl := ok_unique heq hnew
  obtain ⟨htype, htoggle, -⟩ := prepareLink_zero dma
  refine ⟨⟨hfits, ?_, ?_⟩, rfl, rfl, rfl⟩
  · intro i hi
    rw [Vector.getElem_set]
    split
    · exact iff_of_true htype (Eq.symm ‹n = i›)
    · rw [Vector.getElem_replicate]
      exact iff_of_false (by decide) (Ne.symm ‹¬n = i›)
  · rw [Vector.getElem_set_self]
    exact htoggle

/-- In a new ring the cycle state is one and all cycle bits are zero. -/
theorem new_cycle {buffer : Vector Trb (n + 1)} {base dmaAddr : ℕ} {r : TrbRing (n + 1) true}
    (hnew : TrbRing.new buffer base dmaAddr = .ok r) :
    r.cycle = true ∧ ∀ i (_ : i < n + 1), r.ring[i].cycle = false := by
  obtain ⟨dma, heq⟩ := new_eq buffer base dmaAddr
  obtain rfl := ok_unique heq hnew
  refine ⟨rfl, fun i hi => ?_⟩
  rw [Vector.getElem_set]
  split
  · exact (prepareLink_zero dma).2.2
  · rw [Vector.getElem_replicate]
    decide

end TrbRing

end Toyos.Xhci
