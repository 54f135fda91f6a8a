import Toyos.Xhci.Transfer

/-!
# Counting the items of a transfer ring

Items are numbered in the order of the enqueues; item `i` lies in slot `i % n`
and belongs to lap `i / n`, whose parity marks it once it is committed. The
invariant counts what was reported, consumed, visibly committed and taken, and
says of every slot which parity it carries.
-/

namespace Toyos.Xhci

open Toyos.Core

namespace Phase

/-- Items taken and not yet committed. -/
def taken : Phase → ℕ
  | .idle => 0
  | .marking _ _ => 1
  | .linking _ => 1
  | .linkCleared _ _ => 1
  | .filling _ => 1
  | .committing _ _ => 0

/-- Items whose free slot is being marked. -/
def unsettled : Phase → ℕ
  | .marking _ _ => 1
  | _ => 0

/-- Passes over the Link item that the controller cannot follow yet. -/
def unlinked : Phase → ℕ
  | .marking _ wrapped => wrapped.toNat
  | .linking _ => 1
  | .linkCleared _ set => set.toNat
  | _ => 0

/-- The bit the second store of `commit` raises. -/
def unraised : Phase → Bool
  | .committing _ set => set
  | _ => false

end Phase

/-- What has happened so far. -/
structure Progress where
  /-- Completions the driver was told about. -/
  reported : ℕ
  /-- How often the controller followed the Link item. -/
  followed : ℕ
  /-- How often the Link item was visibly committed. -/
  linked : ℕ
  /-- Visibly committed items. -/
  visible : ℕ

namespace Transfer

variable {n : ℕ} {s t : Transfer (n + 1)} {p : Progress}

/-- The slot and the cycle bit the driver is working on. -/
def SlotOf (n count : ℕ) : Phase → Prop
  | .idle => True
  | .marking slot _ => slot = count % n
  | .linking slot => slot = count % n
  | .linkCleared slot set => slot = count % n ∧ set = !lapCycle (count / n)
  | .filling slot => slot = count % n
  | .committing slot set => ∃ i, count = i + 1 ∧ slot = i % n ∧ set = lapCycle (i / n)

/-- Pointers, cycle bits and counters agree. -/
structure Inv (p : Progress) (s : Transfer (n + 1)) : Prop where
  /-- The ring is closed by its Link item. -/
  linkRing : s.ring.LinkRing
  /-- The enqueue pointer is at the slot of the next item to take. -/
  enqueuePtr_eq : s.ring.enqueuePtr =
    s.ring.slotAddr (restPos n (s.committed.length + s.phase.taken))
  /-- The dequeue pointer is at the slot of the next item to report. -/
  dequeuePtr_eq : s.ring.dequeuePtr = s.ring.slotAddr (restPos n p.reported)
  /-- The producer's cycle bit counts the laps of the enqueue pointer. -/
  cycle_eq : s.ring.cycle = lapCycle (laps n (s.committed.length + s.phase.taken))
  /-- The driver works on the slot of the item that it has taken. -/
  slot_eq : SlotOf n s.committed.length s.phase
  /-- The controller is in lap `followed`. -/
  position_add : s.position + p.followed * n = s.consumed.length
  /-- The controller is at an item of the ring. -/
  position_le : s.position ≤ n
  /-- The controller's cycle state counts its laps. -/
  cycleState_eq : s.cycleState = lapCycle p.followed
  /-- The pending events are those of the consumed, unreported items. -/
  events_eq : s.events = window n p.reported (s.consumed.length - p.reported)
  /-- Only consumed items are reported. -/
  reported_le : p.reported ≤ s.consumed.length
  /-- Only visibly committed items are consumed. -/
  consumed_le : s.consumed.length ≤ p.visible
  /-- An item becomes visible with the last store of its commit. -/
  visible_add : p.visible + s.phase.unraised.toNat = s.committed.length
  /-- At most one item is outstanding. -/
  taken_le : s.committed.length + s.phase.taken ≤ p.reported + 1
  /-- The items are consumed in the order of the commits. -/
  consumed_initial : s.consumed <+: s.committed
  /-- Slots of items that are not visibly committed carry the other parity. -/
  unmarked : Unmarked n (cycleAt s.ring.ring) (p.visible + s.phase.unsettled) (p.visible + n)
  /-- The slot that is being marked is cleared. -/
  cleared : s.phase.unsettled = 1 → cycleAt s.ring.ring (s.committed.length % n) = false
  /-- The Link item carries the parity of the lap that it ends. -/
  link_cycle : s.ring.ring[n].cycle = !lapCycle p.linked
  /-- The controller follows the Link item only when it is committed. -/
  followed_le : p.followed ≤ p.linked
  /-- The Link item is committed once per lap. -/
  linked_add : p.linked + s.phase.unlinked = laps n (s.committed.length + s.phase.taken)
  /-- The outstanding item is still in its slot. -/
  content : ∀ c, s.committed[p.reported]? = some c → ∀ _ : p.reported % n < n + 1,
    s.ring.ring[p.reported % n].raiseCycle s.phase.unraised = c

/-- Reported items have been committed. -/
theorem Inv.reported_le_committed (h : s.Inv p) : p.reported ≤ s.committed.length := by
  have h₁ := h.reported_le
  have h₂ := h.consumed_le
  have h₃ := h.visible_add
  omega

/-- An empty ring means that everything taken has been reported. -/
theorem Inv.reported_of_empty (h : s.Inv p) (hn : 2 ≤ n) (hempty : s.ring.empty = true) :
    s.committed.length + s.phase.taken = p.reported := by
  have hle := h.reported_le_committed
  have hone := h.taken_le
  have hcount : s.committed.length + s.phase.taken =
      p.reported + (s.committed.length + s.phase.taken - p.reported) := by omega
  have hlap : Unlapped n p.reported (s.committed.length + s.phase.taken - p.reported) :=
    .inl (by omega)
  rw [TrbRing.empty, beq_iff_eq, h.enqueuePtr_eq, h.dequeuePtr_eq, TrbRing.slotAddr_inj, hcount,
    hlap.restPos_eq_iff] at hempty
  omega

/-- A ring with an outstanding item at most is never full. -/
theorem Inv.full_eq (h : s.Inv p) (hn : 2 ≤ n) (hempty : s.ring.empty = true) :
    s.ring.full = .ok false := by
  have hle : restPos n p.reported ≤ n := restPos_le (by omega)
  have henq := h.enqueuePtr_eq
  rw [h.reported_of_empty hn hempty] at henq
  rw [h.linkRing.full_eq hle henq h.dequeuePtr_eq, Except.ok.injEq, beq_eq_false_iff_ne,
    lookAhead]
  split
  · omega
  · omega

/-- Nothing is outstanding while an item is taken. -/
theorem Inv.settled (h : s.Inv p) (htaken : s.phase.taken = 1)
    (hraised : s.phase.unraised = false) :
    p.reported = s.committed.length ∧ s.consumed.length = s.committed.length ∧
      p.visible = s.committed.length := by
  have h₁ := h.reported_le
  have h₂ := h.consumed_le
  have h₃ := h.visible_add
  have h₄ := h.taken_le
  rw [hraised] at h₃
  simp only [Bool.toNat_false] at h₃
  omega

/-- `enqueue` takes the next slot and clears its cycle bit. -/
theorem Inv.enqueue (h : s.Inv p) (hn : 2 ≤ n) (hphase : s.phase = .idle)
    (hempty : s.ring.empty = true) {slot wrapped r}
    (hcall : s.ring.enqueueStart = .ok (slot, wrapped, r)) :
    Inv p { s with ring := r, phase := .marking slot wrapped } := by
  have hpos : 0 < n := by omega
  have hmod := Nat.mod_lt s.committed.length hpos
  have hslot : s.committed.length % n < n + 1 := by omega
  have hcount := h.reported_of_empty hn hempty
  have henq := h.enqueuePtr_eq
  have hvisible := h.visible_add
  have hlinked := h.linked_add
  have hcycle := h.cycle_eq
  have hunmarked := h.unmarked
  have hlaps := laps_step (k := s.committed.length) hpos
  simp only [hphase, Phase.taken, Phase.unraised, Phase.unlinked, Phase.unsettled, Nat.add_zero,
    Bool.toNat_false] at hcount henq hvisible hlinked hcycle hunmarked
  have hstart := h.linkRing.enqueueStart_eq hpos henq (h.full_eq hn hempty) hslot
  rw [hstart, Except.ok.injEq, Prod.mk.injEq, Prod.mk.injEq] at hcall
  obtain ⟨rfl, rfl, rfl⟩ := hcall
  exact { h with
    linkRing := ⟨h.linkRing.fits,
      h.linkRing.items.set_same hslot Trb.type_clearCycle Trb.toggle_clearCycle⟩
    enqueuePtr_eq := rfl
    cycle_eq := by
      simp only [Phase.taken, laps_succ]
      rw [hcycle, hlaps]
      split
      · rw [lapCycle_succ]
      · rfl
    slot_eq := rfl
    visible_add := hvisible
    taken_le := by
      simp only [Phase.taken]
      omega
    unmarked := by
      rw [hvisible] at hunmarked ⊢
      refine (hunmarked.mono (Nat.le_succ _) le_rfl).update (Nat.lt_succ_self _) le_rfl ?_
      exact fun j hj => cycleAt_set_of_ne hslot _ hj
    cleared := fun _ => by rw [cycleAt_set_self hslot, Trb.cycle_clearCycle]
    link_cycle := by rw [Vector.getElem_set_ne _ _ hmod.ne, h.link_cycle]
    linked_add := by
      simp only [Phase.taken, Phase.unlinked, laps_succ]
      rw [hlaps, hlinked]
      by_cases hend : restPos n s.committed.length = n
      · simp [hend]
      · simp [hend]
    content := by
      intro c hc
      rw [← hcount, List.getElem?_eq_none (le_refl _)] at hc
      cases hc }

/-- A store to the taken item that leaves it unmarked. -/
theorem Inv.storeTaken (h : s.Inv p) (hn : 0 < n) (htaken : s.phase.taken = 1)
    (hraised : s.phase.unraised = false) (hslot : s.committed.length % n < n + 1) {u : Trb}
    (htype : u.type ≠ Trb.linkType) (hcycle : u.cycle = !lapCycle (s.committed.length / n))
    {phase : Phase} (htaken' : phase.taken = s.phase.taken)
    (hraised' : phase.unraised = s.phase.unraised) (hsettled : phase.unsettled = 0)
    (hunlinked : phase.unlinked = s.phase.unlinked)
    (hslotOf : SlotOf n s.committed.length phase) :
    Inv p { s with
      ring := { s.ring with ring := s.ring.ring.set (s.committed.length % n) u }
      phase := phase } := by
  obtain ⟨hreported, -, hvisible⟩ := h.settled htaken hraised
  have hmod := Nat.mod_lt s.committed.length hn
  have hone : s.phase.unsettled ≤ 1 := by
    cases s.phase <;> simp [Phase.unsettled]
  exact { h with
    linkRing := ⟨h.linkRing.fits,
      h.linkRing.items.set hslot (iff_of_false htype hmod.ne) fun heq => absurd heq hmod.ne⟩
    enqueuePtr_eq := by
      rw [htaken']
      exact h.enqueuePtr_eq
    cycle_eq := by
      rw [htaken']
      exact h.cycle_eq
    slot_eq := hslotOf
    visible_add := by
      rw [hraised']
      exact h.visible_add
    taken_le := by
      rw [htaken']
      exact h.taken_le
    unmarked := by
      intro i hlo hhi
      have hunmarked := h.unmarked
      simp only [hsettled, hvisible, Nat.add_zero] at hlo hhi hunmarked ⊢
      rcases hlo.eq_or_lt with rfl | hlt
      · rw [cycleAt_set_self hslot, hcycle]
      · rw [cycleAt_set_of_ne hslot _ (mod_ne_of_lt hlt hhi)]
        exact hunmarked i (by omega) hhi
    cleared := by simp [hsettled]
    link_cycle := by rw [Vector.getElem_set_ne _ _ hmod.ne, h.link_cycle]
    linked_add := by
      rw [htaken', hunlinked]
      exact h.linked_add
    content := by
      intro c hc
      rw [hreported, List.getElem?_eq_none (le_refl _)] at hc
      cases hc }

/-- The second store of `enqueue` gives the free slot the parity of the lap before. -/
theorem Inv.mark (h : s.Inv p) (hn : 0 < n) {slot wrapped r}
    (hphase : s.phase = .marking slot wrapped)
    (hcall : s.ring.modifyItem slot (·.raiseCycle (!s.ring.cycle)) = .ok r) :
    Inv p { s with ring := r, phase := if wrapped then .linking slot else .filling slot } := by
  have hmod := Nat.mod_lt s.committed.length hn
  have hslot : s.committed.length % n < n + 1 := by omega
  have hslotOf := h.slot_eq
  have hcleared := h.cleared
  have hcycle := h.cycle_eq
  simp only [hphase, SlotOf, Phase.unsettled, forall_const, Phase.taken, laps_succ]
    at hslotOf hcleared hcycle
  subst hslotOf
  rw [TrbRing.modifyItem_of_lt hslot, Except.ok.injEq] at hcall
  subst hcall
  rw [cycleAt_of_lt hslot] at hcleared
  apply h.storeTaken hn (by rw [hphase]; rfl) (by rw [hphase]; rfl) hslot
  · rw [Trb.type_raiseCycle]
    exact fun hlink => hmod.ne ((h.linkRing.items.type_eq_link_iff _ hslot).mp hlink)
  · rw [Trb.cycle_raiseCycle, hcleared, hcycle, Bool.false_or]
  · rw [hphase]
    cases wrapped <;> rfl
  · rw [hphase]
    cases wrapped <;> rfl
  · cases wrapped <;> rfl
  · rw [hphase]
    cases wrapped <;> rfl
  · cases wrapped <;> rfl

/-- Filling the item keeps its cycle bit. -/
theorem Inv.fill (h : s.Inv p) (hn : 0 < n) {slot : ℕ} {old u : Trb} {r}
    (hphase : s.phase = .filling slot) (hitem : s.ring.item slot = .ok old)
    (hcycle : u.cycle = old.cycle) (htype : u.type ≠ Trb.linkType)
    (hcall : s.ring.modifyItem slot (fun _ => u) = .ok r) : Inv p { s with ring := r } := by
  have hmod := Nat.mod_lt s.committed.length hn
  have hslot : s.committed.length % n < n + 1 := by omega
  have hslotOf := h.slot_eq
  have hvisible := h.visible_add
  have hunmarked := h.unmarked
  simp only [hphase, SlotOf, Phase.unraised, Phase.unsettled, Bool.toNat_false, Nat.add_zero]
    at hslotOf hvisible hunmarked
  subst hslotOf
  rw [TrbRing.item_of_lt hslot, Except.ok.injEq] at hitem
  rw [TrbRing.modifyItem_of_lt hslot, Except.ok.injEq] at hcall
  subst hitem hcall
  have hbit := hunmarked _ hvisible.le (by omega)
  rw [cycleAt_of_lt hslot] at hbit
  apply h.storeTaken hn (by rw [hphase]; rfl) (by rw [hphase]; rfl) hslot htype
    (hcycle.trans hbit)
  · rfl
  · rfl
  · rw [hphase]
    rfl
  · rfl
  · exact h.slot_eq

/-- A store to the Link item. -/
theorem Inv.storeLink (h : s.Inv p) (hn : 0 < n) {u : Trb} (linked : ℕ) {phase : Phase}
    (htype : u.type = (getElem s.ring.ring n (Nat.lt_succ_self n)).type)
    (htoggle : u.toggle = (getElem s.ring.ring n (Nat.lt_succ_self n)).toggle)
    (hcycle : u.cycle = !lapCycle linked) (hlinked : p.linked ≤ linked)
    (hadd : linked + phase.unlinked = p.linked + s.phase.unlinked)
    (htaken : phase.taken = s.phase.taken) (hraised : phase.unraised = s.phase.unraised)
    (hsettled : phase.unsettled = s.phase.unsettled)
    (hslotOf : SlotOf n s.committed.length phase) :
    Inv { p with linked := linked } { s with
      ring := { s.ring with ring := s.ring.ring.set n u (Nat.lt_succ_self n) }
      phase := phase } := by
  have hbit : ∀ j < n, cycleAt (s.ring.ring.set n u) j = cycleAt s.ring.ring j :=
    fun j hj => cycleAt_set_of_ne (Nat.lt_succ_self n) u hj.ne
  exact { h with
    linkRing := ⟨h.linkRing.fits, h.linkRing.items.set_same (Nat.lt_succ_self n) htype htoggle⟩
    enqueuePtr_eq := by
      rw [htaken]
      exact h.enqueuePtr_eq
    cycle_eq := by
      rw [htaken]
      exact h.cycle_eq
    slot_eq := hslotOf
    visible_add := by
      rw [hraised]
      exact h.visible_add
    taken_le := by
      rw [htaken]
      exact h.taken_le
    unmarked := by
      rw [hsettled]
      exact h.unmarked.congr hn hbit
    cleared := by
      rw [hsettled, hbit _ (Nat.mod_lt _ hn)]
      exact h.cleared
    link_cycle := by rw [Vector.getElem_set_self, hcycle]
    followed_le := h.followed_le.trans hlinked
    linked_add := by
      rw [htaken, hadd]
      exact h.linked_add
    content := by
      intro c hc hslot
      rw [hraised, Vector.getElem_set_ne _ _ (Nat.mod_lt p.reported hn).ne']
      exact h.content c hc hslot }

/-- The first store of the commit of the Link item. -/
theorem Inv.clearLink (h : s.Inv p) (hn : 0 < n) {slot : ℕ} {link : Trb} {r}
    (hphase : s.phase = .linking slot) (hitem : s.ring.item n = .ok link)
    (hcall : s.ring.modifyItem n Trb.clearCycle = .ok r) :
    ∃ p', Inv p' { s with ring := r, phase := .linkCleared slot (!link.cycle) } := by
  have hslotOf := h.slot_eq
  have hadd := h.linked_add
  simp only [hphase, SlotOf, Phase.taken, Phase.unlinked, laps_succ] at hslotOf hadd
  rw [TrbRing.item_of_lt (Nat.lt_succ_self n), Except.ok.injEq] at hitem
  rw [TrbRing.modifyItem_of_lt (Nat.lt_succ_self n), Except.ok.injEq] at hcall
  subst hitem hcall
  have hset : (!s.ring.ring[n].cycle) = lapCycle p.linked := by rw [h.link_cycle, Bool.not_not]
  rw [hset]
  refine ⟨_, h.storeLink hn (p.linked + (!lapCycle p.linked).toNat) Trb.type_clearCycle
    Trb.toggle_clearCycle ?_ (Nat.le_add_right _ _) ?_ ?_ ?_ ?_ ?_⟩
  · rw [Trb.cycle_clearCycle]
    cases hl : lapCycle p.linked with
    | false => simp [hl]
    | true => simp [hl]
  · rw [hphase]
    cases lapCycle p.linked <;> rfl
  · rw [hphase]
    rfl
  · rw [hphase]
    rfl
  · rw [hphase]
    rfl
  · refine ⟨hslotOf, ?_⟩
    rw [← hadd, lapCycle_succ, Bool.not_not]

/-- The second store of the commit of the Link item. -/
theorem Inv.raiseLink (h : s.Inv p) (hn : 0 < n) {slot : ℕ} {set : Bool} {r}
    (hphase : s.phase = .linkCleared slot set)
    (hcall : s.ring.modifyItem n (·.raiseCycle set) = .ok r) :
    ∃ p', Inv p' { s with ring := r, phase := .filling slot } := by
  have hslotOf := h.slot_eq
  have hadd := h.linked_add
  simp only [hphase, SlotOf, Phase.taken, Phase.unlinked, laps_succ] at hslotOf hadd
  rw [TrbRing.modifyItem_of_lt (Nat.lt_succ_self n), Except.ok.injEq] at hcall
  subst hcall
  refine ⟨_, h.storeLink hn (p.linked + set.toNat) Trb.type_raiseCycle
    Trb.toggle_raiseCycle ?_ (Nat.le_add_right _ _) ?_ ?_ ?_ ?_ ?_⟩
  · rw [Trb.cycle_raiseCycle, h.link_cycle, hadd]
    cases set with
    | false =>
      simp only [Bool.toNat_false, Nat.add_zero] at hadd
      rw [Bool.or_false, hadd]
    | true => rw [Bool.or_true, hslotOf.2]
  · rw [hphase]
    rfl
  · rw [hphase]
    rfl
  · rw [hphase]
    rfl
  · rw [hphase]
    rfl
  · exact hslotOf.1

/-- The first store of `commit` appends the item to the committed ones. -/
theorem Inv.commit (h : s.Inv p) (hn : 0 < n) {slot : ℕ} {u : Trb} {r}
    (hphase : s.phase = .filling slot) (hitem : s.ring.item slot = .ok u)
    (hcall : s.ring.modifyItem slot Trb.clearCycle = .ok r) :
    ∃ p', Inv p' { s with
      ring := r
      phase := .committing slot (!u.cycle)
      committed := s.committed ++ [u.commit] } := by
  have hmod := Nat.mod_lt s.committed.length hn
  have hslot : s.committed.length % n < n + 1 := by omega
  have hslotOf := h.slot_eq
  have hunmarked := h.unmarked
  have hlinked := h.linked_add
  have htaken := h.taken_le
  have henq := h.enqueuePtr_eq
  have hcycle := h.cycle_eq
  obtain ⟨hreported, hconsumed, hvisible⟩ := h.settled (by rw [hphase]; rfl) (by rw [hphase]; rfl)
  simp only [hphase, SlotOf, Phase.unsettled, Phase.unlinked, Phase.taken, Nat.add_zero, hvisible]
    at hslotOf hunmarked hlinked htaken henq hcycle
  subst hslotOf
  rw [TrbRing.item_of_lt hslot, Except.ok.injEq] at hitem
  rw [TrbRing.modifyItem_of_lt hslot, Except.ok.injEq] at hcall
  subst hitem hcall
  have hbit := hunmarked _ le_rfl (by omega)
  rw [cycleAt_of_lt hslot] at hbit
  have hset : (!s.ring.ring[s.committed.length % n].cycle) = lapCycle (s.committed.length / n) := by
    rw [hbit, Bool.not_not]
  have hother : ∀ j, j ≠ s.committed.length % n → cycleAt (s.ring.ring.set (s.committed.length % n)
      s.ring.ring[s.committed.length % n].clearCycle) j = cycleAt s.ring.ring j :=
    fun j hj => cycleAt_set_of_ne hslot _ hj
  have hself : cycleAt (s.ring.ring.set (s.committed.length % n)
      s.ring.ring[s.committed.length % n].clearCycle) (s.committed.length % n) = false := by
    rw [cycleAt_set_self hslot, Trb.cycle_clearCycle]
  rw [hset]
  refine ⟨{ p with visible := s.committed.length + (!lapCycle (s.committed.length / n)).toNat },
    { h with
      linkRing := ⟨h.linkRing.fits,
        h.linkRing.items.set_same hslot Trb.type_clearCycle Trb.toggle_clearCycle⟩
      enqueuePtr_eq := by
        rw [List.length_append]
        exact henq
      cycle_eq := by simpa [Phase.taken] using hcycle
      slot_eq := ⟨s.committed.length, by simp, rfl, rfl⟩
      consumed_le := by simp only; omega
      visible_add := ?_
      taken_le := by simpa [Phase.taken] using htaken
      consumed_initial := h.consumed_initial.trans (List.prefix_append _ _)
      unmarked := ?_
      cleared := by simp [Phase.unsettled]
      link_cycle := by rw [Vector.getElem_set_ne _ _ hmod.ne, h.link_cycle]
      linked_add := by simpa [Phase.taken, Phase.unlinked] using hlinked
      content := ?_ }⟩
  · simp only [Phase.unraised, List.length_append, List.length_singleton]
    cases lapCycle (s.committed.length / n) <;> rfl
  · cases hl : lapCycle (s.committed.length / n) with
    | false => exact hunmarked.mark hn (hself.trans hl.symm) hother
    | true =>
      refine fun i hlo hhi => ?_
      simp only [Phase.unsettled, Bool.not_true, Bool.toNat_false, Nat.add_zero] at hlo hhi
      rcases hlo.eq_or_lt with rfl | hlt
      · rw [hself, hl]
        rfl
      · rw [hother _ (mod_ne_of_lt hlt hhi)]
        exact hunmarked i hlo hhi
  · intro c hc _
    rw [hreported, List.getElem?_concat_length, Option.some.injEq] at hc
    subst hc
    simp only [hreported, Vector.getElem_set_self, Phase.unraised]
    rw [Trb.raiseCycle_clearCycle, Trb.commit, hset]

/-- The second store of `commit` makes the item visible. -/
theorem Inv.raise (h : s.Inv p) (hn : 0 < n) {slot : ℕ} {set : Bool} {r}
    (hphase : s.phase = .committing slot set)
    (hcall : s.ring.modifyItem slot (·.raiseCycle set) = .ok r) :
    ∃ p', Inv p' { s with ring := r, phase := .idle } := by
  have hslotOf := h.slot_eq
  have hunmarked := h.unmarked
  have hlinked := h.linked_add
  have htaken := h.taken_le
  have henq := h.enqueuePtr_eq
  have hcycle := h.cycle_eq
  have hvisible := h.visible_add
  have hcontent := h.content
  simp only [hphase, SlotOf, Phase.unsettled, Phase.unlinked, Phase.taken, Phase.unraised,
    Nat.add_zero] at hslotOf hunmarked hlinked htaken henq hcycle hvisible hcontent
  obtain ⟨i, hcount, rfl, rfl⟩ := hslotOf
  have hmod := Nat.mod_lt i hn
  have hslot : i % n < n + 1 := by omega
  rw [TrbRing.modifyItem_of_lt hslot, Except.ok.injEq] at hcall
  subst hcall
  have hother : ∀ j, j ≠ i % n → cycleAt (s.ring.ring.set (i % n)
      (s.ring.ring[i % n].raiseCycle (lapCycle (i / n)))) j = cycleAt s.ring.ring j :=
    fun j hj => cycleAt_set_of_ne hslot _ hj
  refine ⟨{ p with visible := s.committed.length },
    { h with
      linkRing := ⟨h.linkRing.fits,
        h.linkRing.items.set_same hslot Trb.type_raiseCycle Trb.toggle_raiseCycle⟩
      enqueuePtr_eq := henq
      cycle_eq := hcycle
      slot_eq := trivial
      consumed_le := h.consumed_le.trans (by simp only; omega)
      visible_add := rfl
      taken_le := htaken
      unmarked := ?_
      cleared := by simp [Phase.unsettled]
      link_cycle := by rw [Vector.getElem_set_ne _ _ hmod.ne, h.link_cycle]
      linked_add := hlinked
      content := ?_ }⟩
  · cases hl : lapCycle (i / n) with
    | false =>
      rw [hl, Bool.toNat_false, Nat.add_zero] at hvisible
      rw [hvisible] at hunmarked
      simp only [Trb.raiseCycle_false, Vector.set_getElem_self]
      exact hunmarked
    | true =>
      rw [hl, Bool.toNat_true, hcount, Nat.add_right_cancel_iff] at hvisible
      rw [hvisible] at hunmarked
      rw [hcount]
      rw [hl] at hother
      refine hunmarked.mark hn ?_ hother
      rw [cycleAt_set_self hslot, Trb.cycle_raiseCycle, Bool.or_true, hl]
  · intro c hc hreported
    by_cases heq : p.reported = i
    · have hold := hcontent c hc hreported
      simp only [heq, Vector.getElem_set_self, Phase.unraised, Trb.raiseCycle_false] at hold ⊢
      exact hold
    · have hle := h.reported_le_committed
      rw [List.getElem?_eq_none (by simp only; omega)] at hc
      cases hc

/-- Telling the driver about a completion gives the item back. -/
theorem Inv.report (h : s.Inv p) (hn : 0 < n) {slot : ℕ} {rest : List ℕ} {r}
    (hevents : s.events = slot :: rest)
    (hcall : s.ring.updateDequeuePtr (wrap (s.ring.dmaAddr + Trb.size * slot)) = .ok r) :
    ∃ p', Inv p' { s with ring := r, events := rest } := by
  have hwindow := h.events_eq
  have hle := h.reported_le
  have hconsumed := h.consumed_le
  have hvisible := h.visible_add
  have htaken := h.taken_le
  rw [hevents] at hwindow
  cases hcount : s.consumed.length - p.reported with
  | zero => simp [hcount] at hwindow
  | succ count =>
    rw [hcount, window_cons, List.cons.injEq] at hwindow
    obtain ⟨rfl, rfl⟩ := hwindow
    rw [h.linkRing.updateDequeuePtr_eq (Nat.mod_lt _ hn), Except.ok.injEq] at hcall
    subst hcall
    exact ⟨{ p with reported := p.reported + 1 },
      { h with
        linkRing := ⟨h.linkRing.fits, h.linkRing.items⟩
        dequeuePtr_eq := rfl
        events_eq := by
          simp only
          congr 1
          omega
        reported_le := by
          simp only
          omega
        taken_le := by
          simp only
          omega
        content := by
          intro c hc
          rw [List.getElem?_eq_none (by simp only; omega)] at hc
          cases hc }⟩

/-- The controller is at the slot of the next item to consume, in its lap. -/
theorem Inv.position_eq (h : s.Inv p) (hlt : s.position < n) :
    s.consumed.length % n = s.position ∧ s.consumed.length / n = p.followed := by
  rw [← h.position_add, Nat.add_mul_mod_self_right, Nat.mod_eq_of_lt hlt,
    Nat.add_mul_div_right _ _ (by omega), Nat.div_eq_of_lt hlt, Nat.zero_add]
  exact ⟨rfl, rfl⟩

/-- The controller finds the Link item behind the last slot only. -/
theorem Inv.item_position (h : s.Inv p) {u : Trb} (hitem : s.ring.item s.position = .ok u) :
    (u.type ≠ Trb.linkType → s.position < n ∧ u.cycle = cycleAt s.ring.ring s.position) ∧
      (u.type = Trb.linkType → s.position = n ∧ u.cycle = !lapCycle p.linked) := by
  have hle := h.position_le
  have hlt : s.position < n + 1 := by omega
  have hkind := h.linkRing.items.type_eq_link_iff s.position hlt
  rw [TrbRing.item_of_lt hlt, Except.ok.injEq] at hitem
  subst hitem
  constructor
  · intro htype
    have hne := mt hkind.mpr htype
    exact ⟨by omega, (cycleAt_of_lt hlt).symm⟩
  · intro htype
    have heq := hkind.mp htype
    refine ⟨heq, ?_⟩
    rw [← h.link_cycle]
    simp only [heq]

/-- Outside of the window in which the free item is marked, the controller takes visibly
committed items only. -/
theorem Inv.consumed_lt (h : s.Inv p) (hsettled : s.phase.unsettled = 0) {u : Trb}
    (hitem : s.ring.item s.position = .ok u) (hcycle : u.cycle = s.cycleState)
    (htype : u.type ≠ Trb.linkType) : s.consumed.length < p.visible := by
  obtain ⟨hlt, hbit⟩ := (h.item_position hitem).1 htype
  obtain ⟨hmod, hdiv⟩ := h.position_eq hlt
  by_contra hge
  have heq : s.consumed.length = p.visible := le_antisymm h.consumed_le (not_lt.mp hge)
  have hunmarked := h.unmarked s.consumed.length (by omega) (by omega)
  rw [hmod, hdiv, ← hbit, hcycle, h.cycleState_eq] at hunmarked
  cases hl : lapCycle p.followed <;> simp [hl] at hunmarked

/-- The controller consumes the item that was committed next. -/
theorem Inv.consume (h : s.Inv p) (hn : 0 < n) (hsettled : s.phase.unsettled = 0) {u : Trb}
    (hitem : s.ring.item s.position = .ok u) (hcycle : u.cycle = s.cycleState)
    (htype : u.type ≠ Trb.linkType) :
    Inv p { s with
      position := s.position + 1
      events := s.events ++ [s.position]
      consumed := s.consumed ++ [u] } := by
  have hvisible := h.consumed_lt hsettled hitem hcycle htype
  obtain ⟨hlt, -⟩ := (h.item_position hitem).1 htype
  obtain ⟨hmod, -⟩ := h.position_eq hlt
  have hadd := h.visible_add
  have hreported := h.reported_le
  have htaken := h.taken_le
  have hposition := h.position_add
  have hone : p.reported = s.consumed.length ∧ s.phase.unraised.toNat = 0 := by omega
  have hraised : s.phase.unraised = false := by
    cases hr : s.phase.unraised <;> simp [hr] at hone ⊢
  obtain ⟨rest, hrest⟩ := h.consumed_initial
  have hnext : s.committed[s.consumed.length]? = rest[0]? := by
    rw [← hrest, List.getElem?_append_right le_rfl, Nat.sub_self]
  cases rest with
  | nil =>
    rw [List.append_nil] at hrest
    rw [hrest] at hvisible
    omega
  | cons c rest =>
    have hslot : p.reported % n < n + 1 := (Nat.mod_lt _ hn).trans (Nat.lt_succ_self n)
    have hcontent := h.content c (by rw [hone.1, hnext]; rfl) hslot
    have hitem' : s.ring.ring[p.reported % n] = u := by
      rw [← Except.ok.injEq (ε := RingFault), ← TrbRing.item_of_lt hslot, hone.1, hmod]
      exact hitem
    rw [hitem', hraised, Trb.raiseCycle_false] at hcontent
    subst hcontent
    exact { h with
      position_add := by
        simp only [List.length_append, List.length_singleton]
        omega
      position_le := hlt
      events_eq := by
        simp only [List.length_append, List.length_singleton]
        rw [h.events_eq, Nat.succ_sub hreported, window_concat, Nat.add_sub_cancel' hreported, hmod]
      reported_le := by
        simp only [List.length_append, List.length_singleton]
        omega
      consumed_le := by
        simp only [List.length_append, List.length_singleton]
        omega
      consumed_initial := ⟨rest, by simpa using hrest⟩ }

/-- Following the Link item starts a new lap. -/
theorem Inv.follow (h : s.Inv p) {u : Trb} (hitem : s.ring.item s.position = .ok u)
    (hcycle : u.cycle = s.cycleState) (htype : u.type = Trb.linkType) :
    ∃ p', Inv p' { s with position := 0, cycleState := !s.cycleState } := by
  obtain ⟨hend, hbit⟩ := (h.item_position hitem).2 htype
  have hposition := h.position_add
  have hle := h.followed_le
  have hne : p.followed ≠ p.linked := by
    intro heq
    rw [hcycle, h.cycleState_eq, heq] at hbit
    cases hl : lapCycle p.linked <;> simp [hl] at hbit
  exact ⟨{ p with followed := p.followed + 1 },
    { h with
      position_add := by
        simp only [Nat.succ_mul]
        omega
      position_le := Nat.zero_le n
      cycleState_eq := by rw [h.cycleState_eq, lapCycle_succ]
      followed_le := by
        simp only
        omega }⟩

end Transfer

end Toyos.Xhci
