import Toyos.Xhci.RingFlow
import Toyos.Xhci.TransferInvariant

/-!
# The cycle-bit protocol over whole runs

Setting the cycle bit of the free item clears it first. In every second lap a
cleared bit reads as committed, so a controller that looks at the ring between
the two stores takes the item of an earlier lap again. Apart from that window the
controller takes exactly the committed items, in order and over any number of
laps.
-/

namespace Toyos.Xhci.Transfer

open Toyos.Core

section

variable {n : ℕ} {s t : Transfer (n + 1)} {p : Progress}

/-- Under the invariant the controller is in order. -/
theorem Inv.inOrder (h : s.Inv p) (hn : 0 < n) : s.InOrder := by
  refine ⟨h.consumed_initial, fun hphase hstuck => ?_⟩
  refine h.consumed_initial.eq_of_length_le ?_
  by_contra hlt
  have hraised : s.phase.unraised = false := by
    cases hp : s.phase with
    | committing slot set => exact absurd hp (hphase slot set)
    | _ => rfl
  have hvisible := h.visible_add
  have hreported := h.reported_le
  have htaken := h.taken_le
  rw [hraised, Bool.toNat_false, Nat.add_zero] at hvisible
  have hone : p.visible = s.consumed.length + 1 ∧ s.phase.taken = 0 := by omega
  have hidle : s.phase = .idle := by
    cases hp : s.phase with
    | idle => rfl
    | committing slot set => exact absurd hp (hphase slot set)
    | _ => simp [hp, Phase.taken] at hone
  have hposition : s.position < n + 1 := Nat.lt_succ_of_le h.position_le
  apply hstuck _ (TrbRing.item_of_lt hposition)
  rw [h.cycleState_eq]
  rcases h.position_le.eq_or_lt with hend | hlt
  · have hadd := h.position_add
    have hlinked := h.linked_add
    simp only [hidle, Phase.unlinked, Phase.taken, Nat.add_zero, ← hvisible, hone.1,
      laps_succ] at hlinked
    have hdiv : s.consumed.length / n = p.followed + 1 := by
      rw [← hadd, hend, Nat.add_mul_div_right _ _ hn, Nat.div_self hn, Nat.add_comm]
    simp only [hend]
    rw [h.link_cycle, hlinked, hdiv, lapCycle_succ, Bool.not_not]
  · obtain ⟨hmod, hdiv⟩ := h.position_eq hlt
    have hunmarked := h.unmarked
    simp only [hidle, Phase.unsettled, Nat.add_zero, hone.1] at hunmarked
    have hmarked := hunmarked.marked hn
    rw [hmod, hdiv, cycleAt_of_lt hposition] at hmarked
    exact hmarked

/-- Every step other than taking an item that is being marked keeps the invariant. -/
theorem Inv.step (h : s.Inv p) (hn : 2 ≤ n) {e : TransferEvent} (hstep : Step s e t)
    (hgood : ¬e.WhileMarking) : ∃ p', t.Inv p' := by
  have hpos : 0 < n := by omega
  cases hstep with
  | enqueue hphase hempty hcall => exact ⟨p, h.enqueue hn hphase hempty hcall⟩
  | mark hphase hcall => exact ⟨p, h.mark hpos hphase hcall⟩
  | clearLink hphase hitem hcall => exact h.clearLink hpos hphase hitem hcall
  | raiseLink hphase hcall => exact h.raiseLink hpos hphase hcall
  | fill hphase hitem hcycle htype hcall =>
    exact ⟨p, h.fill hpos hphase hitem hcycle htype hcall⟩
  | commit hphase hitem hcall => exact h.commit hpos hphase hitem hcall
  | raise hphase hcall => exact h.raise hpos hphase hcall
  | report hevents hcall => exact h.report hpos hevents hcall
  | consume hitem hcycle htype =>
    have hsettled : s.phase.unsettled = 0 := by
      cases hp : s.phase with
      | marking slot wrapped => simp [TransferEvent.WhileMarking, hp] at hgood
      | _ => rfl
    exact ⟨p, h.consume hpos hsettled hitem hcycle htype⟩
  | follow hitem hcycle htype => exact h.follow hitem hcycle htype

/-- Taking an item that is being marked leaves the order. -/
theorem Inv.whileMarking (h : s.Inv p) {e : TransferEvent} (hstep : Step s e t)
    (hbad : e.WhileMarking) : ¬t.InOrder := by
  cases hstep with
  | consume hitem hcycle htype =>
    intro horder
    cases hp : s.phase with
    | marking slot wrapped =>
      obtain ⟨-, hconsumed, -⟩ := h.settled (by rw [hp]; rfl) (by rw [hp]; rfl)
      have hle := horder.consumed_initial.length_le
      simp only [List.length_append, List.length_singleton] at hle
      omega
    | _ => simp [TransferEvent.WhileMarking, hp] at hbad
  | _ => exact hbad.elim

/-- Outside of that window no item is taken before its `commit`. -/
theorem Inv.not_premature (h : s.Inv p) {e : TransferEvent} (hstep : Step s e t)
    (hgood : ¬e.WhileMarking) : ¬e.Premature := by
  cases hstep with
  | consume hitem hcycle htype =>
    intro hpending
    have hfacts : s.phase.unsettled = 0 ∧ s.phase.taken = 1 ∧ s.phase.unraised = false := by
      cases hp : s.phase with
      | marking slot wrapped => simp [TransferEvent.WhileMarking, hp] at hgood
      | idle => simp [TransferEvent.Premature, Phase.pending, hp] at hpending
      | committing slot set => simp [TransferEvent.Premature, Phase.pending, hp] at hpending
      | _ => exact ⟨rfl, rfl, rfl⟩
    have hlt := h.consumed_lt hfacts.1 hitem hcycle htype
    obtain ⟨-, hconsumed, hvisible⟩ := h.settled hfacts.2.1 hfacts.2.2
    omega
  | _ => exact id

/-- A new ring with an idle driver satisfies the invariant. -/
theorem start_inv {buffer : Vector Trb (n + 1)} {base dmaAddr : ℕ} {r : TrbRing (n + 1) true}
    (hfits : base + Trb.size * (n + 1) ≤ 2 ^ 64)
    (hnew : TrbRing.new buffer base dmaAddr = .ok r) : Inv ⟨0, 0, 0, 0⟩ (start r) := by
  obtain ⟨hring, -, henq, hdeq⟩ := TrbRing.new_ok hfits hnew
  obtain ⟨hcycle, hbits⟩ := TrbRing.new_cycle hnew
  exact {
    linkRing := hring
    enqueuePtr_eq := henq
    dequeuePtr_eq := hdeq
    cycle_eq := by simpa [start, Phase.taken, laps] using hcycle
    slot_eq := trivial
    position_add := by simp [start]
    position_le := Nat.zero_le n
    cycleState_eq := rfl
    events_eq := rfl
    reported_le := le_rfl
    consumed_le := le_rfl
    visible_add := rfl
    taken_le := Nat.zero_le 1
    consumed_initial := List.prefix_rfl
    unmarked := by
      intro i _ hhi
      simp only [Nat.zero_add] at hhi
      rw [Nat.mod_eq_of_lt hhi, Nat.div_eq_of_lt hhi, cycleAt_of_lt (by omega)]
      exact hbits i (by omega)
    cleared := by simp [start, Phase.unsettled]
    link_cycle := hbits n (Nat.lt_succ_self n)
    followed_le := le_rfl
    linked_add := by simp [start, Phase.unlinked, Phase.taken, laps]
    content := by simp [start] }

end

variable {size : ℕ} {s t : Transfer size} {e : TransferEvent}

/-- The controller takes exactly the committed items, in order and none before its `commit`,
in exactly those runs in which it takes no item between the two stores that mark the free
item. -/
theorem consumed_in_order_iff {buffer : Vector Trb size} {base dmaAddr : ℕ} {r : TrbRing size true}
    {es : List TransferEvent} (hsize : 3 ≤ size) (hfits : base + Trb.size * size ≤ 2 ^ 64)
    (hnew : TrbRing.new buffer base dmaAddr = .ok r) (hrun : Run Step (start r) es t) :
    (Run.Always Step (start r) es t InOrder ∧ ∀ e ∈ es, ¬e.Premature) ↔
      ∀ e ∈ es, ¬e.WhileMarking := by
  obtain ⟨n, rfl⟩ : ∃ n, size = n + 1 := ⟨size - 1, by omega⟩
  have hn : 0 < n := by omega
  have hinit : ∃ p, Inv p (start r) := ⟨_, start_inv hfits hnew⟩
  have hstep : ∀ (s : Transfer (n + 1)) e t, (∃ p, Inv p s) → Step s e t →
      ¬e.WhileMarking → ∃ p, Inv p t := by
    rintro s e t ⟨p, h⟩ hs hgood
    exact h.step (by omega) hs hgood
  have halways : Run.Always Step (start r) es t InOrder ↔ ∀ e ∈ es, ¬e.WhileMarking := by
    apply Run.always_iff (fun s => ∃ p, Inv p s) InOrder TransferEvent.WhileMarking hinit _ hstep _
      hrun
    · rintro s ⟨p, h⟩
      exact h.inOrder hn
    · rintro s e t ⟨p, h⟩ hs hbad
      exact h.whileMarking hs hbad
  rw [halways, and_iff_left_iff_imp]
  intro hgood e he
  obtain ⟨before, after, rfl⟩ := List.append_of_mem he
  obtain ⟨u, hbefore, hrest⟩ := hrun.split
  obtain ⟨v, hs, -⟩ := hrest.cons_inv
  obtain ⟨p, hinv⟩ := Run.invariant_of_good (fun s => ∃ p, Inv p s) TransferEvent.WhileMarking
    hinit hstep hbefore fun e' he' => hgood e' (List.mem_append_left _ he')
  exact hinv.not_premature hs (hgood e he)

/-- The state after a step, if it is possible. -/
def perform (s : Transfer size) : TransferEvent → Option (Transfer size)
  | .enqueue => do
    guard (s.phase = .idle ∧ s.ring.empty = true)
    let (slot, wrapped, r) ← s.ring.enqueueStart.toOption
    return { s with ring := r, phase := .marking slot wrapped }
  | .mark => do
    let .marking slot wrapped := s.phase | none
    let r ← (s.ring.modifyItem slot (·.raiseCycle (!s.ring.cycle))).toOption
    return { s with ring := r, phase := if wrapped then .linking slot else .filling slot }
  | .clearLink => do
    let .linking slot := s.phase | none
    let link ← (s.ring.item (size - 1)).toOption
    let r ← (s.ring.modifyItem (size - 1) Trb.clearCycle).toOption
    return { s with ring := r, phase := .linkCleared slot (!link.cycle) }
  | .raiseLink => do
    let .linkCleared slot set := s.phase | none
    let r ← (s.ring.modifyItem (size - 1) (·.raiseCycle set)).toOption
    return { s with ring := r, phase := .filling slot }
  | .fill t => do
    let .filling slot := s.phase | none
    let old ← (s.ring.item slot).toOption
    guard (t.cycle = old.cycle ∧ t.type ≠ Trb.linkType)
    let r ← (s.ring.modifyItem slot (fun _ => t)).toOption
    return { s with ring := r }
  | .commit => do
    let .filling slot := s.phase | none
    let t ← (s.ring.item slot).toOption
    let r ← (s.ring.modifyItem slot Trb.clearCycle).toOption
    return { s with
      ring := r
      phase := .committing slot (!t.cycle)
      committed := s.committed ++ [t.commit] }
  | .raise => do
    let .committing slot set := s.phase | none
    let r ← (s.ring.modifyItem slot (·.raiseCycle set)).toOption
    return { s with ring := r, phase := .idle }
  | .report => do
    let slot :: rest := s.events | none
    let r ← (s.ring.updateDequeuePtr (wrap (s.ring.dmaAddr + Trb.size * slot))).toOption
    return { s with ring := r, events := rest }
  | .consume slot phase => do
    let t ← (s.ring.item s.position).toOption
    guard (slot = s.position ∧ phase = s.phase ∧ t.cycle = s.cycleState ∧ t.type ≠ Trb.linkType)
    return { s with
      position := s.position + 1
      events := s.events ++ [s.position]
      consumed := s.consumed ++ [t] }
  | .follow => do
    let t ← (s.ring.item s.position).toOption
    guard (t.cycle = s.cycleState ∧ t.type = Trb.linkType)
    return { s with position := 0, cycleState := !s.cycleState }

/-- What is performed is a step. -/
theorem step_of_perform (h : s.perform e = some t) : Step s e t := by
  cases e with
  | enqueue =>
    simp only [perform, toOption_bind_eq_some, guard_bind_eq_some] at h
    obtain ⟨⟨hphase, hempty⟩, ⟨slot, wrapped, r⟩, hcall, ⟨⟩⟩ := h
    exact .enqueue hphase hempty hcall
  | mark =>
    simp only [perform] at h
    split at h
    case h_2 => cases h
    case h_1 hphase =>
      simp only [toOption_bind_eq_some] at h
      obtain ⟨r, hcall, ⟨⟩⟩ := h
      exact .mark hphase hcall
  | clearLink =>
    simp only [perform] at h
    split at h
    case h_2 => cases h
    case h_1 hphase =>
      simp only [toOption_bind_eq_some] at h
      obtain ⟨link, hitem, r, hcall, ⟨⟩⟩ := h
      exact .clearLink hphase hitem hcall
  | raiseLink =>
    simp only [perform] at h
    split at h
    case h_2 => cases h
    case h_1 hphase =>
      simp only [toOption_bind_eq_some] at h
      obtain ⟨r, hcall, ⟨⟩⟩ := h
      exact .raiseLink hphase hcall
  | fill u =>
    simp only [perform] at h
    split at h
    case h_2 => cases h
    case h_1 hphase =>
      simp only [toOption_bind_eq_some, guard_bind_eq_some] at h
      obtain ⟨old, hitem, ⟨hcycle, htype⟩, r, hcall, ⟨⟩⟩ := h
      exact .fill hphase hitem hcycle htype hcall
  | commit =>
    simp only [perform] at h
    split at h
    case h_2 => cases h
    case h_1 hphase =>
      simp only [toOption_bind_eq_some] at h
      obtain ⟨u, hitem, r, hcall, ⟨⟩⟩ := h
      exact .commit hphase hitem hcall
  | raise =>
    simp only [perform] at h
    split at h
    case h_2 => cases h
    case h_1 hphase =>
      simp only [toOption_bind_eq_some] at h
      obtain ⟨r, hcall, ⟨⟩⟩ := h
      exact .raise hphase hcall
  | report =>
    simp only [perform] at h
    split at h
    case h_2 => cases h
    case h_1 hevents =>
      simp only [toOption_bind_eq_some] at h
      obtain ⟨r, hcall, ⟨⟩⟩ := h
      exact .report hevents hcall
  | consume slot phase =>
    simp only [perform, toOption_bind_eq_some, guard_bind_eq_some] at h
    obtain ⟨u, hitem, ⟨rfl, rfl, hcycle, htype⟩, ⟨⟩⟩ := h
    exact .consume hitem hcycle htype
  | follow =>
    simp only [perform, toOption_bind_eq_some, guard_bind_eq_some] at h
    obtain ⟨u, hitem, ⟨hcycle, htype⟩, ⟨⟩⟩ := h
    exact .follow hitem hcycle htype

/-- The small ring with an idle driver. -/
def smallTransfer : Transfer 3 := start Flow.smallStart.ring

/-- Three transfers over the small ring, each completed before the next; the third one passes
the Link item. -/
def smallTransfers : List TransferEvent :=
  [.enqueue, .mark, .fill ⟨1, 2, 1024⟩, .commit, .raise, .consume 0 .idle, .report,
    .enqueue, .mark, .fill ⟨3, 4, 1024⟩, .commit, .raise, .consume 1 .idle, .report,
    .enqueue, .mark, .clearLink, .raiseLink, .follow, .commit, .raise, .consume 0 .idle, .report]

/-- The three transfers are taken in order. -/
theorem consumed_in_order_iff_small :
    ∃ t, Run Step smallTransfer smallTransfers t ∧ t.consumed.length = 3 ∧
      Run.Always Step smallTransfer smallTransfers t InOrder ∧
      ∀ e ∈ smallTransfers, ¬e.Premature := by
  have hcount : (smallTransfers.foldlM perform smallTransfer).map (·.consumed.length) = some 3 := by
    decide +kernel
  obtain ⟨t, ht, hlength⟩ := Option.map_eq_some_iff.mp hcount
  have hrun := Run.of_foldlM perform (fun _ _ _ => step_of_perform) ht
  refine ⟨t, hrun, hlength, ?_⟩
  refine (consumed_in_order_iff (le_refl 3) (by decide) Flow.new_small hrun).mpr ?_
  simp [smallTransfers, TransferEvent.WhileMarking]

/-- In the second lap the next enqueue clears the cycle bit of the second item before it sets
it. A controller that looks at the item in between takes the item of the first lap again. -/
theorem stale_item_consumed :
    ¬∀ size ≥ 3, ∀ (buffer : Vector Trb size) (base dmaAddr : ℕ) (r : TrbRing size true)
      (es : List TransferEvent) (t : Transfer size), base + Trb.size * size ≤ 2 ^ 64 →
      TrbRing.new buffer base dmaAddr = .ok r → Run Step (start r) es t →
      InOrder t ∧ ∀ e ∈ es, ¬e.Premature := by
  intro h
  let es := smallTransfers ++ [TransferEvent.enqueue, .consume 1 (.marking 1 false)]
  have hcount : (es.foldlM perform smallTransfer).map
      (fun t => (t.consumed.length, t.committed.length)) = some (4, 3) := by
    decide +kernel
  obtain ⟨t, ht, hlength⟩ := Option.map_eq_some_iff.mp hcount
  have hrun := Run.of_foldlM perform (fun _ _ _ => step_of_perform) ht
  obtain ⟨horder, -⟩ := h 3 (le_refl 3) _ _ _ _ _ t (by decide) Flow.new_small hrun
  have hle := horder.consumed_initial.length_le
  simp only [Prod.mk.injEq] at hlength
  omega

end Toyos.Xhci.Transfer
