import Toyos.Core.CompareExchange
import Toyos.Paging.Fields

/-!
# Concurrent updates of a paging entry

`set_bits` loads the entry, computes the new value and exchanges it in a loop.
Any number of agents run it at the same time, and the hardware sets the accessed
and the dirty bit in between. The entry is what the updates make of it one after
the other, in the order of their successful exchanges.
-/

namespace Toyos.Paging

open Toyos.Core Toyos.Util

/-- The bits that the hardware raises in one access. -/
structure HardwareUpdate where
  /-- The accessed bit. -/
  accessed : Bool
  /-- The dirty bit. -/
  dirty : Bool
  deriving DecidableEq, Repr

/-- The raised bits. -/
def HardwareUpdate.mask (k : HardwareUpdate) : BitVec 64 :=
  times k.accessed aMask ||| times k.dirty dMask

/-- The entry after an access. -/
def HardwareUpdate.effect (k : HardwareUpdate) (raw : BitVec 64) : BitVec 64 := raw ||| k.mask

/-- A call of `set_bits`. -/
structure SetBits where
  /-- The bits to clear. -/
  clrMask : BitVec 64
  /-- The bits to set. -/
  setMask : BitVec 64
  deriving DecidableEq, Repr

/-- The value to exchange the loaded one for. -/
def SetBits.desired (call : SetBits) (expected : BitVec 64) : BitVec 64 :=
  setBits expected call.clrMask call.setMask

section Linearization

variable {ι : Type*} [DecidableEq ι]

/-- An interleaving of the atomic steps of all agents and of the hardware. -/
def EntryRun (calls : ι → SetBits) (raw : BitVec 64) :
    List (Exchange.Event ι HardwareUpdate) → Exchange.State ι (BitVec 64) → Prop :=
  Run (fun s e t => Exchange.step (fun a => (calls a).desired) HardwareUpdate.effect s e = some t)
    (Exchange.start raw)

/-- The entry after the updates of a list, one after the other. -/
def sequentially (calls : ι → SetBits) (raw : BitVec 64) (updates : List (ι ⊕ HardwareUpdate)) :
    BitVec 64 :=
  updates.foldl (Exchange.apply (fun a => (calls a).desired) HardwareUpdate.effect) raw

variable {calls : ι → SetBits} {raw : BitVec 64} {i : ℕ}

omit [DecidableEq ι] in
/-- A raised bit stays raised under updates that do not clear it. -/
theorem getLsbD_sequentially {updates : List (ι ⊕ HardwareUpdate)}
    (hraw : raw.getLsbD i = true)
    (hclr : ∀ a, .inl a ∈ updates → (calls a).clrMask.getLsbD i = false) :
    (sequentially calls raw updates).getLsbD i = true := by
  induction updates generalizing raw with
  | nil => exact hraw
  | cons u updates ih =>
    refine ih ?_ fun a ha => hclr a (List.mem_cons_of_mem _ ha)
    cases u with
    | inl a =>
      have hkept := hclr a List.mem_cons_self
      rw [Exchange.apply, SetBits.desired, getLsbD_setBits, hraw, hkept]
      rfl
    | inr k =>
      rw [Exchange.apply, HardwareUpdate.effect, BitVec.getLsbD_or, hraw]
      rfl

end Linearization

/-- In every interleaving in which all agents finish, the entry is what all updates make of it one
after the other, in the order of their successful exchanges, each agent updates it exactly once,
and a bit raised by the hardware is kept unless a later update clears it. -/
theorem setBits_linearizable {ι : Type*} [DecidableEq ι] (calls : ι → SetBits) (raw : BitVec 64)
    (es : List (Exchange.Event ι HardwareUpdate)) (s : Exchange.State ι (BitVec 64))
    (h : EntryRun calls raw es s) (hfinished : ∀ a, s.phase a = .finished) :
    s.value = sequentially calls raw (Exchange.order es) ∧
      (∀ a, (Exchange.winners es).count a = 1) ∧
      ∀ before k after i, es = before ++ .external k :: after → k.mask.getLsbD i = true →
        (∀ a ∈ Exchange.winners after, (calls a).clrMask.getLsbD i = false) →
          s.value.getLsbD i = true := by
  have hvalue : s.value = sequentially calls raw (Exchange.order es) := Exchange.value_eq_foldl h
  obtain ⟨hnodup, hmem⟩ := Exchange.winners_spec h
  refine ⟨hvalue, fun a => ?_, ?_⟩
  · exact List.count_eq_one_of_mem hnodup ((hmem a).mpr (hfinished a))
  · rintro before k after i rfl hbit hclr
    have hsplit : sequentially calls raw (Exchange.order (before ++ .external k :: after)) =
        sequentially calls
          (k.effect (sequentially calls raw (Exchange.order before))) (Exchange.order after) := by
      rw [Exchange.order, List.filterMap_append, sequentially, List.foldl_append]
      rfl
    rw [hvalue, hsplit]
    refine getLsbD_sequentially ?_ fun a ha => hclr a ?_
    · rw [HardwareUpdate.effect, BitVec.getLsbD_or, hbit, Bool.or_true]
    · exact List.mem_filterMap.mpr ⟨.inl a, ha, rfl⟩

/-- One agent makes the entry writeable; the other two set and clear the user-mode bit. -/
def threeCalls : Fin 3 → SetBits
  | 0 => ⟨rwMask, rwMask⟩
  | 1 => ⟨usMask, usMask⟩
  | 2 => ⟨usMask, 0⟩

/-- The entry changes, and changes back, between the load and the exchange of the first agent. -/
def changedBack : List (Exchange.Event (Fin 3) HardwareUpdate) :=
  [.external ⟨true, false⟩, .load 0, .load 1, .succeed 1, .load 2, .succeed 2, .succeed 0]

/-- The present, the writeable and the accessed bit are set in the end. -/
def changedBackEnd : Exchange.State (Fin 3) (BitVec 64) := ⟨0x23#64, fun _ => .finished⟩

theorem changedBack_run : EntryRun threeCalls 0x1#64 changedBack changedBackEnd := by
  have hlast : ∃ s, EntryRun threeCalls 0x1#64 changedBack s ∧ s = changedBackEnd := by
    refine ⟨_, Run.of_foldlM _ (fun _ _ _ hs => hs) rfl, ?_⟩
    rw [changedBackEnd, Exchange.State.mk.injEq]
    refine ⟨by decide +kernel, funext fun a => ?_⟩
    revert a
    decide +kernel
  obtain ⟨s, hrun, rfl⟩ := hlast
  exact hrun

theorem setBits_linearizable_changedBack :
    changedBackEnd.value =
        sequentially threeCalls 0x1#64 [.inr ⟨true, false⟩, .inl 1, .inl 2, .inl 0] ∧
      ∀ a, (Exchange.winners changedBack).count a = 1 :=
  have h := setBits_linearizable threeCalls 0x1#64 changedBack changedBackEnd changedBack_run
    fun _ => rfl
  ⟨h.1, h.2.1⟩

end Toyos.Paging
