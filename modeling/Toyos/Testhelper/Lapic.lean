import Toyos.Core.BitField
import Toyos.Core.Flag
import Toyos.Core.Loop

/-!
# Interrupts from a local APIC to itself

An interrupt is sent by a write to the interrupt command register, whose upper half
is written first. The command is assembled as a 64-bit value. The APIC ID is shifted
to the position it has within the upper half, and is added to the lower one.
-/

namespace Toyos.Testhelper

open Toyos.Core

/-- The destination shorthand. -/
inductive DestSh where
  | noSh
  | self
  | allIncSelf
  | allExcSelf
  deriving DecidableEq, Repr

/-- The destination mode. -/
inductive DestMode where
  | physical
  | logical
  deriving DecidableEq, Repr

/-- The delivery mode. -/
inductive LvtDlvMode where
  | fixed
  | lowest
  | smi
  | nmi
  | init
  | startUp
  | extint
  deriving DecidableEq, Repr

/-- The value of a destination shorthand. -/
def DestSh.value : DestSh → BitVec 32
  | .noSh => 0
  | .self => 1
  | .allIncSelf => 2
  | .allExcSelf => 3

/-- The value of a destination mode. -/
def DestMode.value : DestMode → BitVec 32
  | .physical => 0
  | .logical => 1

/-- The value of a delivery mode. -/
def LvtDlvMode.value : LvtDlvMode → BitVec 32
  | .fixed => 0
  | .lowest => 1
  | .smi => 2
  | .nmi => 4
  | .init => 5
  | .startUp => 6
  | .extint => 7

/-- The halves of the interrupt command register. -/
inductive IcrReg where
  | high
  | low
  deriving DecidableEq, Repr

/-- A local APIC. -/
structure Lapic where
  /-- The ID register. -/
  id : BitVec 32
  /-- The spurious interrupt vector register. -/
  svr : BitVec 32
  /-- What the lower half of the interrupt command register reads as, read by read. -/
  icrLow : ℕ → BitVec 32
  /-- The number of these reads so far. -/
  reads : ℕ
  /-- The writes to the interrupt command register so far. -/
  written : List (IcrReg × BitVec 32)

namespace Lapic

/-- Reasons for stopping. -/
inductive Fault where
  /-- A failed assertion. -/
  | assertion
  /-- More polls than the bound. -/
  | unfinished
  deriving DecidableEq, Repr

/-- Position of the delivery status. -/
def dlvStsBit : ℕ := 12

/-- Mask of the vector in the spurious interrupt vector register. -/
def svrVectorMask : BitVec 32 := 0xff

/-- Position of the APIC ID within its register. -/
def lapicIdShift : ℕ := 24

/-- Mask of an APIC ID. -/
def lapicIdMask : BitVec 32 := 0xff

/-- Position of the destination within the upper half. -/
def icrDestShift : ℕ := 56 - 32

/-- Position of the destination shorthand. -/
def icrDestShShift : ℕ := 18

/-- Position of the level. -/
def icrLevelShift : ℕ := 14

/-- Position of the destination mode. -/
def icrDestModeShift : ℕ := 11

/-- Position of the delivery mode. -/
def icrDlvModeShift : ℕ := 8

/-- The level of an interrupt that is asserted. -/
def levelAssert : BitVec 32 := 1

/-- Write to the interrupt command register. -/
def writeIcr (l : Lapic) (reg : IcrReg) (value : BitVec 32) : Lapic :=
  { l with written := l.written ++ [(reg, value)] }

/-- Poll the delivery status. -/
def lapicSendPending (l : Lapic) : Bool × Lapic :=
  (hasFlag (l.icrLow l.reads) dlvStsBit, { l with reads := l.reads + 1 })

/-- A round of waiting. -/
def waitRound (l : Lapic) : Except Fault (Lapic ⊕ Lapic) :=
  let (pending, l) := l.lapicSendPending
  if pending then .ok (.inl l) else .ok (.inr l)

/-- Wait until no interrupt is being sent. -/
def waitUntilReadyForIpi (polls : ℕ) (l : Lapic) : Except Fault Lapic :=
  loop waitRound .unfinished polls l

/-- The assertions on the vector. -/
def checkVector (svr : BitVec 32) (vector : BitVec 8) (dlv : LvtDlvMode) : Except Fault Unit := do
  if dlv = .fixed ∨ dlv = .lowest then
    ensure (vector.toNat = 2 ∨ 32 ≤ vector.toNat) Fault.assertion
    ensure (vector.setWidth 32 ≠ LvtDlvMode.nmi.value) Fault.assertion
    ensure (vector ≠ (svr &&& svrVectorMask).setWidth 8) Fault.assertion
  else if dlv = .smi ∨ dlv = .init then
    ensure (vector = 0) Fault.assertion

/-- The command as it is assembled. -/
def icrEntry (id : BitVec 32) (vector : BitVec 8) (sh : DestSh) (dest : DestMode)
    (dlv : LvtDlvMode) : BitVec 64 :=
  let icrEntry := (dlv.value <<< icrDlvModeShift).setWidth 64
  let icrEntry := icrEntry ||| (dest.value <<< icrDestModeShift).setWidth 64
  let icrEntry := icrEntry ||| (levelAssert <<< icrLevelShift).setWidth 64
  let icrEntry := icrEntry ||| (sh.value <<< icrDestShShift).setWidth 64
  let icrEntry :=
    if sh = .noSh then
      let apicId := (id >>> lapicIdShift) &&& lapicIdMask
      icrEntry ||| (apicId <<< icrDestShift).setWidth 64
    else icrEntry
  icrEntry ||| vector.setWidth 64

/-- Send an interrupt. -/
def sendSelfIpi (polls : ℕ) (l : Lapic) (vector : BitVec 8) (sh : DestSh) (dest : DestMode)
    (dlv : LvtDlvMode) : Except Fault Lapic := do
  checkVector l.svr vector dlv
  let l ← waitUntilReadyForIpi polls l
  let entry := icrEntry l.id vector sh dest dlv
  let l := l.writeIcr .high ((entry >>> 32).setWidth 32)
  let l := l.writeIcr .low (entry.setWidth 32)
  waitUntilReadyForIpi polls l

/-- The lower half as specified, from the shorthand down to the vector. -/
def specLow (vector : BitVec 8) (sh : DestSh) (dest : DestMode) (dlv : LvtDlvMode) : BitVec 32 :=
  0#12 ++ sh.value.setWidth 2 ++ 0#3 ++ 1#1 ++ 0#2 ++ dest.value.setWidth 1 ++
    dlv.value.setWidth 3 ++ vector

/-- The upper half as specified: the destination unless a shorthand names it. -/
def specHigh (id : BitVec 32) (sh : DestSh) : BitVec 32 :=
  if sh = .noSh then (id >>> 24).setWidth 8 ++ 0#24 else 0

section Command

variable {id : BitVec 32} {vector : BitVec 8} {sh : DestSh} {dest : DestMode} {dlv : LvtDlvMode}
  {i : ℕ}

theorem dlv_lt : dlv.value.toNat < 2 ^ 3 := by cases dlv <;> decide

theorem dest_lt : dest.value.toNat < 2 ^ 1 := by cases dest <;> decide

theorem sh_lt : sh.value.toNat < 2 ^ 2 := by cases sh <;> decide

/-- The misplaced destination. -/
def misplaced (id : BitVec 32) (sh : DestSh) : BitVec 32 :=
  if sh = .noSh then ((id >>> lapicIdShift) &&& lapicIdMask) <<< icrDestShift else 0

/-- The parts of the command without the destination. -/
def parts (vector : BitVec 8) (sh : DestSh) (dest : DestMode) (dlv : LvtDlvMode) : BitVec 32 :=
  dlv.value <<< icrDlvModeShift ||| dest.value <<< icrDestModeShift |||
    levelAssert <<< icrLevelShift ||| sh.value <<< icrDestShShift ||| vector.setWidth 32

/-- All parts are 32 bits wide. -/
theorem icrEntry_eq : icrEntry id vector sh dest dlv =
    (parts vector sh dest dlv ||| misplaced id sh).setWidth 64 := by
  have hvector : vector.setWidth 64 = (vector.setWidth 32).setWidth 64 := by
    apply BitVec.eq_of_getLsbD_eq
    intro i hi
    simp only [BitVec.getLsbD_setWidth]
    grind
  rw [icrEntry, parts, misplaced, hvector]
  simp only [BitVec.setWidth_or]
  by_cases hsh : sh = .noSh
  · rw [if_pos hsh, if_pos hsh]
    simp only [BitVec.or_assoc]
    rw [BitVec.or_comm ((vector.setWidth 32).setWidth 64)]
  · rw [if_neg hsh, if_neg hsh]
    simp

/-- Without the destination the parts make up the lower half. -/
theorem parts_eq : parts vector sh dest dlv = specLow vector sh dest dlv := by
  have hdlv {i : ℕ} (hi : 3 ≤ i) : dlv.value.getLsbD i = false := getLsbD_of_toNat_lt dlv_lt hi
  have hdest {i : ℕ} (hi : 1 ≤ i) : dest.value.getLsbD i = false := getLsbD_of_toNat_lt dest_lt hi
  have hsh {i : ℕ} (hi : 2 ≤ i) : sh.value.getLsbD i = false := getLsbD_of_toNat_lt sh_lt hi
  have hflag : levelAssert = flag 32 0 := by decide
  have hlevel {i : ℕ} : levelAssert.getLsbD i = decide (i = 0) := by
    rw [hflag, getLsbD_flag (by decide)]
  apply BitVec.eq_of_getLsbD_eq
  intro i hi
  simp only [parts, specLow, BitVec.getLsbD_or, BitVec.getLsbD_shiftLeft, BitVec.getLsbD_append,
    BitVec.getLsbD_setWidth, BitVec.getLsbD_zero, hlevel, icrDlvModeShift, icrDestModeShift,
    icrLevelShift, icrDestShShift]
  grind

theorem and_lapicIdMask : (id >>> lapicIdShift) &&& lapicIdMask =
    ((id >>> 24).setWidth 8).setWidth 32 := by
  have hmask : lapicIdMask = (BitVec.allOnes 8).setWidth 32 := by decide
  apply BitVec.eq_of_getLsbD_eq
  intro i hi
  rw [hmask, lapicIdShift, BitVec.getLsbD_and, BitVec.getLsbD_setWidth, BitVec.getLsbD_setWidth,
    BitVec.getLsbD_setWidth, BitVec.getLsbD_allOnes]
  grind

/-- The command is as specified exactly if a shorthand is given or the APIC ID is zero. -/
theorem command_iff :
    ((icrEntry id vector sh dest dlv >>> 32).setWidth 32 = specHigh id sh ∧
      (icrEntry id vector sh dest dlv).setWidth 32 = specLow vector sh dest dlv) ↔
      sh ≠ .noSh ∨ (id >>> 24).setWidth 8 = 0#8 := by
  have hhigh (v : BitVec 32) : (v.setWidth 64 >>> 32).setWidth 32 = 0#32 := by
    apply BitVec.eq_of_getLsbD_eq
    intro i hi
    simp
  have hlow (v : BitVec 32) : (v.setWidth 64).setWidth 32 = v :=
    BitVec.setWidth_setWidth_of_le v (by decide)
  rw [icrEntry_eq, hhigh, hlow, parts_eq]
  by_cases hsh : sh = .noSh
  · rw [specHigh, misplaced, if_pos hsh, if_pos hsh, and_lapicIdMask]
    constructor
    · rintro ⟨hdest, -⟩
      refine .inr (BitVec.eq_of_getLsbD_eq fun i hi => ?_)
      have hbit := congrArg (BitVec.getLsbD · (24 + i)) hdest
      simp only [BitVec.getLsbD_append] at hbit
      simpa using hbit.symm
    · intro h
      rw [h.resolve_left (not_not.mpr hsh)]
      simp
  · simp [specHigh, misplaced, hsh]

end Command

section Waiting

variable {l l' : Lapic} {polls : ℕ}

theorem waitRound_eq : waitRound l =
    if hasFlag (l.icrLow l.reads) dlvStsBit then .ok (.inl { l with reads := l.reads + 1 })
    else .ok (.inr { l with reads := l.reads + 1 }) := rfl

/-- Waiting polls and does nothing else. -/
theorem waitUntilReadyForIpi_inv (h : waitUntilReadyForIpi polls l = .ok l') :
    ∃ n, l' = { l with reads := n } := by
  induction polls generalizing l with
  | zero => cases h
  | succ polls ih =>
    rcases loop_succ_eq_ok.mp h with hout | ⟨l₁, hnext, hrest⟩
    · rw [waitRound_eq] at hout
      split at hout
      · cases hout
      · cases hout
        exact ⟨_, rfl⟩
    · rw [waitRound_eq] at hnext
      split at hnext
      · cases hnext
        obtain ⟨n, hn⟩ := ih hrest
        exact ⟨n, hn⟩
      · cases hnext

/-- Waiting ends once the delivery status is found clear. -/
theorem waitUntilReadyForIpi_returns (h : ∃ k ≥ l.reads, hasFlag (l.icrLow k) dlvStsBit = false) :
    ∃ polls l', waitUntilReadyForIpi polls l = .ok l' := by
  obtain ⟨k, hk, hclear⟩ := h
  have hwait : ∃ l', loop waitRound .unfinished (k - l.reads + 1) l = .ok l' ∧ True := by
    refine loop_spec (fun m : Lapic => m.icrLow = l.icrLow ∧ m.reads ≤ k) (fun _ => True)
      (fun m => k - m.reads) ?_ ⟨rfl, hk⟩ (Nat.lt_succ_self _)
    rintro m ⟨hreg, hreads⟩
    rw [waitRound_eq]
    by_cases hpending : hasFlag (m.icrLow m.reads) dlvStsBit = true
    · have hne : m.reads ≠ k := by
        rintro rfl
        rw [hreg, hclear] at hpending
        cases hpending
      rw [if_pos hpending]
      exact .inr ⟨_, rfl, ⟨hreg, by dsimp only; omega⟩, by dsimp only; omega⟩
    · rw [if_neg hpending]
      exact .inl ⟨_, rfl, trivial⟩
  obtain ⟨l', hrun, -⟩ := hwait
  exact ⟨_, l', hrun⟩

/-- Whatever suffices for waiting, more polls suffice as well. -/
theorem waitUntilReadyForIpi_mono {more : ℕ} (hmore : polls ≤ more)
    (h : waitUntilReadyForIpi polls l = .ok l') : waitUntilReadyForIpi more l = .ok l' :=
  loop_mono (fun _ _ h => h) hmore h

end Waiting

section Sending

variable {l l' : Lapic} {polls : ℕ} {vector : BitVec 8} {sh : DestSh} {dest : DestMode}
  {dlv : LvtDlvMode}

/-- Sending writes the two halves of the command, the upper one first. -/
theorem written_sendSelfIpi (h : sendSelfIpi polls l vector sh dest dlv = .ok l') :
    l'.written = l.written ++
      [(.high, (icrEntry l.id vector sh dest dlv >>> 32).setWidth 32),
        (.low, (icrEntry l.id vector sh dest dlv).setWidth 32)] := by
  obtain ⟨-, -, hsend⟩ := bind_eq_ok.mp h
  obtain ⟨l₁, hfirst, hsend⟩ := bind_eq_ok.mp hsend
  obtain ⟨n, rfl⟩ := waitUntilReadyForIpi_inv hfirst
  obtain ⟨m, rfl⟩ := waitUntilReadyForIpi_inv hsend
  dsimp only [writeIcr]
  rw [List.append_assoc]
  rfl

/-- Sending returns if the assertions hold and the device is ready again and again. -/
theorem sendSelfIpi_returns (hvector : checkVector l.svr vector dlv = .ok ())
    (hready : ∀ n, ∃ k ≥ n, hasFlag (l.icrLow k) dlvStsBit = false) :
    ∃ polls l', sendSelfIpi polls l vector sh dest dlv = .ok l' := by
  obtain ⟨polls₁, l₁, hfirst⟩ := waitUntilReadyForIpi_returns (hready l.reads)
  obtain ⟨n, rfl⟩ := waitUntilReadyForIpi_inv hfirst
  let entry := icrEntry l.id vector sh dest dlv
  let sent := (writeIcr { l with reads := n } .high ((entry >>> 32).setWidth 32)).writeIcr .low
    (entry.setWidth 32)
  obtain ⟨polls₂, l₂, hsecond⟩ := waitUntilReadyForIpi_returns (l := sent) (hready n)
  refine ⟨max polls₁ polls₂, l₂, ?_⟩
  rw [sendSelfIpi, hvector, ok_bind,
    waitUntilReadyForIpi_mono (Nat.le_max_left polls₁ polls₂) hfirst, ok_bind]
  exact waitUntilReadyForIpi_mono (Nat.le_max_right polls₁ polls₂) hsecond

end Sending

/-- Whenever an interrupt has been sent, the two values written to the interrupt command register
are as specified exactly if a shorthand was given or the APIC ID is zero; and sending returns if
the assertions hold and the device is ready again and again. -/
theorem command_encoded_iff (l : Lapic) (vector : BitVec 8) (sh : DestSh) (dest : DestMode)
    (dlv : LvtDlvMode) :
    (∀ polls l', sendSelfIpi polls l vector sh dest dlv = .ok l' →
      ∃ high low, l'.written = l.written ++ [(.high, high), (.low, low)] ∧
        ((high = specHigh l.id sh ∧ low = specLow vector sh dest dlv) ↔
          sh ≠ .noSh ∨ (l.id >>> 24).setWidth 8 = 0#8)) ∧
    (checkVector l.svr vector dlv = .ok () →
      (∀ n, ∃ k ≥ n, hasFlag (l.icrLow k) dlvStsBit = false) →
        ∃ polls l', sendSelfIpi polls l vector sh dest dlv = .ok l') := by
  refine ⟨fun polls l' h => ?_, sendSelfIpi_returns⟩
  exact ⟨_, _, written_sendSelfIpi h, command_iff⟩

/-- An APIC with the ID 1 that is always ready. -/
def secondCpu : Lapic :=
  { id := 0x01000000, svr := 0x1ff, icrLow := fun _ => 0, reads := 0, written := [] }

/-- The interrupt of a processor with the ID 1 to itself goes to the processor with the ID 0, and
the ID is found among the reserved bits of the lower half. -/
theorem destination_misplaced :
    (sendSelfIpi 1 secondCpu 0x40 .noSh .physical .fixed).toOption.map written =
      some [(.high, 0x00000000#32), (.low, 0x01004040#32)] ∧
    specHigh secondCpu.id .noSh = 0x01000000#32 ∧
    specLow 0x40 .noSh .physical .fixed = 0x00004040#32 := by
  decide +kernel

end Lapic

end Toyos.Testhelper
