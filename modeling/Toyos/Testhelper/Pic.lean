import Toyos.Core.Flag
import Toyos.Util.Interval
import Toyos.Util.Math

/-!
# The programmable interrupt controllers

Two cascaded 8259 chips behind four ports, and the driver for the unit they form.
The driver speaks of vectors: a base, then the eight pins of the master and the
eight pins of the slave. Unmasking a vector of the slave also has to unmask the
cascade pin of the master. The driver calls itself for that, with the number of
the pin in place of its vector.
-/

namespace Toyos.Testhelper

open Toyos.Core Toyos.Util

/-- What a chip takes the next write to its data port for. -/
inductive Stage where
  | ready
  | icw2
  | icw3
  | icw4
  deriving DecidableEq, Repr

/-- One 8259 in a cascade. -/
structure Chip where
  /-- The interrupt mask register. -/
  imr : BitVec 8
  /-- The in-service register. -/
  isr : BitVec 8
  /-- The interrupt request register. -/
  irr : BitVec 8
  /-- Whether the command port reads as the in-service register. -/
  readIsr : Bool
  /-- The progress of an initialization. -/
  stage : Stage
  /-- Whether the initialization ends with a fourth command word. -/
  needsIcw4 : Bool
  /-- The vector of the first pin. -/
  vectorBase : BitVec 8
  /-- Whether interrupts are retired when they are accepted. -/
  autoEoi : Bool
  deriving DecidableEq, Repr

namespace Chip

/-- The pin of highest priority among those in service. -/
def highestPriority (isr : BitVec 8) : Option ℕ := (List.range 8).find? isr.getLsbD

/-- The in-service register after a non-specific end of interrupt. -/
def retire (isr : BitVec 8) : BitVec 8 :=
  match highestPriority isr with
  | none => isr
  | some i => isr &&& ~~~flag 8 i

/-- A write to the command port: the first initialization word, the selection of the register
to be read or a non-specific end of interrupt. -/
def command (c : Chip) (val : BitVec 8) : Chip :=
  if hasFlag val 4 then
    { c with imr := 0, readIsr := false, needsIcw4 := hasFlag val 0, stage := .icw2 }
  else if hasFlag val 3 then
    if hasFlag val 1 then { c with readIsr := hasFlag val 0 } else c
  else if val = 0x20 then { c with isr := retire c.isr }
  else c

/-- A write to the data port. -/
def data (c : Chip) (val : BitVec 8) : Chip :=
  match c.stage with
  | .ready => { c with imr := val }
  | .icw2 => { c with vectorBase := val, stage := .icw3 }
  | .icw3 => { c with stage := if c.needsIcw4 then .icw4 else .ready }
  | .icw4 => { c with autoEoi := hasFlag val 1, stage := .ready }

/-- A read of the command port. -/
def status (c : Chip) : BitVec 8 := if c.readIsr then c.isr else c.irr

end Chip

/-- The two chips. -/
structure Pics where
  /-- The chip connected to the processor. -/
  master : Chip
  /-- The chip connected to a pin of the master. -/
  slave : Chip
  deriving DecidableEq, Repr

/-- The ports of the two chips. -/
inductive Port where
  /-- The port 0x20. -/
  | masterCmd
  /-- The port 0xa0. -/
  | slaveCmd
  /-- The port 0x21. -/
  | masterData
  /-- The port 0xa1. -/
  | slaveData
  deriving DecidableEq, Repr

/-- Write a byte to a port. -/
def outb (port : Port) (val : BitVec 8) : StateM Pics Unit :=
  modify fun s => match port with
    | .masterCmd => { s with master := s.master.command val }
    | .slaveCmd => { s with slave := s.slave.command val }
    | .masterData => { s with master := s.master.data val }
    | .slaveData => { s with slave := s.slave.data val }

/-- Read a byte from a port. -/
def inb (port : Port) : StateM Pics (BitVec 8) := do
  let s ← get
  return match port with
    | .masterCmd => s.master.status
    | .slaveCmd => s.slave.status
    | .masterData => s.master.imr
    | .slaveData => s.slave.imr

namespace Pic

/-- The number of pins of the unit. -/
def pins : ℕ := 16

/-- The number of pins of a chip. -/
def pinsPerPic : ℕ := pins / 2

/-- The pin of the master that the slave is connected to. -/
def cascadeIrq : ℕ := 2

/-- The first initialization command word. -/
def icwInit : BitVec 8 := 0x10

/-- The announcement of a fourth command word. -/
def icwIcw4 : BitVec 8 := 0x01

/-- The fourth command word: 8086 mode, normal end of interrupt. -/
def icw8086 : BitVec 8 := 0x01

/-- Whether a vector belongs to the unit. -/
def isPicVector (base vec : ℕ) : Bool := (Interval.fromSize base pins).contains vec

/-- Whether a vector belongs to the master. -/
def isMasterVector (base vec : ℕ) : Bool := (Interval.fromSize base pinsPerPic).contains vec

/-- Whether a vector belongs to the slave. -/
def isSlaveVector (base vec : ℕ) : Bool :=
  (Interval.fromSize (base + pinsPerPic) pinsPerPic).contains vec

/-- Mask all pins. -/
def maskAll : StateM Pics Unit := do
  outb .masterData 0xff
  outb .slaveData 0xff

/-- The port accesses of the constructor. -/
def program (base : ℕ) : StateM Pics Unit := do
  outb .masterData 0xff
  outb .slaveData 0xff
  outb .masterCmd (icwInit ||| icwIcw4)
  outb .slaveCmd (icwInit ||| icwIcw4)
  outb .masterData (BitVec.ofNat 8 base)
  outb .slaveData (BitVec.ofNat 8 (base + pinsPerPic))
  outb .masterData (1 <<< cascadeIrq)
  outb .slaveData (BitVec.ofNat 8 cascadeIrq)
  outb .masterData icw8086
  outb .slaveData icw8086
  maskAll

/-- Reasons for a panic. -/
inductive Fault where
  /-- The base vector is not aligned to eight. -/
  | unaligned
  /-- The end of the bit scan, marked as unreached. -/
  | unreached
  deriving DecidableEq, Repr

/-- The chips after the constructor. -/
def construct (base : ℕ) (s : Pics) : Except Fault Pics :=
  if isAligned base 3 then .ok ((program base).run s).2 else .error .unaligned

/-- Mask a vector. -/
def mask (base vec : ℕ) : StateM Pics Unit := do
  if isMasterVector base vec then
    let pin := vec - base
    outb .masterData ((← inb .masterData) ||| flag 8 pin)
  if isSlaveVector base vec then
    let pin := vec - base - pinsPerPic
    outb .slaveData ((← inb .slaveData) ||| flag 8 pin)

section Vectors

variable {base vec : ℕ}

theorem isPicVector_iff (hbase : base < 256) :
    isPicVector base vec = true ↔ base ≤ vec ∧ vec < base + 16 :=
  Interval.contains_fromSize (by unfold pins; omega)

theorem isMasterVector_iff (hbase : base < 256) :
    isMasterVector base vec = true ↔ base ≤ vec ∧ vec < base + 8 :=
  Interval.contains_fromSize (show base + 8 < 2 ^ 64 by omega)

theorem isSlaveVector_iff (hbase : base < 256) :
    isSlaveVector base vec = true ↔ base + 8 ≤ vec ∧ vec < base + 16 :=
  Interval.contains_fromSize (show base + 8 + 8 < 2 ^ 64 by omega)

/-- No vector belongs to both chips. -/
theorem isMasterVector_of_slave (hbase : base < 256) (h : isSlaveVector base vec = true) :
    isMasterVector base vec = false := by
  rw [isSlaveVector_iff hbase] at h
  rw [Bool.eq_false_iff, ne_eq, isMasterVector_iff hbase]
  omega

end Vectors

theorem isSlaveVector_cascadeIrq (base : ℕ) : isSlaveVector base cascadeIrq = false := by
  simp [isSlaveVector, Interval.contains, Interval.fromSize, pinsPerPic, pins, cascadeIrq]

/-- Unmask a vector. -/
def unmask (base vec : ℕ) : StateM Pics Unit := do
  if isMasterVector base vec then
    let pin := vec - base
    outb .masterData ((← inb .masterData) &&& ~~~flag 8 pin)
  if isSlaveVector base vec then
    let pin := vec - base - pinsPerPic
    outb .slaveData ((← inb .slaveData) &&& ~~~flag 8 pin)
    unmask base cascadeIrq
termination_by if isSlaveVector base vec then 1 else 0
decreasing_by simp [*, isSlaveVector_cascadeIrq]

/-- The calls that change mask bits. -/
inductive MaskCall where
  | mask (vec : ℕ)
  | unmask (vec : ℕ)
  deriving DecidableEq, Repr

/-- A call. -/
def exec (base : ℕ) (s : Pics) : MaskCall → Pics
  | .mask vec => ((mask base vec).run s).2
  | .unmask vec => ((unmask base vec).run s).2

/-- A sequence of calls. -/
def execAll (base : ℕ) (s : Pics) (calls : List MaskCall) : Pics := calls.foldl (exec base) s

/-- Neither chip is being initialized. -/
structure Ready (s : Pics) : Prop where
  /-- The master takes data for its mask. -/
  master : s.master.stage = .ready
  /-- The slave takes data for its mask. -/
  slave : s.slave.stage = .ready

/-- The mask bit of a pin of the unit. -/
def masked (s : Pics) (pin : ℕ) : Bool :=
  if pin < 8 then s.master.imr.getLsbD pin else s.slave.imr.getLsbD (pin - 8)

/-- The chips with new masks. -/
def withMasks (s : Pics) (master slave : BitVec 8) : Pics :=
  ⟨{ s.master with imr := master }, { s.slave with imr := slave }⟩

section Masks

variable {base vec pin : ℕ} {s : Pics} {calls : List MaskCall}

theorem Chip.data_of_ready {c : Chip} {val : BitVec 8} (h : c.stage = .ready) :
    c.data val = { c with imr := val } := by
  rw [Chip.data, h]

theorem ready_withMasks {m sl : BitVec 8} (hs : Ready s) : Ready (withMasks s m sl) :=
  ⟨hs.master, hs.slave⟩

/-- Masking raises the bit of the vector. -/
theorem run_mask (hs : Ready s) : ((mask base vec).run s).2 = withMasks s
    (if isMasterVector base vec then s.master.imr ||| flag 8 (vec - base) else s.master.imr)
    (if isSlaveVector base vec then s.slave.imr ||| flag 8 (vec - base - 8)
      else s.slave.imr) := by
  have hrun : ((mask base vec).run s).2 =
      ⟨if isMasterVector base vec then s.master.data (s.master.imr ||| flag 8 (vec - base))
        else s.master,
      if isSlaveVector base vec then s.slave.data (s.slave.imr ||| flag 8 (vec - base - 8))
        else s.slave⟩ := by
    rw [mask]
    cases isMasterVector base vec <;> cases isSlaveVector base vec <;> rfl
  rw [hrun, Chip.data_of_ready hs.master, Chip.data_of_ready hs.slave, withMasks]
  cases isMasterVector base vec <;> cases isSlaveVector base vec <;> rfl

/-- Unmasking a vector that is not the slave's clears its bit. -/
theorem run_unmask_of_not_slave (hs : Ready s) (hvec : isSlaveVector base vec = false) :
    ((unmask base vec).run s).2 = withMasks s
      (if isMasterVector base vec then s.master.imr &&& ~~~flag 8 (vec - base) else s.master.imr)
      s.slave.imr := by
  have hrun : ((unmask base vec).run s).2 =
      ⟨if isMasterVector base vec then s.master.data (s.master.imr &&& ~~~flag 8 (vec - base))
        else s.master, s.slave⟩ := by
    rw [unmask, hvec]
    cases isMasterVector base vec <;> rfl
  rw [hrun, Chip.data_of_ready hs.master, withMasks]
  cases isMasterVector base vec <;> rfl

/-- Unmasking a vector of the slave clears its bit, then unmasks the vector 2. -/
theorem run_unmask_of_slave (hs : Ready s) (hmaster : isMasterVector base vec = false)
    (hslave : isSlaveVector base vec = true) :
    ((unmask base vec).run s).2 = ((unmask base cascadeIrq).run (withMasks s s.master.imr
      (s.slave.imr &&& ~~~flag 8 (vec - base - 8)))).2 := by
  have hrun : ((unmask base vec).run s).2 = ((unmask base cascadeIrq).run
      ⟨s.master, s.slave.data (s.slave.imr &&& ~~~flag 8 (vec - base - 8))⟩).2 := by
    rw [unmask, hmaster, hslave]
    rfl
  rw [hrun, Chip.data_of_ready hs.slave]
  rfl

/-- Calls keep the chips ready. -/
theorem ready_exec (hs : Ready s) (c : MaskCall) (hbase : base < 256) :
    Ready (exec base s c) := by
  cases c with
  | mask vec =>
    rw [exec, run_mask hs]
    exact ready_withMasks hs
  | unmask vec =>
    rw [exec]
    cases hslave : isSlaveVector base vec with
    | false =>
      rw [run_unmask_of_not_slave hs hslave]
      exact ready_withMasks hs
    | true =>
      rw [run_unmask_of_slave hs (isMasterVector_of_slave hbase hslave) hslave,
        run_unmask_of_not_slave (ready_withMasks hs) (isSlaveVector_cascadeIrq base)]
      exact ready_withMasks (ready_withMasks hs)

theorem ready_execAll (hs : Ready s) (hbase : base < 256) : Ready (execAll base s calls) := by
  rw [execAll]
  induction calls generalizing s with
  | nil => exact hs
  | cons c calls ih => exact ih (ready_exec hs c hbase)

theorem masked_withMasks {m sl : BitVec 8} : masked (withMasks s m sl) pin =
    if pin < 8 then m.getLsbD pin else sl.getLsbD (pin - 8) := rfl

theorem getLsbD_raise {v : BitVec 8} {b : Bool} {k i : ℕ} (hk : b = true → k < 8) :
    (if b then v ||| flag 8 k else v).getLsbD i = (v.getLsbD i || b && decide (i = k)) := by
  cases b with
  | false => simp
  | true => rw [if_pos rfl, BitVec.getLsbD_or, getLsbD_flag (hk rfl), Bool.true_and]

theorem getLsbD_clear {v : BitVec 8} {b : Bool} {k i : ℕ} (hk : b = true → k < 8) :
    (if b then v &&& ~~~flag 8 k else v).getLsbD i = (v.getLsbD i && !(b && decide (i = k))) := by
  cases b with
  | false => simp
  | true =>
    rw [if_pos rfl, BitVec.getLsbD_and, BitVec.getLsbD_not, getLsbD_flag (hk rfl), Bool.true_and]
    by_cases hi : i < 8
    · simp [hi]
    · simp [BitVec.getLsbD_of_ge v i (by omega)]

/-- Masking raises the mask bit of the vector and no other. -/
theorem masked_mask (hs : Ready s) (hbase : base < 256) (hpin : pin < 16) :
    masked ((mask base vec).run s).2 pin = (masked s pin || decide (base + pin = vec)) := by
  have hmaster : isMasterVector base vec = true ↔ _ := isMasterVector_iff hbase
  have hslave : isSlaveVector base vec = true ↔ _ := isSlaveVector_iff hbase
  rw [run_mask hs, masked_withMasks, masked, getLsbD_raise fun h => by have := hmaster.mp h; omega,
    getLsbD_raise fun h => by have := hslave.mp h; omega]
  grind

/-- Unmasking a vector that is not the slave's clears its mask bit and no other. -/
theorem masked_unmask_of_not_slave (hs : Ready s) (hbase : base < 256) (hpin : pin < 16)
    (h : isSlaveVector base vec = false) :
    masked ((unmask base vec).run s).2 pin = (masked s pin && !decide (base + pin = vec)) := by
  have hmaster : isMasterVector base vec = true ↔ _ := isMasterVector_iff hbase
  have hslave : isSlaveVector base vec = true ↔ _ := isSlaveVector_iff hbase
  rw [run_unmask_of_not_slave hs h, masked_withMasks, masked,
    getLsbD_clear fun h => by have := hmaster.mp h; omega]
  grind

/-- Unmasking clears the mask bit of the vector and, for a vector of the slave, that of the
vector 2. -/
theorem masked_unmask (hs : Ready s) (hbase : base < 256) (hpin : pin < 16) :
    masked ((unmask base vec).run s).2 pin = (masked s pin && !decide (base + pin = vec) &&
      !(isSlaveVector base vec && decide (base + pin = cascadeIrq))) := by
  cases hslave : isSlaveVector base vec with
  | false => simp [masked_unmask_of_not_slave hs hbase hpin hslave]
  | true =>
    rw [run_unmask_of_slave hs (isMasterVector_of_slave hbase hslave) hslave,
      masked_unmask_of_not_slave (ready_withMasks hs) hbase hpin (isSlaveVector_cascadeIrq base),
      masked_withMasks, masked]
    rw [isSlaveVector_iff hbase] at hslave
    rw [BitVec.getLsbD_and, BitVec.getLsbD_not, getLsbD_flag (by omega)]
    grind

end Masks

/-- The writes of the constructor to one of the chips. -/
def programChip (c : Chip) (base cascade : BitVec 8) : Chip :=
  (((((c.data 0xff).command (icwInit ||| icwIcw4)).data base).data cascade).data icw8086).data 0xff

/-- Whatever a chip did before, it is initialized with all pins masked. -/
theorem programChip_eq {c : Chip} {base cascade : BitVec 8} :
    programChip c base cascade = { c with
      imr := 0xff, readIsr := false, stage := .ready, needsIcw4 := true, vectorBase := base,
      autoEoi := false } := by
  have hrun : programChip c base cascade = { c with
      isr := (c.data 0xff).isr, irr := (c.data 0xff).irr, imr := 0xff, readIsr := false,
      stage := .ready, needsIcw4 := true, vectorBase := base, autoEoi := false } := rfl
  have hrequests : (c.data 0xff).isr = c.isr ∧ (c.data 0xff).irr = c.irr := by
    rw [Chip.data]
    cases c.stage <;> exact ⟨rfl, rfl⟩
  rw [hrun, hrequests.1, hrequests.2]

/-- The constructor initializes both chips. -/
theorem construct_eq {base : ℕ} {s : Pics} (haligned : 8 ∣ base) : construct base s =
    .ok ⟨programChip s.master (BitVec.ofNat 8 base) (1 <<< cascadeIrq),
      programChip s.slave (BitVec.ofNat 8 (base + pinsPerPic)) (BitVec.ofNat 8 cascadeIrq)⟩ := by
  rw [construct, if_pos ((isAligned_iff (by decide)).mpr haligned)]
  rfl

/-- The constructor leaves both chips ready. -/
theorem construct_ok {base : ℕ} {s : Pics} (haligned : 8 ∣ base) :
    ∃ t, construct base s = .ok t ∧ Ready t := by
  refine ⟨_, construct_eq haligned, ?_⟩
  rw [programChip_eq, programChip_eq]
  exact ⟨rfl, rfl⟩

/-- What masking a vector promises: exactly the bit of the vector is set. -/
def Masks (base vec : ℕ) (s t : Pics) : Prop :=
  ∀ pin < pins, masked t pin = if base + pin = vec then true else masked s pin

/-- What unmasking a vector promises: its pin is unmasked, for a vector of the slave also the
cascade pin, and all other bits are unchanged. -/
def Unmasks (base vec : ℕ) (s t : Pics) : Prop :=
  ∀ pin < pins, masked t pin =
    if base + pin = vec ∨ isSlaveVector base vec = true ∧ pin = cascadeIrq then false
    else masked s pin

section Results

variable {base vec : ℕ} {s : Pics}

theorem masks_mask (hs : Ready s) (hbase : base < 256) :
    Masks base vec s ((mask base vec).run s).2 := by
  intro pin hpin
  rw [masked_mask hs hbase hpin]
  by_cases h : base + pin = vec
  · simp [h]
  · simp [h]

/-- Unmasking works for the master, for a base of zero, or if the cascade pin needs no
unmasking. -/
theorem unmasks_unmask_iff (hs : Ready s) (hbase : base < 256) (haligned : 8 ∣ base) :
    Unmasks base vec s ((unmask base vec).run s).2 ↔
      isSlaveVector base vec = false ∨ base = 0 ∨ masked s cascadeIrq = false := by
  have hslave : isSlaveVector base vec = true ↔ _ := isSlaveVector_iff hbase
  constructor
  · intro h
    have hcascade := h cascadeIrq (by decide)
    rw [masked_unmask hs hbase (by decide)] at hcascade
    unfold cascadeIrq at hcascade ⊢
    grind
  · intro h pin hpin
    rw [masked_unmask hs hbase hpin]
    unfold cascadeIrq at h ⊢
    grind

/-- Every unmask of a history makes its vector deliverable, and every mask sets exactly its bit,
exactly if the vector is the master's, the base is zero or the cascade pin was unmasked before. -/
theorem deliverable_iff (chips : Pics) (base vec : ℕ) (calls : List MaskCall)
    (haligned : 8 ∣ base) (hbase : base + pins ≤ 256) (hvec : isPicVector base vec = true) :
    ∃ s₀, construct base chips = .ok s₀ ∧
      ((Masks base vec (execAll base s₀ calls) (exec base (execAll base s₀ calls) (.mask vec)) ∧
        Unmasks base vec (execAll base s₀ calls)
          (exec base (execAll base s₀ calls) (.unmask vec))) ↔
        isMasterVector base vec = true ∨ base = 0 ∨
          masked (execAll base s₀ calls) cascadeIrq = false) := by
  have hlt : base < 256 := by
    unfold pins at hbase
    omega
  obtain ⟨s₀, hs₀, hready⟩ := construct_ok haligned
  have hs : Ready (execAll base s₀ calls) := ready_execAll hready hlt
  have hmaster : isMasterVector base vec = true ↔ isSlaveVector base vec = false := by
    rw [isPicVector_iff hlt] at hvec
    rw [isMasterVector_iff hlt, Bool.eq_false_iff, ne_eq, isSlaveVector_iff hlt]
    omega
  refine ⟨s₀, hs₀, ?_⟩
  rw [hmaster]
  constructor
  · rintro ⟨-, hunmask⟩
    exact (unmasks_unmask_iff hs hlt haligned).mp hunmask
  · intro h
    exact ⟨masks_mask hs hlt, (unmasks_unmask_iff hs hlt haligned).mpr h⟩

end Results

/-- Chips in the state after power-on. -/
def poweredOn : Pics :=
  let chip : Chip :=
    { imr := 0, isr := 0, irr := 0, readIsr := false, stage := .ready, needsIcw4 := false,
      vectorBase := 0, autoEoi := false }
  ⟨chip, chip⟩

/-- The chips of a unit at 0x20 once they are initialized. -/
def atVector0x20 : Pics :=
  let chip : Chip :=
    { imr := 0xff, isr := 0, irr := 0, readIsr := false, stage := .ready, needsIcw4 := true,
      vectorBase := 0x20, autoEoi := false }
  ⟨chip, { chip with vectorBase := 0x28 }⟩

theorem construct_poweredOn : construct 0x20 poweredOn = .ok atVector0x20 := by
  rw [construct_eq (by decide), programChip_eq, programChip_eq]
  rfl

/-- Unmasking the vector of the timer of the slave leaves the cascade pin masked. -/
theorem cascade_stays_masked : ∃ s₀, construct 0x20 poweredOn = .ok s₀ ∧
    isSlaveVector 0x20 0x28 = true ∧ masked (exec 0x20 s₀ (.unmask 0x28)) 8 = false ∧
      masked (exec 0x20 s₀ (.unmask 0x28)) cascadeIrq = true := by
  refine ⟨_, construct_eq (by decide), by decide, ?_, ?_⟩
  · rw [programChip_eq, programChip_eq, exec, masked_unmask ⟨rfl, rfl⟩ (by decide) (by decide)]
    decide
  · rw [programChip_eq, programChip_eq, exec, masked_unmask ⟨rfl, rfl⟩ (by decide) (by decide)]
    decide

/-- The slave's first vector can be masked and unmasked once the cascade pin is unmasked, and not
right after the initialization. -/
theorem deliverable_at_0x20 :
    let s₁ := execAll 0x20 atVector0x20 [.unmask 0x22]
    construct 0x20 poweredOn = .ok atVector0x20 ∧
      Masks 0x20 0x28 s₁ (exec 0x20 s₁ (.mask 0x28)) ∧
      Unmasks 0x20 0x28 s₁ (exec 0x20 s₁ (.unmask 0x28)) ∧
      ¬(Masks 0x20 0x28 atVector0x20 (exec 0x20 atVector0x20 (.mask 0x28)) ∧
        Unmasks 0x20 0x28 atVector0x20 (exec 0x20 atVector0x20 (.unmask 0x28))) := by
  obtain ⟨s₀, hs₀, hunmasked⟩ :=
    deliverable_iff poweredOn 0x20 0x28 [.unmask 0x22] (by decide) (by decide) (by decide)
  obtain ⟨s, hs, hinitial⟩ :=
    deliverable_iff poweredOn 0x20 0x28 [] (by decide) (by decide) (by decide)
  obtain rfl := Except.ok.inj (hs₀.symm.trans construct_poweredOn)
  obtain rfl := Except.ok.inj (hs.symm.trans construct_poweredOn)
  obtain ⟨hmasks, hunmasks⟩ := hunmasked.mpr (.inr (.inr (by decide +kernel)))
  exact ⟨construct_poweredOn, hmasks, hunmasks, mt hinitial.mp (by decide +kernel)⟩

end Pic

end Toyos.Testhelper
