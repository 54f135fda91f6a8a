import Toyos.Core.Checked
import Toyos.Core.Run
import Toyos.Testhelper.Pic

/-!
# End of interrupt at the interrupt controllers

The driver ends an interrupt by a command that retires the interrupt of highest
priority in service on a chip. It chooses the chips by the highest bit of the two
in-service registers put together, while the priorities of the pins of the slave
are between those of the master's pins 1 and 3.
-/

namespace Toyos.Testhelper.Pic

open Toyos.Core Toyos.Util

/-- The command for an end of interrupt. -/
def eoiCommand : BitVec 8 := 0x20

/-- The command that makes the in-service register readable. -/
def icwIsr : BitVec 8 := 0x0b

/-- Read a register of both chips. -/
def getIrqReg (icwReg : BitVec 8) : StateM Pics (BitVec 16) := do
  outb .masterCmd icwReg
  outb .slaveCmd icwReg
  return (← inb .slaveCmd).setWidth 16 <<< 8 ||| (← inb .masterCmd).setWidth 16

/-- The in-service registers. -/
def getIsr : StateM Pics (BitVec 16) := getIrqReg icwIsr

/-- The downward scan for a bit, from the given number of positions on. -/
def highestBitFrom (val : BitVec 16) : ℕ → Except Fault (Option ℕ)
  | 0 => .error .unreached
  | pos + 1 => if (val >>> pos &&& 1) = 1 then .ok (some pos) else highestBitFrom val pos

/-- The position of the highest bit that is set. -/
def positionOfHighestBit (val : BitVec 16) : Except Fault (Option ℕ) :=
  if val = 0 then .ok none else highestBitFrom val pins

/-- The pin of the highest interrupt in service. -/
def highestPendingIsrPin : StateT Pics (Except Fault) (Option ℕ) := fun s => do
  let (isr, t) := getIsr.run s
  return (← positionOfHighestBit isr, t)

/-- The vector of the highest interrupt in service, a 16-bit value. -/
def highestPendingIsrVec (base : ℕ) : StateT Pics (Except Fault) (Option ℕ) := do
  let maybePin ← highestPendingIsrPin
  return maybePin.map fun pin => (pin + base) % 2 ^ 16

/-- End the highest interrupt. The vector is passed on as a byte. -/
def eoi (base : ℕ) : StateT Pics (Except Fault) Bool := do
  match ← highestPendingIsrVec base with
  | none => return false
  | some vec =>
    if isSlaveVector base (vec % 2 ^ 8) then
      modify fun s => ((outb .slaveCmd eoiCommand).run s).2
    modify fun s => ((outb .masterCmd eoiCommand).run s).2
    return true

/-- The interrupts from the highest to the lowest priority. -/
def order : List ℕ := [0, 1] ++ (List.range 8).map (· + 8) ++ [3, 4, 5, 6, 7]

/-- Whether an interrupt is in service. -/
def inService (s : Pics) (irq : ℕ) : Bool :=
  if irq < 8 then s.master.isr.getLsbD irq else s.slave.isr.getLsbD (irq - 8)

/-- The interrupt of highest priority in service. -/
def highest (s : Pics) : Option ℕ := order.find? (inService s)

/-- A chip that accepts a request. -/
def acceptPin (c : Chip) (pin : ℕ) : Chip :=
  { c with
    isr := if c.autoEoi then c.isr else c.isr ||| flag 8 pin
    irr := c.irr &&& ~~~flag 8 pin }

/-- The chips after the processor has accepted an interrupt. -/
def accept (s : Pics) (irq : ℕ) : Pics :=
  if irq < 8 then { s with master := acceptPin s.master irq }
  else ⟨acceptPin s.master cascadeIrq, acceptPin s.slave (irq - 8)⟩

/-- What happens to the chips. -/
inductive PicEvent where
  /-- An interrupt is accepted. -/
  | accept (irq : ℕ)
  /-- A call of `eoi`, with the chips before and after it and its result. -/
  | eoi (before after : Pics) (result : Bool)
  deriving DecidableEq, Repr

/-- An interrupt is accepted only if its priority is higher than that of all in service. -/
inductive Step (base : ℕ) : Pics → PicEvent → Pics → Prop
  | accept {s irq} : irq ∈ order →
      (∀ j ∈ order, inService s j = true → order.idxOf irq < order.idxOf j) →
      Step base s (.accept irq) (accept s irq)
  | eoi {s t result} : (eoi base).run s = .ok (result, t) → Step base s (.eoi s t result) t

/-- The in-service registers without an interrupt: its own bit and, for the slave, the cascade
bit are clear. -/
def cleared (s : Pics) (irq : ℕ) : BitVec 8 × BitVec 8 :=
  if irq < 8 then (s.master.isr &&& ~~~flag 8 irq, s.slave.isr)
  else (s.master.isr &&& ~~~flag 8 cascadeIrq, s.slave.isr &&& ~~~flag 8 (irq - 8))

/-- What an end of interrupt promises: it fails exactly if nothing is in service, and otherwise
clears exactly the state of the interrupt of highest priority. -/
structure Retires (s t : Pics) (result : Bool) : Prop where
  /-- It fails exactly if nothing is in service. -/
  fails : result = false ↔ highest s = none
  /-- It clears the interrupt of highest priority. -/
  clears : result = true → ∃ irq, highest s = some irq ∧ (t.master.isr, t.slave.isr) = cleared s irq

/-- The promise, for the calls of `eoi`. -/
def PicEvent.Retires : PicEvent → Prop
  | .accept _ => True
  | .eoi s t result => Pic.Retires s t result

/-- The chips before an end of interrupt that goes right: no interrupt of the slave is in service,
or it is recognized as the slave's and the cascade bit is the first that the master retires, or it
is not recognized and the master has one of higher priority. -/
def Manageable (base : ℕ) (s : Pics) : Prop :=
  s.slave.isr = 0#8 ∨
    base ≠ 0xf8 ∧ inService s 0 = false ∧ inService s 1 = false ∧
      (s.master.isr.getLsbD cascadeIrq = true ∨ s.master.isr = 0#8) ∨
    base = 0xf8 ∧ (inService s 0 = true ∨ inService s 1 = true)

/-- The condition, for the calls of `eoi`. -/
def PicEvent.Manageable (base : ℕ) : PicEvent → Prop
  | .accept _ => True
  | .eoi s _ _ => Pic.Manageable base s

section Scan

variable {val : BitVec 16} {m sl : BitVec 8} {n i : ℕ}

theorem and_one_eq_one : (val >>> i &&& 1) = 1 ↔ val.getLsbD i = true := by
  rw [show (1 : BitVec 16) = BitVec.twoPow 16 0 from rfl, BitVec.and_twoPow,
    BitVec.getLsbD_ushiftRight, Nat.add_zero]
  cases val.getLsbD i <;> decide

/-- The scan stops at the highest bit below its start, if there is one. -/
theorem highestBitFrom_spec (h : ∃ j < n, val.getLsbD j = true) :
    ∃ p < n, highestBitFrom val n = .ok (some p) ∧ val.getLsbD p = true ∧
      ∀ j < n, val.getLsbD j = true → j ≤ p := by
  induction n with
  | zero => omega
  | succ n ih =>
    rw [highestBitFrom]
    by_cases hbit : val.getLsbD n = true
    · exact ⟨n, by omega, if_pos (and_one_eq_one.mpr hbit), hbit, fun j hj _ => by omega⟩
    · obtain ⟨j, hj, hjbit⟩ := h
      have hne {j : ℕ} (hj : j < n + 1) (hjbit : val.getLsbD j = true) : j < n := by
        rcases Nat.lt_succ_iff_lt_or_eq.mp hj with hlt | rfl
        · exact hlt
        · exact absurd hjbit hbit
      obtain ⟨p, hp, hscan, hset, hmax⟩ := ih ⟨j, hne hj hjbit, hjbit⟩
      rw [if_neg (mt and_one_eq_one.mp hbit)]
      exact ⟨p, by omega, hscan, hset, fun j hj hjbit => hmax j (hne hj hjbit) hjbit⟩

theorem getLsbD_both : (sl.setWidth 16 <<< 8 ||| m.setWidth 16).getLsbD i =
    if i < 8 then m.getLsbD i else sl.getLsbD (i - 8) := by
  rw [BitVec.getLsbD_or, BitVec.getLsbD_shiftLeft, BitVec.getLsbD_setWidth,
    BitVec.getLsbD_setWidth]
  grind

theorem exists_bit {v : BitVec 8} (h : v ≠ 0#8) : ∃ i < 8, v.getLsbD i = true := by
  by_contra hnone
  refine h (BitVec.eq_of_getLsbD_eq fun i hi => ?_)
  have hbit : v.getLsbD i ≠ true := fun hset => hnone ⟨i, hi, hset⟩
  simpa using hbit

/-- The highest bit of both registers is the slave's if the slave has one. -/
theorem positionOfHighestBit_spec (h : m ≠ 0#8 ∨ sl ≠ 0#8) :
    ∃ p < 16, positionOfHighestBit (sl.setWidth 16 <<< 8 ||| m.setWidth 16) = .ok (some p) ∧
      (8 ≤ p ↔ sl ≠ 0#8) := by
  have hexists : ∃ j < 16, (sl.setWidth 16 <<< 8 ||| m.setWidth 16).getLsbD j = true ∧
      (sl ≠ 0#8 → 8 ≤ j) := by
    by_cases hsl : sl = 0#8
    · obtain ⟨j, hj, hbit⟩ := exists_bit (h.resolve_right (not_not.mpr hsl))
      exact ⟨j, by omega, by rw [getLsbD_both, if_pos hj, hbit], fun h => absurd hsl h⟩
    · obtain ⟨j, hj, hbit⟩ := exists_bit hsl
      refine ⟨j + 8, by omega, ?_, fun _ => by omega⟩
      rw [getLsbD_both, if_neg (by omega), Nat.add_sub_cancel, hbit]
  obtain ⟨j, hj, hbit, hslave⟩ := hexists
  have hne : sl.setWidth 16 <<< 8 ||| m.setWidth 16 ≠ 0 := by
    intro hzero
    rw [hzero] at hbit
    simp at hbit
  obtain ⟨p, hp, hscan, hset, hmax⟩ := highestBitFrom_spec ⟨j, hj, hbit⟩
  refine ⟨p, hp, (if_neg hne).trans hscan, fun hp8 => ?_, fun hsl => ?_⟩
  · rintro rfl
    rw [getLsbD_both, if_neg (by omega)] at hset
    simp at hset
  · exact (hslave hsl).trans (hmax j hj hbit)

/-- The vectors of the slave are recognized unless they exceed a byte. -/
theorem isSlaveVector_pin {base p : ℕ} (haligned : 8 ∣ base) (hbase : base < 256) (hp : p < 16) :
    isSlaveVector base ((p + base) % 2 ^ 16 % 2 ^ 8) = true ↔ 8 ≤ p ∧ base ≠ 0xf8 := by
  rw [isSlaveVector_iff hbase]
  omega

end Scan

section Eoi

variable {base : ℕ} {s t : Pics} {result : Bool}

/-- The chips with their in-service registers selected for reading. -/
def isrSelected (s : Pics) : Pics :=
  ⟨{ s.master with readIsr := true }, { s.slave with readIsr := true }⟩

theorem run_getIsr : getIsr.run s =
    (s.slave.isr.setWidth 16 <<< 8 ||| s.master.isr.setWidth 16, isrSelected s) := rfl

theorem run_highestPendingIsrVec {o : Option ℕ} (h : positionOfHighestBit
    (s.slave.isr.setWidth 16 <<< 8 ||| s.master.isr.setWidth 16) = .ok o) :
    (highestPendingIsrVec base).run s =
      .ok (o.map fun pin => (pin + base) % 2 ^ 16, isrSelected s) := by
  have hpin : highestPendingIsrPin.run s = .ok (o, isrSelected s) := by
    rw [StateT.run, highestPendingIsrPin, run_getIsr]
    dsimp only
    rw [h]
    rfl
  rw [highestPendingIsrVec, StateT.run_bind, hpin]
  rfl

theorem eoi_idle (hmaster : s.master.isr = 0#8) (hslave : s.slave.isr = 0#8) :
    (eoi base).run s = .ok (false, isrSelected s) := by
  have hnone : positionOfHighestBit
      (s.slave.isr.setWidth 16 <<< 8 ||| s.master.isr.setWidth 16) = .ok none := by
    rw [hmaster, hslave]
    rfl
  rw [eoi, StateT.run_bind, run_highestPendingIsrVec hnone]
  rfl

/-- The chips after an end of interrupt. -/
def ended (s : Pics) (slave : Bool) : Pics :=
  ⟨{ s.master with isr := Chip.retire s.master.isr, readIsr := true },
    { s.slave with isr := if slave then Chip.retire s.slave.isr else s.slave.isr
                   readIsr := true }⟩

/-- The slave is sent a command if it has an interrupt in service whose vector is recognized. -/
theorem eoi_busy (haligned : 8 ∣ base) (hbase : base < 256)
    (h : s.master.isr ≠ 0#8 ∨ s.slave.isr ≠ 0#8) :
    (eoi base).run s = .ok (true, ended s (decide (s.slave.isr ≠ 0#8 ∧ base ≠ 0xf8))) := by
  obtain ⟨p, hp, hpos, hslave⟩ := positionOfHighestBit_spec h
  have hvec : isSlaveVector base ((p + base) % 2 ^ 16 % 2 ^ 8) =
      decide (s.slave.isr ≠ 0#8 ∧ base ≠ 0xf8) := by
    rw [Bool.eq_iff_iff, isSlaveVector_pin haligned hbase hp, hslave, decide_eq_true_iff]
  rw [eoi, StateT.run_bind, run_highestPendingIsrVec hpos]
  dsimp only [Option.map_some]
  rw [ok_bind]
  dsimp only
  rw [hvec]
  cases decide (s.slave.isr ≠ 0#8 ∧ base ≠ 0xf8) <;> rfl

/-- The bit scan always finds a bit, so `eoi` returns. -/
theorem eoi_returns (haligned : 8 ∣ base) (hbase : base < 256) (s : Pics) :
    ∃ result t, (eoi base).run s = .ok (result, t) := by
  by_cases hidle : s.master.isr = 0#8 ∧ s.slave.isr = 0#8
  · exact ⟨_, _, eoi_idle hidle.1 hidle.2⟩
  · exact ⟨_, _, eoi_busy haligned hbase (by tauto)⟩

/-- What a call of `eoi` does. -/
theorem eoi_inv (haligned : 8 ∣ base) (hbase : base < 256)
    (h : (eoi base).run s = .ok (result, t)) :
    result = false ∧ s.master.isr = 0#8 ∧ s.slave.isr = 0#8 ∧ t = isrSelected s ∨
      result = true ∧ (s.master.isr ≠ 0#8 ∨ s.slave.isr ≠ 0#8) ∧
        t = ended s (decide (s.slave.isr ≠ 0#8 ∧ base ≠ 0xf8)) := by
  by_cases hidle : s.master.isr = 0#8 ∧ s.slave.isr = 0
  · rw [eoi_idle hidle.1 hidle.2] at h
    obtain ⟨rfl, rfl⟩ := Prod.mk.inj (Except.ok.inj h)
    exact .inl ⟨rfl, hidle.1, hidle.2, rfl⟩
  · have hbusy : s.master.isr ≠ 0#8 ∨ s.slave.isr ≠ 0#8 := by tauto
    rw [eoi_busy haligned hbase hbusy] at h
    obtain ⟨rfl, rfl⟩ := Prod.mk.inj (Except.ok.inj h)
    exact .inr ⟨rfl, hbusy, rfl⟩

end Eoi

section Priority

variable {v : BitVec 8} {s t : Pics} {base : ℕ} {p : ℕ} {result : Bool}

/-- Pins that none of the named ones precedes. -/
def laterPin (v : BitVec 8) : Option ℕ := [3, 4, 5, 6, 7].find? v.getLsbD

theorem highestPriority_eq : Chip.highestPriority v =
    if v.getLsbD 0 then some 0 else if v.getLsbD 1 then some 1
    else if v.getLsbD 2 then some 2 else laterPin v := by
  have hrange : List.range 8 = [0, 1, 2, 3, 4, 5, 6, 7] := rfl
  rw [Chip.highestPriority, hrange, List.find?_cons, List.find?_cons, List.find?_cons, laterPin]
  cases v.getLsbD 0 <;> cases v.getLsbD 1 <;> cases v.getLsbD 2 <;> rfl

theorem highest_eq : highest s =
    if s.master.isr.getLsbD 0 then some 0 else if s.master.isr.getLsbD 1 then some 1
    else ((Chip.highestPriority s.slave.isr).map (· + 8)).or (laterPin s.master.isr) := by
  have hslave : ((List.range 8).map (· + 8)).find? (inService s) =
      (Chip.highestPriority s.slave.isr).map (· + 8) := by
    rw [List.find?_map, Chip.highestPriority]
    rfl
  have hlater : [3, 4, 5, 6, 7].find? (inService s) = laterPin s.master.isr := rfl
  rw [highest, order, List.find?_append, List.find?_append, hslave, hlater]
  have h0 : inService s 0 = s.master.isr.getLsbD 0 := rfl
  have h1 : inService s 1 = s.master.isr.getLsbD 1 := rfl
  rw [List.find?_cons, List.find?_cons, h0, h1]
  cases s.master.isr.getLsbD 0 <;> cases s.master.isr.getLsbD 1 <;> rfl

theorem highestPriority_eq_none : Chip.highestPriority v = none ↔ v = 0#8 := by
  rw [Chip.highestPriority, List.find?_eq_none]
  constructor
  · intro h
    refine BitVec.eq_of_getLsbD_eq fun i hi => ?_
    simpa using h i (List.mem_range.mpr hi)
  · rintro rfl
    simp

/-- Retiring clears the pin of highest priority. -/
theorem retire_of_some (h : Chip.highestPriority v = some p) :
    Chip.retire v = v &&& ~~~flag 8 p := by
  rw [Chip.retire, h]

theorem retire_zero : Chip.retire 0#8 = 0#8 := rfl

/-- Retiring is never without effect if a pin is in service. -/
theorem retire_ne (h : v ≠ 0#8) : Chip.retire v ≠ v := by
  obtain ⟨p, hp⟩ := Option.ne_none_iff_exists'.mp (mt highestPriority_eq_none.mp h)
  have hset : v.getLsbD p = true := List.find?_some hp
  have hlt : p < 8 := BitVec.lt_of_getLsbD hset
  rw [retire_of_some hp]
  intro heq
  rw [← heq, BitVec.getLsbD_and, BitVec.getLsbD_not, getLsbD_flag hlt] at hset
  simp at hset

/-- With an interrupt in service the promise is about the registers only. -/
theorem retires_iff {irq : ℕ} (h : highest s = some irq) :
    Retires s t true ↔ (t.master.isr, t.slave.isr) = cleared s irq := by
  constructor
  · intro hretires
    obtain ⟨irq', hirq', hcleared⟩ := hretires.clears rfl
    obtain rfl := Option.some.inj (h.symm.trans hirq')
    exact hcleared
  · intro hcleared
    exact ⟨by simp [h], fun _ => ⟨irq, h, hcleared⟩⟩

/-- An interrupt of the master is retired alone if the slave is sent no command. -/
theorem retires_master_iff {irq : ℕ} {slave : Bool} (h : highest s = some irq) (hirq : irq < 8)
    (hfirst : Chip.highestPriority s.master.isr = some irq)
    (hslave : slave = true → s.slave.isr ≠ 0#8) :
    Retires s (ended s slave) true ↔ slave = false := by
  rw [retires_iff h, cleared, if_pos hirq, ended, retire_of_some hfirst, Prod.mk.injEq]
  cases slave with
  | false => simp
  | true => simpa using retire_ne (hslave rfl)

/-- An interrupt of the slave is retired if the slave is sent a command and the master retires
nothing but the cascade bit. -/
theorem retires_slave_iff {p : ℕ} {slave : Bool} (h : highest s = some (p + 8))
    (hfirst : Chip.highestPriority s.slave.isr = some p) :
    Retires s (ended s slave) true ↔
      slave = true ∧ Chip.retire s.master.isr = s.master.isr &&& ~~~flag 8 cascadeIrq := by
  have hne : Chip.retire s.slave.isr ≠ s.slave.isr := by
    refine retire_ne fun hzero => ?_
    rw [highestPriority_eq_none.mpr hzero] at hfirst
    cases hfirst
  rw [retires_iff h, cleared, if_neg (by omega), ended, Nat.add_sub_cancel,
    ← retire_of_some hfirst, Prod.mk.injEq]
  cases slave with
  | false => simpa using fun _ => hne.symm
  | true => simp

/-- Without pins 0 and 1 the master retires nothing but the cascade bit exactly if that bit is
set or nothing is. -/
theorem retire_eq_clear_cascade (h0 : v.getLsbD 0 = false) (h1 : v.getLsbD 1 = false) :
    Chip.retire v = v &&& ~~~flag 8 cascadeIrq ↔ v.getLsbD cascadeIrq = true ∨ v = 0#8 := by
  by_cases h2 : v.getLsbD cascadeIrq = true
  · have hfirst : Chip.highestPriority v = some cascadeIrq := by
      rw [highestPriority_eq, h0, h1, show v.getLsbD 2 = true from h2]
      rfl
    simp [h2, retire_of_some hfirst]
  · have hclear : v &&& ~~~flag 8 cascadeIrq = v :=
      and_not_flag_eq_self (by simpa using h2)
    rw [hclear]
    by_cases hv : v = 0#8
    · simp [hv, retire_zero]
    · simp [h2, hv, retire_ne hv]

/-- The cascade bit is set only for interrupts of the slave. -/
def Cascaded (s : Pics) : Prop := s.master.isr.getLsbD cascadeIrq = true → s.slave.isr ≠ 0#8

/-- An end of interrupt goes right exactly in the states that allow for it. -/
theorem retires_ended_iff (hs : Cascaded s) (hbusy : s.master.isr ≠ 0#8 ∨ s.slave.isr ≠ 0#8) :
    Retires s (ended s (decide (s.slave.isr ≠ 0#8 ∧ base ≠ 0xf8))) true ↔ Manageable base s := by
  have hfirst := highestPriority_eq (v := s.master.isr)
  have htop := highest_eq (s := s)
  have h0' : inService s 0 = s.master.isr.getLsbD 0 := rfl
  have h1' : inService s 1 = s.master.isr.getLsbD 1 := rfl
  have hcommand (h : decide (s.slave.isr ≠ 0#8 ∧ base ≠ 0xf8) = true) : s.slave.isr ≠ 0#8 :=
    (of_decide_eq_true h).1
  rw [Manageable, h0', h1']
  cases h0 : s.master.isr.getLsbD 0 with
  | true =>
    rw [h0] at hfirst htop
    rw [retires_master_iff htop (by decide) hfirst hcommand, decide_eq_false_iff_not]
    grind
  | false =>
    cases h1 : s.master.isr.getLsbD 1 with
    | true =>
      rw [h0, h1] at hfirst htop
      rw [retires_master_iff htop (by decide) hfirst hcommand, decide_eq_false_iff_not]
      grind
    | false =>
      rw [h0, h1] at hfirst htop
      cases hslave : Chip.highestPriority s.slave.isr with
      | some p =>
        rw [hslave] at htop
        have hne : s.slave.isr ≠ 0#8 := by
          rw [ne_eq, ← highestPriority_eq_none, hslave]
          simp
        rw [retires_slave_iff htop hslave, retire_eq_clear_cascade h0 h1]
        simp [hne]
      | none =>
        rw [hslave] at htop
        have hzero : s.slave.isr = 0#8 := highestPriority_eq_none.mp hslave
        have h2 : s.master.isr.getLsbD 2 = false :=
          Bool.eq_false_iff.mpr (mt hs (not_not.mpr hzero))
        rw [h2] at hfirst
        obtain ⟨irq, hirq⟩ := Option.ne_none_iff_exists'.mp
          (mt highestPriority_eq_none.mp (hbusy.resolve_right (not_not.mpr hzero)))
        have hlt : irq < 8 := BitVec.lt_of_getLsbD (List.find?_some hirq)
        rw [retires_master_iff (htop.trans (hfirst.symm.trans hirq)) hlt hirq hcommand]
        simp [hzero]

/-- Without anything in service an end of interrupt fails, as promised. -/
theorem retires_idle (hmaster : s.master.isr = 0#8) (hslave : s.slave.isr = 0#8) :
    Retires s t false := by
  refine ⟨?_, by simp⟩
  rw [highest_eq, highestPriority_eq_none.mpr hslave, hmaster]
  decide

end Priority

section Runs

variable {base : ℕ} {s t : Pics} {e : PicEvent}

/-- The chips retire interrupts on command only, and the cascade bit is set only for interrupts
of the slave. -/
structure Inv (s : Pics) : Prop where
  /-- The master does not retire interrupts by itself. -/
  master : s.master.autoEoi = false
  /-- The slave does not retire interrupts by itself. -/
  slave : s.slave.autoEoi = false
  /-- The cascade bit. -/
  cascaded : Cascaded s

/-- In good states the promise and the condition agree. -/
theorem retires_iff_manageable (haligned : 8 ∣ base) (hbase : base < 256) (hs : Inv s)
    (h : Step base s e t) : e.Retires ↔ e.Manageable base := by
  cases h with
  | accept _ _ => exact Iff.rfl
  | eoi hrun =>
    rcases eoi_inv haligned hbase hrun with ⟨rfl, hmaster, hslave, -⟩ | ⟨rfl, hbusy, rfl⟩
    · exact iff_of_true (retires_idle hmaster hslave) (.inl hslave)
    · exact retires_ended_iff hs.cascaded hbusy

theorem inv_accept {irq : ℕ} (hs : Inv s) (hirq : irq ∈ order) : Inv (accept s irq) := by
  have hpin : ∀ irq ∈ order, irq ≠ cascadeIrq ∧ irq < 16 := by decide
  obtain ⟨hne, hlt⟩ := hpin irq hirq
  rw [accept]
  by_cases hmaster : irq < 8
  · rw [if_pos hmaster]
    refine ⟨hs.master, hs.slave, ?_⟩
    intro hbit
    apply hs.cascaded
    dsimp only [acceptPin] at hbit
    rw [hs.master, if_neg (by decide), BitVec.getLsbD_or, getLsbD_flag hmaster] at hbit
    simpa [Ne.symm hne] using hbit
  · rw [if_neg hmaster]
    refine ⟨hs.master, hs.slave, ?_⟩
    intro _ hzero
    dsimp only [acceptPin] at hzero
    rw [hs.slave, if_neg (by decide)] at hzero
    have hbit : (s.slave.isr ||| flag 8 (irq - 8)).getLsbD (irq - 8) = false := by
      rw [hzero]
      simp
    rw [BitVec.getLsbD_or, getLsbD_flag (by omega)] at hbit
    simp at hbit

theorem cascaded_of_cleared {irq : ℕ} (hs : Cascaded s)
    (h : (t.master.isr, t.slave.isr) = cleared s irq) : Cascaded t := by
  intro hbit
  rw [cleared] at h
  by_cases hirq : irq < 8
  · rw [if_pos hirq] at h
    obtain ⟨hmaster, hslave⟩ := Prod.mk.inj h
    rw [hmaster, BitVec.getLsbD_and, Bool.and_eq_true] at hbit
    rw [hslave]
    exact hs hbit.1
  · rw [if_neg hirq] at h
    obtain ⟨hmaster, -⟩ := Prod.mk.inj h
    rw [hmaster, BitVec.getLsbD_and, BitVec.getLsbD_not, getLsbD_flag (by decide)] at hbit
    simp at hbit

/-- Good steps keep the invariant. -/
theorem inv_step (haligned : 8 ∣ base) (hbase : base < 256) (hs : Inv s)
    (h : Step base s e t) (he : e.Manageable base) : Inv t := by
  have hretires := (retires_iff_manageable haligned hbase hs h).mpr he
  cases h with
  | accept hirq _ => exact inv_accept hs hirq
  | eoi hrun =>
    rcases eoi_inv haligned hbase hrun with ⟨-, -, -, rfl⟩ | ⟨rfl, -, rfl⟩
    · exact ⟨hs.master, hs.slave, hs.cascaded⟩
    · refine ⟨hs.master, hs.slave, ?_⟩
      obtain ⟨irq, -, hcleared⟩ := hretires.clears rfl
      exact cascaded_of_cleared hs.cascaded hcleared

/-- Calls of `eoi` return, and in every run all of them keep their promise exactly if they all
find the chips in a state that allows for it. -/
theorem eoi_retires_iff (chips : Pics) (base : ℕ) (haligned : 8 ∣ base) (hbase : base < 256)
    (hchips : Cascaded chips) :
    ∃ s₀, construct base chips = .ok s₀ ∧ (∀ s, ∃ result t, (eoi base).run s = .ok (result, t)) ∧
      ∀ es t, Run (Step base) s₀ es t →
        ((∀ e ∈ es, e.Retires) ↔ ∀ e ∈ es, e.Manageable base) := by
  refine ⟨_, construct_eq haligned, eoi_returns haligned hbase, fun es t hrun => ?_⟩
  rw [programChip_eq, programChip_eq] at hrun
  refine Run.forall_iff_of_good Inv _ _ ?_
    (fun s e t hs h => retires_iff_manageable haligned hbase hs h)
    (fun s e t hs h he => inv_step haligned hbase hs h he) hrun
  exact ⟨rfl, rfl, hchips⟩

/-- An interrupt of the slave in service. -/
def slaveServed : Pics := accept atVector0x20 10

/-- The end of an interrupt of the slave retires it. -/
theorem eoi_retires_at_0x20 : construct 0x20 poweredOn = .ok atVector0x20 ∧
    Run (Step 0x20) atVector0x20 [.accept 10, .eoi slaveServed (ended slaveServed true) true]
      (ended slaveServed true) ∧
    Retires slaveServed (ended slaveServed true) true := by
  obtain ⟨s₀, hs₀, -, hiff⟩ :=
    eoi_retires_iff poweredOn 0x20 (by decide) (by decide) fun h => absurd h (by decide)
  obtain rfl := Except.ok.inj (hs₀.symm.trans construct_poweredOn)
  have haccept : Run (Step 0x20) atVector0x20 [.accept 10] slaveServed :=
    Run.nil.snoc (.accept (by decide) (by decide))
  have hrun : Run (Step 0x20) atVector0x20
      [.accept 10, .eoi slaveServed (ended slaveServed true) true] (ended slaveServed true) :=
    haccept.snoc (.eoi (eoi_busy (by decide) (by decide) (by decide)))
  have hmanageable : Manageable 0x20 slaveServed :=
    .inr (.inl ⟨by decide, by decide, by decide, .inl (by decide)⟩)
  have hretires := (hiff _ _ hrun).mpr
    (List.forall_mem_cons.mpr ⟨trivial, List.forall_mem_singleton.mpr hmanageable⟩)
  exact ⟨construct_poweredOn, hrun, hretires _ (List.mem_cons_of_mem _ (List.mem_singleton_self _))⟩

/-- The timer interrupt nested in an interrupt of the slave. -/
def nested : Pics := accept (accept atVector0x20 10) 0

/-- Ending the nested timer interrupt also ends the interrupt of the slave. -/
theorem nested_eoi_retires_slave : construct 0x20 poweredOn = .ok atVector0x20 ∧
    Run (Step 0x20) atVector0x20 [.accept 10, .accept 0, .eoi nested (ended nested true) true]
      (ended nested true) ∧
    highest nested = some 0 ∧ inService nested 10 = true ∧
    inService (ended nested true) 10 = false := by
  refine ⟨construct_poweredOn, ?_, by decide, by decide, by decide⟩
  have haccept : Run (Step 0x20) atVector0x20 [.accept 10] (accept atVector0x20 10) :=
    Run.nil.snoc (.accept (by decide) (by decide))
  have hnested : Run (Step 0x20) atVector0x20 [.accept 10, .accept 0] nested :=
    haccept.snoc (.accept (by decide) (by decide))
  exact hnested.snoc (.eoi (eoi_busy (by decide) (by decide) (by decide)))

end Runs

end Toyos.Testhelper.Pic
