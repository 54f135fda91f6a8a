import Toyos.Core.Flag
import Toyos.Core.Overwrite
import Toyos.Util.Math

/-!
# Segment descriptors

A `gdt_entry` holds base, limit and access rights in pieces that are spread over
a 64-bit word; the upper half of a 64-bit base is in a second word. Its getters
and setters put the pieces together and take them apart. The second word is used
only if the descriptor is a system descriptor with the granularity bit.
-/

namespace Toyos.X86

open Toyos.Core Toyos.Util

/-- The types of segments. Some names of the source share a value, which means one thing for a
system segment and another for a code or data segment. -/
inductive SegmentType where
  | reserved0
  | tss16BitAvail
  | ldt
  /-- Also `DATA_RW_ACCESS`. -/
  | tss16BitBusy
  | callGate16Bit
  | taskGate
  | intGate16Bit
  | trapGate16Bit
  | reserved1
  /-- Also `TSS_32BIT_AVAIL`. -/
  | tss64BitAvail
  | reserved2
  /-- Also `TSS_BUSY_32BIT` and `CODE_RX_ACCESS`. -/
  | tssBusy64Bit
  /-- Also `CALL_GATE_32BIT`. -/
  | callGate64Bit
  | reserved3
  /-- Also `INT_GATE_32BIT`. -/
  | intGate64Bit
  /-- Also `TRAP_GATE_32BIT`. -/
  | trapGate64Bit
  deriving DecidableEq, Repr

namespace SegmentType

/-- The value of a type. -/
def toUnderlying : SegmentType → BitVec 4
  | reserved0 => 0
  | tss16BitAvail => 1
  | ldt => 2
  | tss16BitBusy => 3
  | callGate16Bit => 4
  | taskGate => 5
  | intGate16Bit => 6
  | trapGate16Bit => 7
  | reserved1 => 8
  | tss64BitAvail => 9
  | reserved2 => 10
  | tssBusy64Bit => 11
  | callGate64Bit => 12
  | reserved3 => 13
  | intGate64Bit => 14
  | trapGate64Bit => 15

/-- The types in the order of their values. -/
def all : List SegmentType :=
  [reserved0, tss16BitAvail, ldt, tss16BitBusy, callGate16Bit, taskGate, intGate16Bit,
    trapGate16Bit, reserved1, tss64BitAvail, reserved2, tssBusy64Bit, callGate64Bit, reserved3,
    intGate64Bit, trapGate64Bit]

/-- The type of a value. -/
def ofValue (v : BitVec 4) : SegmentType := all.getD v.toNat reserved0

theorem toUnderlying_ofValue (v : BitVec 4) : (ofValue v).toUnderlying = v := by
  revert v
  decide

theorem ofValue_toUnderlying (t : SegmentType) : ofValue t.toUnderlying = t := by
  cases t <;> rfl

/-- Types with the same bits are equal. -/
theorem eq_of_bits {t t' : SegmentType}
    (h : ∀ i < 4, t.toUnderlying.getLsbD i = t'.toUnderlying.getLsbD i) : t = t' := by
  rw [← ofValue_toUnderlying t, ← ofValue_toUnderlying t', BitVec.eq_of_getLsbD_eq h]

end SegmentType

/-- A descriptor of 128 bits. -/
structure GdtEntry where
  /-- The lower half. -/
  raw : BitVec 64
  /-- The upper half. -/
  rawHigh : BitVec 64
  deriving DecidableEq, Repr

/-- A number of bits of a word from a position on. -/
def piece (v : BitVec 64) (shift width : ℕ) : BitVec 64 := v >>> shift &&& maskBits width 0

namespace GdtEntry

section Getters

variable (e : GdtEntry)

/-- The access rights. -/
def ar : BitVec 16 := (piece e.raw 40 8 ||| piece e.raw 52 4 <<< 8).setWidth 16

/-- The granularity bit. -/
def g : Bool := hasFlag e.ar 11

/-- Whether the descriptor is a system descriptor. -/
def system : Bool := !hasFlag e.ar 4

/-- The present bit. -/
def present : Bool := hasFlag e.ar 7

/-- The default-size bit. -/
def db : Bool := hasFlag e.ar 10

/-- The conforming bit. -/
def conforming : Bool := hasFlag e.ar 2

/-- The privilege level. -/
def dpl : BitVec 8 := ((e.ar &&& 3#16 <<< 5) >>> 5).setWidth 8

/-- The type. -/
def type : SegmentType := .ofValue ((e.ar.setWidth 64 &&& maskBits 4 0).setWidth 4)

/-- The stored limit. -/
def storedLimit : BitVec 32 := (piece e.raw 0 16 ||| piece e.raw 48 4 <<< 16).setWidth 32

/-- The limit in bytes. -/
def limit : BitVec 32 :=
  if e.g && !e.system then (e.storedLimit <<< 12) + 4096#32 - 1#32 else e.storedLimit

/-- The lower half of the base address. -/
def base32 : BitVec 32 :=
  (piece e.raw 16 16 ||| piece e.raw 32 8 <<< 16 ||| piece e.raw 56 8 <<< 24).setWidth 32

/-- The base address. -/
def base : BitVec 64 :=
  let result := piece e.raw 16 16 ||| piece e.raw 32 8 <<< 16 ||| piece e.raw 56 8 <<< 24
  if e.g && e.system then result ||| (e.rawHigh &&& maskBits 32 0) <<< 32 else result

end Getters

section Setters

variable (e : GdtEntry)

/-- Set the access rights. -/
def setAr (value : BitVec 16) : GdtEntry :=
  let raw := e.raw &&& ~~~maskBits 8 40
  let raw := raw &&& ~~~maskBits 4 52
  let raw := raw ||| (value.setWidth 64 &&& maskBits 8 0) <<< 40
  { e with raw := raw ||| piece (value.setWidth 64) 8 4 <<< 52 }

/-- Set the conforming bit. -/
def setConforming (c : Bool) : GdtEntry := { e with raw := putFlag e.raw 42 c }

/-- Set the type. -/
def setType (t : SegmentType) : GdtEntry :=
  e.setAr ((e.ar.setWidth 64 &&& ~~~maskBits 4 0 ||| t.toUnderlying.setWidth 64).setWidth 16)

/-- Set the granularity bit. -/
def setG (g : Bool) : GdtEntry := e.setAr (putFlag e.ar 11 g)

/-- Make the descriptor a system descriptor or not. -/
def setSystem (s : Bool) : GdtEntry := e.setAr (putFlag e.ar 4 (!s))

/-- Set the present bit. -/
def setPresent (p : Bool) : GdtEntry := e.setAr (putFlag e.ar 7 p)

/-- Set the default-size bit. -/
def setDb (db : Bool) : GdtEntry := e.setAr (putFlag e.ar 10 db)

/-- Set the limit. -/
def setLimit (l : BitVec 32) : GdtEntry :=
  let raw := e.raw &&& ~~~(maskBits 16 0 ||| maskBits 4 48)
  let raw := raw ||| maskBits 16 0 &&& l.setWidth 64
  { e with raw := raw ||| piece (l.setWidth 64) 16 4 <<< 48 }

/-- Set the base address. -/
def setBase (addr : BitVec 64) : GdtEntry :=
  let raw := e.raw &&& ~~~(maskBits 16 16 ||| maskBits 8 32 ||| maskBits 8 56)
  let raw := raw ||| ((addr &&& maskBits 16 0) <<< 16 ||| piece addr 16 8 <<< 32 |||
    piece addr 24 8 <<< 56)
  let e := { e with raw := raw }
  if e.g && e.system then
    { e with rawHigh := e.rawHigh &&& ~~~maskBits 32 0 ||| piece addr 32 32 <<< 0 }
  else e

end Setters

/-- The calls of setters. -/
inductive Call where
  | setType (t : SegmentType)
  | setSystem (s : Bool)
  | setG (g : Bool)
  | setPresent (p : Bool)
  | setDb (db : Bool)
  | setConforming (c : Bool)
  | setBase (addr : BitVec 64)
  | setLimit (l : BitVec 32)
  deriving DecidableEq, Repr

/-- A call of a setter. -/
def exec (e : GdtEntry) : Call → GdtEntry
  | .setType t => e.setType t
  | .setSystem s => e.setSystem s
  | .setG g => e.setG g
  | .setPresent p => e.setPresent p
  | .setDb db => e.setDb db
  | .setConforming c => e.setConforming c
  | .setBase addr => e.setBase addr
  | .setLimit l => e.setLimit l

/-- A sequence of calls. -/
def execAll (e : GdtEntry) (calls : List Call) : GdtEntry := calls.foldl exec e

/-- The bit that a call writes at a position of the lower half, if the position belongs to the
field it names. -/
def Call.writes (i : ℕ) : Call → Option Bool
  | .setType t => if 40 ≤ i ∧ i < 44 then some (t.toUnderlying.getLsbD (i - 40)) else none
  | .setSystem s => if i = 44 then some (!s) else none
  | .setG g => if i = 55 then some g else none
  | .setPresent p => if i = 47 then some p else none
  | .setDb db => if i = 54 then some db else none
  | .setConforming c => if i = 42 then some c else none
  | .setBase addr =>
    if 16 ≤ i ∧ i < 40 then some (addr.getLsbD (i - 16))
    else if 56 ≤ i ∧ i < 64 then some (addr.getLsbD (i - 32))
    else none
  | .setLimit l =>
    if i < 16 then some (l.getLsbD i)
    else if 48 ≤ i ∧ i < 52 then some (l.getLsbD (i - 32))
    else none

section Bits

variable {e : GdtEntry} {i : ℕ}

theorem getLsbD_piece {v : BitVec 64} {shift width : ℕ} (hwidth : width ≤ 64) :
    (piece v shift width).getLsbD i = (decide (i < width) && v.getLsbD (shift + i)) := by
  rw [piece, BitVec.getLsbD_and, BitVec.getLsbD_ushiftRight, getLsbD_maskBits hwidth]
  grind

theorem getLsbD_ar : e.ar.getLsbD i =
    if i < 8 then e.raw.getLsbD (40 + i)
    else if i < 12 then e.raw.getLsbD (44 + i)
    else false := by
  rw [ar, BitVec.getLsbD_setWidth, BitVec.getLsbD_or, BitVec.getLsbD_shiftLeft,
    getLsbD_piece (by decide), getLsbD_piece (by decide)]
  grind

/-- The access rights are written to their two places. -/
theorem getLsbD_setAr (value : BitVec 16) : (e.setAr value).raw.getLsbD i =
    if 40 ≤ i ∧ i < 48 then value.getLsbD (i - 40)
    else if 52 ≤ i ∧ i < 56 then value.getLsbD (i - 44)
    else e.raw.getLsbD i := by
  simp only [setAr, BitVec.getLsbD_or, BitVec.getLsbD_and, BitVec.getLsbD_not,
    BitVec.getLsbD_shiftLeft, getLsbD_piece (show 4 ≤ 64 by decide), BitVec.getLsbD_setWidth,
    getLsbD_maskBits (show 8 ≤ 64 by decide), getLsbD_maskBits (show 4 ≤ 64 by decide)]
  grind

/-- Position of a bit of the access rights. -/
def arPosition (nr : ℕ) : ℕ := if nr < 8 then 40 + nr else 44 + nr

/-- Writing one bit of the access rights changes that bit only. -/
theorem getLsbD_setAr_putFlag {nr : ℕ} (hnr : nr < 12) (b : Bool) :
    (e.setAr (putFlag e.ar nr b)).raw.getLsbD i =
      if i = arPosition nr then b else e.raw.getLsbD i := by
  rw [getLsbD_setAr, getLsbD_putFlag (by omega), getLsbD_putFlag (by omega), getLsbD_ar,
    getLsbD_ar, arPosition]
  grind

/-- A flag of the access rights is a bit of the lower half. -/
theorem hasFlag_ar {nr : ℕ} (hnr : nr < 12) : hasFlag e.ar nr = e.raw.getLsbD (arPosition nr) := by
  rw [hasFlag_eq, getLsbD_ar, arPosition]
  grind

theorem g_eq : e.g = e.raw.getLsbD 55 := hasFlag_ar (by decide)

theorem system_eq : e.system = !e.raw.getLsbD 44 := by rw [system, hasFlag_ar (by decide)]; rfl

theorem present_eq : e.present = e.raw.getLsbD 47 := hasFlag_ar (by decide)

theorem db_eq : e.db = e.raw.getLsbD 54 := hasFlag_ar (by decide)

theorem conforming_eq : e.conforming = e.raw.getLsbD 42 := hasFlag_ar (by decide)

/-- The type is read from four bits of the lower half. -/
theorem getLsbD_type (hi : i < 4) : e.type.toUnderlying.getLsbD i = e.raw.getLsbD (40 + i) := by
  rw [type, SegmentType.toUnderlying_ofValue, BitVec.getLsbD_setWidth, BitVec.getLsbD_and,
    BitVec.getLsbD_setWidth, getLsbD_maskBits (by decide), getLsbD_ar]
  grind

/-- The stored limit is read from two places of the lower half. -/
theorem getLsbD_storedLimit : e.storedLimit.getLsbD i =
    if i < 16 then e.raw.getLsbD i
    else if i < 20 then e.raw.getLsbD (32 + i)
    else false := by
  rw [storedLimit, BitVec.getLsbD_setWidth, BitVec.getLsbD_or, BitVec.getLsbD_shiftLeft,
    getLsbD_piece (by decide), getLsbD_piece (by decide)]
  grind

/-- The privilege level is read from two bits of the lower half. -/
theorem getLsbD_dpl : e.dpl.getLsbD i = (decide (i < 2) && e.raw.getLsbD (45 + i)) := by
  have hones : (3#16).getLsbD i = decide (i < 2) := Nat.testBit_two_pow_sub_one 2 i
  rw [dpl, BitVec.getLsbD_setWidth, BitVec.getLsbD_ushiftRight, BitVec.getLsbD_and,
    BitVec.getLsbD_shiftLeft, show 5 + i - 5 = i by omega, hones, getLsbD_ar]
  grind

/-- The pieces of the base address in the lower half. -/
theorem getLsbD_basePieces :
    (piece e.raw 16 16 ||| piece e.raw 32 8 <<< 16 ||| piece e.raw 56 8 <<< 24).getLsbD i =
      if i < 24 then e.raw.getLsbD (16 + i)
      else if i < 32 then e.raw.getLsbD (32 + i)
      else false := by
  simp only [BitVec.getLsbD_or, BitVec.getLsbD_shiftLeft, getLsbD_piece (show 16 ≤ 64 by decide),
    getLsbD_piece (show 8 ≤ 64 by decide)]
  grind

theorem getLsbD_base32 : e.base32.getLsbD i =
    if i < 24 then e.raw.getLsbD (16 + i)
    else if i < 32 then e.raw.getLsbD (32 + i)
    else false := by
  rw [base32, BitVec.getLsbD_setWidth, getLsbD_basePieces]
  grind

/-- The base address is read from two places of the lower half, and from the upper half for a
system descriptor with the granularity bit. -/
theorem getLsbD_base : e.base.getLsbD i =
    if i < 24 then e.raw.getLsbD (16 + i)
    else if i < 32 then e.raw.getLsbD (32 + i)
    else if i < 64 then e.g && e.system && e.rawHigh.getLsbD (i - 32)
    else false := by
  unfold base
  dsimp only
  split
  · rename_i hwide
    rw [BitVec.getLsbD_or, getLsbD_basePieces, BitVec.getLsbD_shiftLeft, BitVec.getLsbD_and,
      getLsbD_maskBits (by decide), hwide]
    grind
  · rename_i hnarrow
    rw [getLsbD_basePieces, Bool.eq_false_iff.mpr hnarrow]
    grind

/-- Setting the type changes the four bits of the type only. -/
theorem getLsbD_setType (t : SegmentType) : (e.setType t).raw.getLsbD i =
    if 40 ≤ i ∧ i < 44 then t.toUnderlying.getLsbD (i - 40) else e.raw.getLsbD i := by
  have htype {j : ℕ} (hj : 4 ≤ j) : t.toUnderlying.getLsbD j = false :=
    BitVec.getLsbD_of_ge _ _ hj
  rw [setType, getLsbD_setAr]
  simp only [BitVec.getLsbD_or, BitVec.getLsbD_and, BitVec.getLsbD_not, BitVec.getLsbD_setWidth,
    getLsbD_maskBits (show 4 ≤ 64 by decide), getLsbD_ar]
  grind

/-- Setting the limit changes the two places of the limit only. -/
theorem getLsbD_setLimit (l : BitVec 32) : (e.setLimit l).raw.getLsbD i =
    if i < 16 then l.getLsbD i
    else if 48 ≤ i ∧ i < 52 then l.getLsbD (i - 32)
    else e.raw.getLsbD i := by
  simp only [setLimit, BitVec.getLsbD_or, BitVec.getLsbD_and, BitVec.getLsbD_not,
    BitVec.getLsbD_shiftLeft, BitVec.getLsbD_setWidth, getLsbD_piece (show 4 ≤ 64 by decide),
    getLsbD_maskBits (show 16 ≤ 64 by decide), getLsbD_maskBits (show 4 ≤ 64 by decide)]
  grind

/-- The lower half with a new base address. -/
def rawBase (e : GdtEntry) (addr : BitVec 64) : BitVec 64 :=
  e.raw &&& ~~~(maskBits 16 16 ||| maskBits 8 32 ||| maskBits 8 56) |||
    ((addr &&& maskBits 16 0) <<< 16 ||| piece addr 16 8 <<< 32 ||| piece addr 24 8 <<< 56)

/-- Setting the base address changes the two places of the base address only. -/
theorem getLsbD_rawBase (addr : BitVec 64) : (e.rawBase addr).getLsbD i =
    if 16 ≤ i ∧ i < 40 then addr.getLsbD (i - 16)
    else if 56 ≤ i ∧ i < 64 then addr.getLsbD (i - 32)
    else e.raw.getLsbD i := by
  simp only [rawBase, BitVec.getLsbD_or, BitVec.getLsbD_and, BitVec.getLsbD_not,
    BitVec.getLsbD_shiftLeft, getLsbD_piece (show 8 ≤ 64 by decide),
    getLsbD_maskBits (show 16 ≤ 64 by decide), getLsbD_maskBits (show 8 ≤ 64 by decide)]
  grind

/-- The upper half is written for a system descriptor with the granularity bit. -/
theorem setBase_eq (addr : BitVec 64) : e.setBase addr =
    ⟨e.rawBase addr, if e.g && e.system then
      e.rawHigh &&& ~~~maskBits 32 0 ||| piece addr 32 32 <<< 0 else e.rawHigh⟩ := by
  have hg : (GdtEntry.mk (e.rawBase addr) e.rawHigh).g = e.g := by
    rw [g_eq, g_eq, getLsbD_rawBase]
    rfl
  have hsystem : (GdtEntry.mk (e.rawBase addr) e.rawHigh).system = e.system := by
    rw [system_eq, system_eq, getLsbD_rawBase]
    rfl
  rw [← hg, ← hsystem]
  unfold setBase
  dsimp only
  rw [← rawBase]
  split <;> rfl

/-- A call writes the bits of its field and no others. -/
theorem getLsbD_exec (c : Call) :
    (e.exec c).raw.getLsbD i = (c.writes i).getD (e.raw.getLsbD i) := by
  cases c with
  | setType t =>
    rw [exec, getLsbD_setType]
    grind [Call.writes]
  | setSystem s =>
    rw [exec, setSystem, getLsbD_setAr_putFlag (by decide)]
    grind [arPosition, Call.writes]
  | setG g =>
    rw [exec, setG, getLsbD_setAr_putFlag (by decide)]
    grind [arPosition, Call.writes]
  | setPresent p =>
    rw [exec, setPresent, getLsbD_setAr_putFlag (by decide)]
    grind [arPosition, Call.writes]
  | setDb db =>
    rw [exec, setDb, getLsbD_setAr_putFlag (by decide)]
    grind [arPosition, Call.writes]
  | setConforming c =>
    rw [exec, setConforming, getLsbD_putFlag (by decide)]
    grind [Call.writes]
  | setBase addr =>
    rw [exec, setBase_eq, getLsbD_rawBase]
    grind [Call.writes]
  | setLimit l =>
    rw [exec, getLsbD_setLimit]
    grind [Call.writes]

/-- Only `set_base` changes the upper half, and only the upper half of the base address there. -/
theorem getLsbD_rawHigh_exec (c : Call) : (e.exec c).rawHigh.getLsbD i =
    match c with
    | .setBase addr =>
      if (e.g && e.system) = true ∧ i < 32 then addr.getLsbD (32 + i) else e.rawHigh.getLsbD i
    | _ => e.rawHigh.getLsbD i := by
  cases c with
  | setBase addr =>
    rw [exec, setBase_eq]
    dsimp only
    split
    · simp only [BitVec.getLsbD_or, BitVec.getLsbD_and, BitVec.getLsbD_not,
        BitVec.getLsbD_shiftLeft, getLsbD_piece (show 32 ≤ 64 by decide),
        getLsbD_maskBits (show 32 ≤ 64 by decide)]
      grind
    · grind
  | _ => rfl

end Bits

/-- The setters, without their arguments. -/
inductive Setter where
  | type
  | system
  | g
  | present
  | db
  | conforming
  | base
  | limit
  deriving DecidableEq, Repr

/-- The setter of a call. -/
def Call.setter : Call → Setter
  | .setType _ => .type
  | .setSystem _ => .system
  | .setG _ => .g
  | .setPresent _ => .present
  | .setDb _ => .db
  | .setConforming _ => .conforming
  | .setBase _ => .base
  | .setLimit _ => .limit

/-- The type after later calls: `set_conforming` replaces one bit of it. -/
def typeAfter (t : SegmentType) (calls : List Call) : SegmentType :=
  calls.foldl (fun t c => match c with
    | .setConforming b => .ofValue (putFlag t.toUnderlying 2 b)
    | _ => t) t

/-- After a sequence of calls every field is what was last passed to its setter, and no call has
changed a bit outside the field it names. -/
structure FieldAlgebra (e : GdtEntry) (calls : List Call) : Prop where
  /-- The base address, of 64 bits for a system descriptor and of 32 bits otherwise. -/
  base : ∀ before addr after, calls = before ++ .setBase addr :: after →
    (∀ c ∈ after, c.setter ≠ .base) → (e.execAll calls).base =
      if (e.execAll calls).system then addr else (addr.setWidth 32).setWidth 64
  /-- The limit of 20 bits. -/
  limit : ∀ before l after, calls = before ++ .setLimit l :: after →
    (∀ c ∈ after, c.setter ≠ .limit) → (e.execAll calls).storedLimit = (l.setWidth 20).setWidth 32
  /-- The type, apart from the bit of a later `set_conforming`. -/
  type : ∀ before t after, calls = before ++ .setType t :: after →
    (∀ c ∈ after, c.setter ≠ .type) → (e.execAll calls).type = typeAfter t after
  /-- The conforming bit. -/
  conforming : ∀ before b after, calls = before ++ .setConforming b :: after →
    (∀ c ∈ after, c.setter ≠ .conforming ∧ c.setter ≠ .type) → (e.execAll calls).conforming = b
  /-- Whether it is a system descriptor. -/
  system : ∀ before b after, calls = before ++ .setSystem b :: after →
    (∀ c ∈ after, c.setter ≠ .system) → (e.execAll calls).system = b
  /-- The granularity bit. -/
  g : ∀ before b after, calls = before ++ .setG b :: after →
    (∀ c ∈ after, c.setter ≠ .g) → (e.execAll calls).g = b
  /-- The present bit. -/
  present : ∀ before b after, calls = before ++ .setPresent b :: after →
    (∀ c ∈ after, c.setter ≠ .present) → (e.execAll calls).present = b
  /-- The default-size bit. -/
  db : ∀ before b after, calls = before ++ .setDb b :: after →
    (∀ c ∈ after, c.setter ≠ .db) → (e.execAll calls).db = b
  /-- The lower half keeps all bits that a call does not name. -/
  frame : ∀ before c after, calls = before ++ c :: after → ∀ i, c.writes i = none →
    ((e.execAll before).exec c).raw.getLsbD i = (e.execAll before).raw.getLsbD i
  /-- The upper half keeps all bits but those of the base address of a system descriptor. -/
  frameHigh : ∀ before c after, calls = before ++ c :: after → ∀ i,
    c.setter ≠ .base ∨ 32 ≤ i ∨ (e.execAll before).system = false →
      ((e.execAll before).exec c).rawHigh.getLsbD i = (e.execAll before).rawHigh.getLsbD i

section Sequences

variable {e : GdtEntry} {calls before after : List Call} {c : Call} {i : ℕ}

theorem execAll_append_cons :
    e.execAll (before ++ c :: after) = ((e.execAll before).exec c).execAll after := by
  rw [execAll, List.foldl_append]
  rfl

/-- The last call that writes a bit determines it. -/
theorem getLsbD_execAll {b : Bool} (hwrites : c.writes i = some b)
    (hlast : ∀ c ∈ after, c.writes i = none) :
    (e.execAll (before ++ c :: after)).raw.getLsbD i = b := by
  have hbit : Overwrites exec (fun e => e.raw.getLsbD i) (Call.writes i) :=
    fun _ c => getLsbD_exec c
  exact hbit.foldl_last hwrites hlast

/-- The positions of the base address belong to `set_base`. -/
theorem writes_of_ne_base (h : c.setter ≠ .base) (hi : 16 ≤ i ∧ i < 40 ∨ 56 ≤ i ∧ i < 64) :
    c.writes i = none := by
  cases c <;> grind [Call.writes, Call.setter]

/-- The positions of the limit belong to `set_limit`. -/
theorem writes_of_ne_limit (h : c.setter ≠ .limit) (hi : i < 16 ∨ 48 ≤ i ∧ i < 52) :
    c.writes i = none := by
  cases c <;> grind [Call.writes, Call.setter]

/-- The positions of the flags belong to their setters. -/
theorem writes_flag (c : Call) :
    (c.setter ≠ .system → c.writes 44 = none) ∧ (c.setter ≠ .g → c.writes 55 = none) ∧
      (c.setter ≠ .present → c.writes 47 = none) ∧ (c.setter ≠ .db → c.writes 54 = none) ∧
      (c.setter ≠ .conforming ∧ c.setter ≠ .type → c.writes 42 = none) := by
  cases c <;> simp [Call.writes, Call.setter]

/-- The last `set_limit` determines the stored limit. -/
theorem storedLimit_execAll {l : BitVec 32} (hlast : ∀ c ∈ after, c.setter ≠ .limit) :
    (e.execAll (before ++ .setLimit l :: after)).storedLimit = (l.setWidth 20).setWidth 32 := by
  have hbit {i : ℕ} (hi : i < 16 ∨ 48 ≤ i ∧ i < 52) {b : Bool}
      (hb : (Call.setLimit l).writes i = some b) :
      (e.execAll (before ++ .setLimit l :: after)).raw.getLsbD i = b :=
    getLsbD_execAll hb fun c hc => writes_of_ne_limit (hlast c hc) hi
  apply BitVec.eq_of_getLsbD_eq
  intro i hi
  rw [getLsbD_storedLimit, BitVec.getLsbD_setWidth, BitVec.getLsbD_setWidth]
  by_cases hlow : i < 16
  · rw [if_pos hlow, hbit (.inl hlow) (if_pos hlow)]
    grind
  · by_cases hhigh : i < 20
    · rw [if_neg hlow, if_pos hhigh, hbit (by omega) (b := l.getLsbD i) (by grind [Call.writes])]
      grind
    · grind

/-- The upper half after the last `set_base`. -/
theorem rawHigh_execAll {addr : BitVec 64} (hlast : ∀ c ∈ after, c.setter ≠ .base) (hi : i < 32) :
    (e.execAll (before ++ .setBase addr :: after)).rawHigh.getLsbD i =
      if ((e.execAll before).g && (e.execAll before).system) = true then addr.getLsbD (32 + i)
      else (e.execAll before).rawHigh.getLsbD i := by
  have hkeep (e : GdtEntry) : (e.execAll after).rawHigh.getLsbD i = e.rawHigh.getLsbD i := by
    refine List.foldlRecOn (motive := fun e' => e'.rawHigh.getLsbD i = e.rawHigh.getLsbD i)
      after exec rfl fun e' he' c hc => ?_
    rw [getLsbD_rawHigh_exec, ← he']
    cases c <;> grind [Call.setter]
  rw [execAll_append_cons, hkeep, getLsbD_rawHigh_exec]
  simp [hi]

/-- The base address after the last `set_base`. -/
theorem getLsbD_base_execAll {addr : BitVec 64} (hlast : ∀ c ∈ after, c.setter ≠ .base)
    (hi : i < 64) : (e.execAll (before ++ .setBase addr :: after)).base.getLsbD i =
      if i < 32 then addr.getLsbD i
      else (e.execAll (before ++ .setBase addr :: after)).g &&
        (e.execAll (before ++ .setBase addr :: after)).system &&
        if ((e.execAll before).g && (e.execAll before).system) = true then addr.getLsbD i
        else (e.execAll before).rawHigh.getLsbD (i - 32) := by
  have hbit {i : ℕ} (hi : 16 ≤ i ∧ i < 40 ∨ 56 ≤ i ∧ i < 64) {b : Bool}
      (hb : (Call.setBase addr).writes i = some b) :
      (e.execAll (before ++ .setBase addr :: after)).raw.getLsbD i = b :=
    getLsbD_execAll hb fun c hc => writes_of_ne_base (hlast c hc) hi
  rw [getLsbD_base]
  by_cases hlow : i < 24
  · rw [if_pos hlow, if_pos (by omega), hbit (b := addr.getLsbD i) (by omega)
      (by grind [Call.writes])]
  · by_cases hmid : i < 32
    · rw [if_neg hlow, if_pos hmid, if_pos hmid, hbit (b := addr.getLsbD i) (by omega)
        (by grind [Call.writes])]
    · rw [if_neg hlow, if_neg hmid, if_pos hi, if_neg hmid, rawHigh_execAll hlast (by omega),
        show 32 + (i - 32) = i by omega]

/-- Calls other than `set_type` change the type at most in the conforming bit. -/
theorem type_execAll (hlast : ∀ c ∈ after, c.setter ≠ .type) :
    (e.execAll after).type = typeAfter e.type after := by
  induction after generalizing e with
  | nil => rfl
  | cons c after ih =>
    rw [List.forall_mem_cons] at hlast
    have hstep : (e.exec c).type = typeAfter e.type [c] := by
      refine SegmentType.eq_of_bits fun i hi => ?_
      rw [getLsbD_type hi, getLsbD_exec]
      cases c with
      | setType t => exact absurd rfl hlast.1
      | setConforming b =>
        rw [typeAfter, List.foldl_cons, List.foldl_nil, SegmentType.toUnderlying_ofValue,
          getLsbD_putFlag (by decide), getLsbD_type hi]
        grind [Call.writes]
      | _ =>
        refine Eq.trans ?_ (getLsbD_type hi).symm
        grind [Call.writes]
    have hrest : (e.execAll (c :: after)).type = typeAfter (e.exec c).type after := ih hlast.2
    rw [hrest, hstep]
    rfl

/-- The last `set_type` and later calls of `set_conforming` determine the type. -/
theorem type_execAll_last {t : SegmentType} (hlast : ∀ c ∈ after, c.setter ≠ .type) :
    (e.execAll (before ++ .setType t :: after)).type = typeAfter t after := by
  have htype (e : GdtEntry) : (e.exec (.setType t)).type = t := by
    refine SegmentType.eq_of_bits fun i hi => ?_
    rw [getLsbD_type hi, getLsbD_exec]
    grind [Call.writes]
  rw [execAll_append_cons, type_execAll hlast, htype]

/-- An address whose lower half is right is the whole one exactly if its upper half is. -/
theorem eq_iff_upper {b addr : BitVec 64} (hlow : ∀ i < 32, b.getLsbD i = addr.getLsbD i) :
    b = addr ↔ ∀ i < 32, b.getLsbD (32 + i) = addr.getLsbD (32 + i) := by
  refine ⟨fun h i _ => by rw [h], fun h => ?_⟩
  apply BitVec.eq_of_getLsbD_eq
  intro i hi
  by_cases hi' : i < 32
  · exact hlow i hi'
  · have hbit := h (i - 32) (by omega)
    rwa [show 32 + (i - 32) = i by omega] at hbit

theorem ushiftRight_eq_zero_iff {addr : BitVec 64} :
    addr >>> 32 = 0 ↔ ∀ i < 32, addr.getLsbD (32 + i) = false := by
  rw [BitVec.eq_of_getLsbD_eq_iff]
  simp only [BitVec.getLsbD_ushiftRight, BitVec.ofNat_eq_ofNat, BitVec.getLsbD_zero]
  refine ⟨fun h i hi => h i (by omega), fun h i _ => ?_⟩
  by_cases hi' : i < 32
  · exact h i hi'
  · exact BitVec.getLsbD_of_ge _ _ (by omega)

theorem setWidth_eq_upper_iff {high addr : BitVec 64} :
    high.setWidth 32 = (addr >>> 32).setWidth 32 ↔
      ∀ i < 32, high.getLsbD i = addr.getLsbD (32 + i) := by
  rw [BitVec.eq_of_getLsbD_eq_iff]
  refine forall₂_congr fun i hi => ?_
  rw [BitVec.getLsbD_setWidth, BitVec.getLsbD_setWidth, BitVec.getLsbD_ushiftRight]
  simp [hi]

/-- When the base address reads as it was set, for a descriptor with the flags it has in the end:
the upper half of the address was written, or was already there, or is neither read nor needed. -/
def BaseKept (before final : GdtEntry) (addr : BitVec 64) : Prop :=
  final.system = true →
    if final.g then
      (before.g = true ∧ before.system = true) ∨
        before.rawHigh.setWidth 32 = (addr >>> 32).setWidth 32
    else addr >>> 32 = 0

/-- The base address reads as it was set exactly under that condition. -/
theorem base_execAll_iff {addr : BitVec 64} (hlast : ∀ c ∈ after, c.setter ≠ .base) :
    ((e.execAll (before ++ .setBase addr :: after)).base =
      if (e.execAll (before ++ .setBase addr :: after)).system then addr
      else (addr.setWidth 32).setWidth 64) ↔
        BaseKept (e.execAll before) (e.execAll (before ++ .setBase addr :: after)) addr := by
  generalize hfinal : e.execAll (before ++ .setBase addr :: after) = final
  have hbase {i : ℕ} (hi : i < 64) : final.base.getLsbD i =
      if i < 32 then addr.getLsbD i
      else final.g && final.system &&
        if ((e.execAll before).g && (e.execAll before).system) = true then addr.getLsbD i
        else (e.execAll before).rawHigh.getLsbD (i - 32) := by
    rw [← hfinal]
    exact getLsbD_base_execAll hlast hi
  have hlow : ∀ i < 32, final.base.getLsbD i = addr.getLsbD i := fun i hi => by
    rw [hbase (by omega), if_pos hi]
  have hhigh {i : ℕ} (hi : i < 32) : final.base.getLsbD (32 + i) =
      (final.g && final.system &&
        if ((e.execAll before).g && (e.execAll before).system) = true then addr.getLsbD (32 + i)
        else (e.execAll before).rawHigh.getLsbD i) := by
    rw [hbase (by omega), if_neg (by omega), show 32 + i - 32 = i by omega]
  unfold BaseKept
  cases hsystem : final.system with
  | false =>
    refine iff_of_true ?_ fun h => by cases h
    apply BitVec.eq_of_getLsbD_eq
    intro i hi
    rw [hbase hi, hsystem]
    grind
  | true =>
    simp only [if_true, forall_const]
    rw [eq_iff_upper hlow]
    cases hg : final.g with
    | false =>
      rw [if_neg (by decide), ushiftRight_eq_zero_iff]
      refine forall₂_congr fun i hi => ?_
      rw [hhigh hi, hg, Bool.false_and, Bool.false_and, eq_comm]
    | true =>
      rw [if_pos rfl, setWidth_eq_upper_iff, ← Bool.and_eq_true]
      by_cases hwritten : ((e.execAll before).g && (e.execAll before).system) = true
      · refine iff_of_true (fun i hi => ?_) (.inl hwritten)
        rw [hhigh hi, hg, hsystem, if_pos hwritten]
        rfl
      · rw [or_iff_right hwritten]
        refine forall₂_congr fun i hi => ?_
        rw [hhigh hi, hg, hsystem, if_neg hwritten]
        rfl

end Sequences

/-- After every sequence of calls all fields but the base address are what was last written, and no
call has changed anything else; the base address is what was last set when, and only when, its
upper half was written and is read, or makes no difference. -/
theorem fieldAlgebra_iff (e : GdtEntry) (calls : List Call) :
    FieldAlgebra e calls ↔ ∀ before addr after, calls = before ++ .setBase addr :: after →
      (∀ c ∈ after, c.setter ≠ .base) →
        BaseKept (e.execAll before) (e.execAll calls) addr := by
  constructor
  · rintro h before addr after rfl hlast
    exact (base_execAll_iff hlast).mp (h.base before addr after rfl hlast)
  · intro h
    refine ⟨?_, ?_, ?_, ?_, ?_, ?_, ?_, ?_, ?_, ?_⟩
    · rintro before addr after rfl hlast
      exact (base_execAll_iff hlast).mpr (h before addr after rfl hlast)
    · rintro before l after rfl hlast
      exact storedLimit_execAll hlast
    · rintro before t after rfl hlast
      exact type_execAll_last hlast
    · rintro before b after rfl hlast
      rw [conforming_eq]
      exact getLsbD_execAll rfl fun c hc => (writes_flag c).2.2.2.2 (hlast c hc)
    · rintro before b after rfl hlast
      have hbit : (e.execAll (before ++ .setSystem b :: after)).raw.getLsbD 44 = !b :=
        getLsbD_execAll rfl fun c hc => (writes_flag c).1 (hlast c hc)
      rw [system_eq, hbit, Bool.not_not]
    · rintro before b after rfl hlast
      rw [g_eq]
      exact getLsbD_execAll rfl fun c hc => (writes_flag c).2.1 (hlast c hc)
    · rintro before b after rfl hlast
      rw [present_eq]
      exact getLsbD_execAll rfl fun c hc => (writes_flag c).2.2.1 (hlast c hc)
    · rintro before b after rfl hlast
      rw [db_eq]
      exact getLsbD_execAll rfl fun c hc => (writes_flag c).2.2.2.1 (hlast c hc)
    · rintro before c after - i hi
      rw [getLsbD_exec, hi]
      rfl
    · rintro before c after - i hi
      rw [getLsbD_rawHigh_exec]
      cases c <;> grind [Call.setter]

/-- The calls of `init_tss`. -/
def initTss (tss : BitVec 64) (size : BitVec 32) : List Call :=
  [.setSystem true, .setG false, .setBase tss, .setLimit size, .setPresent true,
    .setType .tss64BitAvail]

/-- The descriptor of a task-state segment in the upper half of the address space reads as if the
segment were in the lower four gigabytes. -/
theorem tss_base_truncated :
    ((GdtEntry.mk 0 0).execAll (initTss 0xffff800000001000#64 104#32)).system = true ∧
      ((GdtEntry.mk 0 0).execAll (initTss 0xffff800000001000#64 104#32)).base = 0x1000#64 ∧
      ¬FieldAlgebra (GdtEntry.mk 0 0) (initTss 0xffff800000001000#64 104#32) := by
  refine ⟨by decide +kernel, by decide +kernel, fun h => ?_⟩
  have hbase := h.base [.setSystem true, .setG false] 0xffff800000001000#64
    [.setLimit 104#32, .setPresent true, .setType .tss64BitAvail] rfl (by decide)
  revert hbase
  decide +kernel

end GdtEntry

end Toyos.X86
