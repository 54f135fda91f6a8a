import Toyos.Pci.Bar
import Toyos.Pci.Bus

/-!
# Registers of a device and the walk over its base address registers

The header of a function tells how many slots there are for base address
registers. A 64-bit memory region takes two slots and everything else takes one.
The iterator of `get_bars` reads the step width from the two width bits, which
are address bits in the register of an I/O region.
-/

namespace Toyos.Pci

open Toyos.Core Toyos.Util

namespace PciDevice

/-- Offset of the register with the class codes. -/
def classRegister : ℕ := 0x08

/-- Offset of the register with the header type. -/
def headerType : ℕ := 0x0c

/-- Offset of the first base address register. -/
def barRegister : ℕ := 0x10

/-- Number of slots in a general header. -/
def numBars : ℕ := 6

/-- Number of slots in the header of a bridge. -/
def numBarsBridge : ℕ := 2

section Registers

variable (config : ConfigSpace) (d : PciDevice)

/-- Device id of the function. -/
def deviceId : BitVec 16 := (d.read config deviceVendorId 16).setWidth 16

/-- Class of the function. -/
def classCode : BitVec 8 := (d.read config classRegister 24).setWidth 8

/-- Subclass of the function. -/
def subclass : BitVec 8 := (d.read config classRegister 16).setWidth 8

/-- Type of the header. -/
def type : BitVec 8 := ((d.read config headerType 16).setWidth 64 &&& maskBits 7 0).setWidth 8

/-- Number of slots for base address registers. -/
def barCount : ℕ := if d.type config = 0#8 then numBars else numBarsBridge

/-- Whether the function is a serial device. -/
def isPciSerial : Bool := d.classCode config == 0x07#8 && d.subclass config == 0x00#8

/-- The register of a slot. -/
def slot (i : ℕ) : BitVec 32 := config (wrap (d.cfgBase + barRegister + i * 4))

/-- The base address register of a slot, together with the register behind it, as they read. -/
def bar (i : ℕ) : Bar := ⟨⟨d.slot config i, 0⟩, ⟨d.slot config (i + 1), 0⟩⟩

/-- The index behind the last slot. -/
def barIndexInvalid : ℕ := 0xff

/-- Index of the next base address register. -/
def nextBar (barIndex : ℕ) : ℕ :=
  let barIndex := barIndex + if (d.bar config barIndex).is64bit then 2 else 1
  if d.barCount config ≤ barIndex then barIndexInvalid else barIndex

/-- The slots that a loop over the base address registers visits from a slot on. -/
def barsFrom (bound i : ℕ) : Except Fault (List ℕ) :=
  collect (fun i => i == barIndexInvalid) (fun i => .ok (d.nextBar config i)) .unfinished bound i

/-- The slots that a loop over the base address registers visits. -/
def getBars : Except Fault (List ℕ) := d.barsFrom config (d.barCount config + 1) 0

end Registers

end PciDevice

namespace Bar.Kind

/-- Number of slots that a region takes. -/
def slots : Kind → ℕ
  | mem32 _ => 1
  | mem64 _ => 2
  | io => 1

/-- Whether a register can be the first one of a region. The remaining bits are address bits. -/
def tags (v : BitVec 32) : Kind → Bool
  | mem32 prefetchable =>
    !v.getLsbD 0 && !(!v.getLsbD 1 && v.getLsbD 2) && v.getLsbD 3 == prefetchable
  | mem64 prefetchable =>
    !v.getLsbD 0 && (!v.getLsbD 1 && v.getLsbD 2) && v.getLsbD 3 == prefetchable
  | io => v.getLsbD 0

theorem slots_pos (kind : Kind) : 0 < kind.slots := by
  cases kind <;> exact Nat.succ_pos _

end Bar.Kind

open Bar (Kind)

/-- The slots from a given one on hold regions of the given kinds, up to the last slot. -/
def LaidOut (slot : ℕ → BitVec 32) (count : ℕ) : ℕ → List Kind → Prop
  | i, [] => i = count
  | i, kind :: kinds => kind.tags (slot i) = true ∧ LaidOut slot count (i + kind.slots) kinds

/-- The regions together with their first slots. -/
def placed : ℕ → List Kind → List (ℕ × Kind)
  | _, [] => []
  | i, kind :: kinds => (i, kind) :: placed (i + kind.slots) kinds

/-- The first slots of all regions. -/
def firstSlots (kinds : List Kind) : List ℕ := (placed 0 kinds).map Prod.fst

section Walk

variable {config : ConfigSpace} {d : PciDevice} {i n : ℕ} {kind : Kind} {kinds : List Kind}

theorem LaidOut.le {slot : ℕ → BitVec 32} {count : ℕ} (h : LaidOut slot count i kinds) :
    i ≤ count := by
  induction kinds generalizing i with
  | nil => exact Nat.le_of_eq h
  | cons kind kinds ih => exact Nat.le_trans (Nat.le_add_right _ _) (ih h.2)

/-- There is a region left exactly if there is a slot left. -/
theorem LaidOut.lt_iff {slot : ℕ → BitVec 32} {count : ℕ} (h : LaidOut slot count i kinds) :
    i < count ↔ kinds ≠ [] := by
  cases kinds with
  | nil =>
    have hi : i = count := h
    simp [hi]
  | cons kind kinds =>
    have hle := h.2.le
    have hpos := kind.slots_pos
    simp only [ne_eq, reduceCtorEq, not_false_eq_true, iff_true]
    omega

/-- The regions from one on are laid out from its first slot on. -/
theorem LaidOut.from_mem {slot : ℕ → BitVec 32} {count j : ℕ} (h : LaidOut slot count i kinds)
    (hj : (j, kind) ∈ placed i kinds) : ∃ rest, LaidOut slot count j (kind :: rest) := by
  induction kinds generalizing i with
  | nil => cases hj
  | cons kind' kinds ih =>
    rcases List.mem_cons.mp hj with heq | hrest
    · cases heq
      exact ⟨kinds, h⟩
    · exact ih h.2 hrest

/-- The first slot of a region carries the tag of its kind. -/
theorem LaidOut.tags {slot : ℕ → BitVec 32} {count j : ℕ} (h : LaidOut slot count i kinds)
    (hj : (j, kind) ∈ placed i kinds) : kind.tags (slot j) = true := by
  obtain ⟨rest, hfrom⟩ := h.from_mem hj
  exact hfrom.1

theorem le_of_mem_placed {j : ℕ} (hj : (j, kind) ∈ placed i kinds) : i ≤ j := by
  induction kinds generalizing i with
  | nil => cases hj
  | cons kind' kinds ih =>
    rcases List.mem_cons.mp hj with heq | hrest
    · cases heq
      exact Nat.le_refl _
    · exact Nat.le_trans (Nat.le_add_right _ _) (ih hrest)

/-- Every region begins in front of the last slot. -/
theorem LaidOut.lt_of_mem {slot : ℕ → BitVec 32} {count j : ℕ} (h : LaidOut slot count i kinds)
    (hj : (j, kind) ∈ placed i kinds) : j < count := by
  obtain ⟨rest, hfrom⟩ := h.from_mem hj
  exact hfrom.lt_iff.mpr (List.cons_ne_nil _ _)

/-- Every slot is the first one of a region or the second one of a 64-bit region. -/
theorem LaidOut.covers {slot : ℕ → BitVec 32} {count j : ℕ} (h : LaidOut slot count i kinds)
    (hij : i ≤ j) (hj : j < count) : (∃ kind, (j, kind) ∈ placed i kinds) ∨
      ∃ k prefetchable, (k, Kind.mem64 prefetchable) ∈ placed i kinds ∧ j = k + 1 := by
  induction kinds generalizing i with
  | nil =>
    have hi : i = count := h
    omega
  | cons kind kinds ih =>
    rcases Nat.eq_or_lt_of_le hij with rfl | hlt
    · exact .inl ⟨kind, List.mem_cons_self⟩
    · by_cases hnext : i + kind.slots ≤ j
      · rcases ih h.2 hnext with ⟨kind', hmem⟩ | ⟨k, prefetchable, hmem, hk⟩
        · exact .inl ⟨kind', List.mem_cons_of_mem _ hmem⟩
        · exact .inr ⟨k, prefetchable, List.mem_cons_of_mem _ hmem, hk⟩
      · cases kind with
        | mem32 prefetchable => exact absurd (Nat.succ_le_of_lt hlt) hnext
        | mem64 prefetchable =>
          refine .inr ⟨i, prefetchable, List.mem_cons_self, ?_⟩
          simp only [Kind.slots] at hnext
          omega
        | io => exact absurd (Nat.succ_le_of_lt hlt) hnext

/-- The second slot of a 64-bit region is not the first one of another region. -/
theorem not_mem_placed_succ {k : ℕ} {prefetchable : Bool}
    (hk : (k, Kind.mem64 prefetchable) ∈ placed i kinds) : (k + 1, kind) ∉ placed i kinds := by
  induction kinds generalizing i with
  | nil => cases hk
  | cons kind' kinds ih =>
    intro hmem
    rcases List.mem_cons.mp hk with heq | hrest
    · cases heq
      rcases List.mem_cons.mp hmem with heq' | hrest'
      · simp at heq'
      · have hle := le_of_mem_placed hrest'
        simp only [Kind.slots] at hle
        omega
    · have hle := le_of_mem_placed hrest
      have hpos := kind'.slots_pos
      rcases List.mem_cons.mp hmem with heq' | hrest'
      · have hi : k + 1 = i := (Prod.mk.inj heq').1
        omega
      · exact ih hrest hrest'

theorem PciDevice.barCount_lt (config : ConfigSpace) (d : PciDevice) :
    d.barCount config < barIndexInvalid := by
  unfold barCount
  split <;> decide

theorem PciDevice.is64bit_bar : (d.bar config i).is64bit =
    (!(d.slot config i).getLsbD 1 && (d.slot config i).getLsbD 2) :=
  Bar.is64bit_eq _

/-- The walk visits the slot it is at and goes on behind it. -/
theorem barsFrom_succ (hi : i < d.barCount config) : d.barsFrom config (n + 1) i =
    (d.barsFrom config n (d.nextBar config i)).map (i :: ·) := by
  have hne : (i == PciDevice.barIndexInvalid) = false := by
    have hcount := d.barCount_lt config
    exact beq_false_of_ne (by omega)
  rw [PciDevice.barsFrom, collect, hne, if_neg (by decide), ok_bind, PciDevice.barsFrom]
  cases collect (fun i => i == PciDevice.barIndexInvalid) (fun i => .ok (d.nextBar config i))
    Fault.unfinished n (d.nextBar config i) <;> rfl

/-- The walk is done at the invalid index. -/
theorem barsFrom_invalid (hn : 0 < n) :
    d.barsFrom config n PciDevice.barIndexInvalid = .ok [] := by
  obtain ⟨n, rfl⟩ : ∃ k, n = k + 1 := ⟨n - 1, by omega⟩
  rfl

/-- The walk goes forward or leaves. -/
theorem nextBar_cases (config : ConfigSpace) (d : PciDevice) (i : ℕ) :
    d.nextBar config i = PciDevice.barIndexInvalid ∨
      i < d.nextBar config i ∧ d.nextBar config i < d.barCount config := by
  have hwidth : 0 < if (d.bar config i).is64bit then 2 else 1 := by split <;> decide
  unfold PciDevice.nextBar
  dsimp only
  by_cases hend : d.barCount config ≤ i + if (d.bar config i).is64bit then 2 else 1
  · exact .inl (if_pos hend)
  · rw [if_neg hend]
    exact .inr ⟨by omega, by omega⟩

/-- The walk comes to an end from every slot, and begins with it. -/
theorem exists_barsFrom (hi : i < d.barCount config) (hn : d.barCount config < n + i) :
    ∃ rest, d.barsFrom config n i = .ok (i :: rest) := by
  induction n generalizing i with
  | zero => omega
  | succ n ih =>
    rw [barsFrom_succ hi]
    rcases nextBar_cases config d i with hend | ⟨hlt, hcount⟩
    · exact ⟨[], by rw [hend, barsFrom_invalid (by omega)]; rfl⟩
    · obtain ⟨rest, hrest⟩ := ih hcount (by omega)
      exact ⟨_, by rw [hrest]; rfl⟩

/-- Whether the walk takes the right step behind a region: an I/O region that is not in the last
slot does not look like a 64-bit one. -/
def StepsRight (slot : ℕ → BitVec 32) (count : ℕ) (region : ℕ × Kind) : Prop :=
  region.2 = .io → (slot region.1).getLsbD 1 = false → (slot region.1).getLsbD 2 = true →
    region.1 + 1 = count

/-- The walk goes from a region to the one behind it. -/
theorem nextBar_of_stepsRight (htags : kind.tags (d.slot config i) = true)
    (hright : StepsRight (d.slot config) (d.barCount config) (i, kind)) :
    d.nextBar config i = if d.barCount config ≤ i + kind.slots then PciDevice.barIndexInvalid
      else i + kind.slots := by
  have hstep : i + (if (d.bar config i).is64bit then 2 else 1) = i + kind.slots ∨
      d.barCount config ≤ i + kind.slots ∧
        d.barCount config ≤ i + if (d.bar config i).is64bit then 2 else 1 := by
    rw [PciDevice.is64bit_bar]
    cases kind with
    | mem32 prefetchable =>
      simp only [Kind.tags, Bool.and_eq_true, Bool.not_eq_true'] at htags
      exact .inl (by rw [htags.1.2]; rfl)
    | mem64 prefetchable =>
      simp only [Kind.tags, Bool.and_eq_true] at htags
      exact .inl (by rw [htags.1.2.1, htags.1.2.2]; rfl)
    | io =>
      cases hwide : !(d.slot config i).getLsbD 1 && (d.slot config i).getLsbD 2 with
      | false => exact .inl rfl
      | true =>
        rw [Bool.and_eq_true, Bool.not_eq_true'] at hwide
        have hlast : i + 1 = d.barCount config := hright rfl hwide.1 hwide.2
        refine .inr ⟨Nat.le_of_eq hlast.symm, ?_⟩
        rw [if_pos rfl]
        omega
  unfold PciDevice.nextBar
  dsimp only
  rcases hstep with heq | ⟨hend, hend'⟩
  · rw [heq]
  · rw [if_pos hend, if_pos hend']

/-- The walk misses the region behind an I/O region that looks like a 64-bit one. -/
theorem barsFrom_of_not_stepsRight (hi : i + 1 < d.barCount config)
    (hnarrow : (d.slot config i).getLsbD 1 = false) (hwide : (d.slot config i).getLsbD 2 = true)
    (hn : d.barCount config < n + 1 + i) {rest : List ℕ}
    (h : d.barsFrom config n (d.nextBar config i) = .ok rest) : rest.head? ≠ some (i + 1) := by
  have hnext : d.nextBar config i =
      if d.barCount config ≤ i + 2 then PciDevice.barIndexInvalid else i + 2 := by
    unfold PciDevice.nextBar
    rw [PciDevice.is64bit_bar, hnarrow, hwide]
    rfl
  rw [hnext] at h
  split at h
  · rw [barsFrom_invalid (by omega)] at h
    cases h
    simp
  · obtain ⟨rest', hrest⟩ := exists_barsFrom (n := n) (show i + 2 < d.barCount config by omega)
      (by omega)
    cases ok_unique h hrest
    simp

/-- From the first slot of a region on, the walk visits exactly the first slots when, and only
when, it takes the right step behind every region. -/
theorem barsFrom_iff (h : LaidOut (d.slot config) (d.barCount config) i kinds)
    (hkinds : kinds ≠ []) (hn : d.barCount config < n + i) :
    ∃ visited, d.barsFrom config n i = .ok visited ∧
      (visited = (placed i kinds).map Prod.fst ↔
        ∀ region ∈ placed i kinds, StepsRight (d.slot config) (d.barCount config) region) := by
  induction kinds generalizing i n with
  | nil => exact absurd rfl hkinds
  | cons kind kinds ih =>
    have hi := h.lt_iff.mpr hkinds
    obtain ⟨n, rfl⟩ : ∃ k, n = k + 1 := ⟨n - 1, by omega⟩
    obtain ⟨htags, hrest⟩ := h
    have hpos := kind.slots_pos
    have hle := hrest.le
    rw [barsFrom_succ hi, placed, List.map_cons, List.forall_mem_cons]
    by_cases hright : StepsRight (d.slot config) (d.barCount config) (i, kind)
    · rw [nextBar_of_stepsRight htags hright]
      cases kinds with
      | nil =>
        have hend : i + kind.slots = d.barCount config := hrest
        refine ⟨[i], ?_, by simp [placed, hright]⟩
        rw [if_pos (Nat.le_of_eq hend.symm), barsFrom_invalid (by omega)]
        rfl
      | cons kind' kinds =>
        have hlt := hrest.lt_iff.mpr (List.cons_ne_nil _ _)
        obtain ⟨visited, hvisited, hiff⟩ := ih (n := n) hrest (List.cons_ne_nil _ _) (by omega)
        refine ⟨i :: visited, ?_, ?_⟩
        · rw [if_neg (by omega), hvisited]
          rfl
        · rw [List.cons.injEq, eq_self_iff_true, true_and, hiff, and_iff_right hright]
    · obtain ⟨rest, hwalk⟩ := exists_barsFrom (n := n + 1) hi (by omega)
      rw [barsFrom_succ hi] at hwalk
      refine ⟨i :: rest, hwalk, iff_of_false (fun heq => ?_) fun hall => hright hall.1⟩
      simp only [StepsRight, Classical.not_imp] at hright
      obtain ⟨rfl, hnarrow, hwide, hlast⟩ := hright
      have hi' : i + 1 < d.barCount config := by omega
      obtain ⟨tail, htail, htl⟩ := map_eq_ok.mp hwalk
      refine barsFrom_of_not_stepsRight hi' hnarrow hwide hn htail ?_
      cases kinds with
      | nil => exact absurd hrest hlast
      | cons kind' kinds =>
        rw [← (List.cons.inj htl).2, (List.cons.inj heq).2]
        rfl

end Walk

/-- The walk over the base address registers always comes to an end; it visits exactly the first
slot of every region, in order, when, and only when, no I/O region in front of the last slot
has an address that looks like the mark of a 64-bit region. -/
theorem getBars_iff (config : ConfigSpace) (d : PciDevice) (kinds : List Kind)
    (h : LaidOut (d.slot config) (d.barCount config) 0 kinds) :
    ∃ visited, d.getBars config = .ok visited ∧
      (visited = firstSlots kinds ↔
        ∀ i, (i, Kind.io) ∈ placed 0 kinds → (d.slot config i).getLsbD 1 = false →
          (d.slot config i).getLsbD 2 = true → i + 1 = d.barCount config) := by
  have hpos : 0 < d.barCount config := by
    unfold PciDevice.barCount
    split <;> decide
  obtain ⟨visited, hvisited, hiff⟩ := barsFrom_iff (n := d.barCount config + 1) h
    (h.lt_iff.mp hpos) (by omega)
  refine ⟨visited, hvisited, hiff.trans ⟨fun hall i hi => hall (i, .io) hi rfl, ?_⟩⟩
  rintro hall ⟨i, kind⟩ hi rfl
  exact hall i hi

/-- A general header at address zero with I/O ports 0xe000 in the first slot, a 64-bit memory
region in the next two and nothing in the others. -/
def portsAndMemory (address : ℕ) : BitVec 32 :=
  if address = 0x10 then 0x0000e001#32
  else if address = 0x14 then 0xfe00000c#32
  else 0x00000000#32

/-- The walk visits the first slot of each of the five regions. -/
theorem getBars_iff_portsAndMemory :
    (PciDevice.mk 0 ⟨0, 0, 0⟩).getBars portsAndMemory = .ok [0, 1, 3, 4, 5] := by
  obtain ⟨visited, hvisited, hiff⟩ := getBars_iff portsAndMemory ⟨0, ⟨0, 0, 0⟩⟩
    [.io, .mem64 true, .mem32 false, .mem32 false, .mem32 false]
    (by simp only [LaidOut]; decide +kernel)
  have hports : ∀ i, (i, Kind.io) ∈
      placed 0 [.io, .mem64 true, .mem32 false, .mem32 false, .mem32 false] → i = 0 := by
    simp [placed]
  have hfirst : ((PciDevice.mk 0 ⟨0, 0, 0⟩).slot portsAndMemory 0).getLsbD 2 = false := by
    decide +kernel
  have hslots := hiff.mpr fun i hi _ hbit => by
    rw [hports i hi, hfirst] at hbit
    cases hbit
  rw [hvisited, hslots]
  rfl

/-- I/O ports 0xe004 in the first slot, and nothing in the others. -/
def unalignedPorts (address : ℕ) : BitVec 32 :=
  if address = 0x10 then 0x0000e005#32 else 0x00000000#32

/-- Behind I/O ports whose address has bit two set, the walk passes over a slot. -/
theorem slot_passed_over :
    LaidOut ((PciDevice.mk 0 ⟨0, 0, 0⟩).slot unalignedPorts)
        ((PciDevice.mk 0 ⟨0, 0, 0⟩).barCount unalignedPorts) 0
        (.io :: List.replicate 5 (.mem32 false)) ∧
      (PciDevice.mk 0 ⟨0, 0, 0⟩).getBars unalignedPorts = .ok [0, 2, 3, 4, 5] ∧
      firstSlots (.io :: List.replicate 5 (.mem32 false)) = [0, 1, 2, 3, 4, 5] := by
  refine ⟨?_, by decide +kernel, by decide⟩
  simp only [LaidOut, List.replicate]
  decide +kernel

end Toyos.Pci
