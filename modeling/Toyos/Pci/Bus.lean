import Toyos.Core.Scan
import Toyos.Util.Math
import Mathlib.Data.List.Sort

/-!
# PCI enumeration

The iterator of `pci_bus` walks the memory-mapped configuration space page by
page and carries a bus, device and function number along, which it advances by
its own carry arithmetic. It passes over functions without a vendor, except for
the first one of the space, where `begin` stops unconditionally.
-/

namespace Toyos.Pci

open Toyos.Core Toyos.Util

/-- Number of address bits inside one page. -/
def pageBits : ℕ := 12

/-- Size of the configuration space of one function. -/
def pageSize : ℕ := 4096

/-- Maximum number of devices on a single bus. -/
def maxDevicesPerBus : ℕ := 32

/-- Maximum number of functions on a single device. -/
def maxFunctionsPerDev : ℕ := 8

/-- Bus, device and function number of a PCI function, each a byte. -/
structure Bdf where
  /-- The bus component. -/
  bus : ℕ
  /-- The device component. -/
  device : ℕ
  /-- The function component. -/
  function : ℕ
  deriving DecidableEq, Repr

namespace Bdf

/-- The numbers belonging to an offset into the configuration space. -/
def ofOffset (offset : ℕ) : Bdf where
  bus := offset >>> (pageBits + 8) &&& mask 8 0
  device := offset >>> (pageBits + 3) &&& mask 5 0
  function := offset >>> (pageBits + 0) &&& mask 3 0

/-- Requester id, the 16-bit encoding of the three numbers. -/
def rid (b : Bdf) : ℕ :=
  (b.bus <<< 8 ||| (b.device &&& mask 5 0) <<< 3 ||| (b.function &&& mask 3 0) <<< 0) % 2 ^ 16

/-- The next function, with the carries into the device and the bus number. -/
def next (b : Bdf) : Bdf :=
  let function := (b.function + 1) % maxFunctionsPerDev
  let device := (b.device + if function = 0 then 1 else 0) % maxDevicesPerBus
  { bus := (b.bus + if device = 0 ∧ function = 0 then 1 else 0) % 2 ^ 8
    device := device
    function := function }

/-- The numbers of a page, by division. -/
theorem ofOffset_page (i : ℕ) :
    ofOffset (pageSize * i) = ⟨i / 256 % 256, i / 8 % 32, i % 8⟩ := by
  simp only [ofOffset, pageBits, pageSize, and_mask_eq_mod (show 8 < 64 by decide),
    and_mask_eq_mod (show 5 < 64 by decide), and_mask_eq_mod (show 3 < 64 by decide),
    Nat.shiftRight_eq_div_pow, Bdf.mk.injEq]
  omega

/-- A digit of the next number, by the carry from the digits below it. -/
theorem digit_add_carry (i n m : ℕ) :
    (i / n % m + if (i + 1) % n = 0 then 1 else 0) % m = (i + 1) / n % m := by
  rw [Nat.mod_add_mod, Nat.succ_div]
  simp only [Nat.dvd_iff_mod_eq_zero]

/-- The carries follow the pages of the configuration space. -/
theorem next_ofOffset (i : ℕ) :
    (ofOffset (pageSize * i)).next = ofOffset (pageSize * (i + 1)) := by
  have hfunction : (i % 8 + 1) % 8 = (i + 1) % 8 := Nat.mod_add_mod i 8 1
  have hcarry : (i + 1) / 8 % 32 = 0 ∧ (i + 1) % 8 = 0 ↔ (i + 1) % 256 = 0 := by omega
  rw [ofOffset_page, ofOffset_page]
  unfold next maxFunctionsPerDev maxDevicesPerBus
  simp only [hfunction, digit_add_carry, hcarry, Nat.reducePow]

/-- The requester id of a page is its number. -/
theorem rid_ofOffset {i : ℕ} (hi : i < 2 ^ 16) : (ofOffset (pageSize * i)).rid = i := by
  have hdevice : i / 8 % 32 < 2 ^ 5 := by omega
  have hfunction : i % 8 < 2 ^ 3 := by omega
  rw [ofOffset_page]
  simp only [rid, and_mask_eq_mod (show 5 < 64 by decide), and_mask_eq_mod (show 3 < 64 by decide),
    Nat.mod_eq_of_lt hdevice, Nat.mod_eq_of_lt hfunction, Nat.shiftLeft_zero]
  rw [Nat.or_assoc, Nat.shiftLeft_eq (i / 8 % 32), Nat.mul_comm (i / 8 % 32),
    ← Nat.two_pow_add_eq_or_of_lt hfunction, Nat.shiftLeft_eq, Nat.mul_comm,
    ← Nat.two_pow_add_eq_or_of_lt (show 2 ^ 3 * (i / 8 % 32) + i % 8 < 2 ^ 8 by omega)]
  omega

end Bdf

/-- The 32-bit registers of the configuration space, by address. -/
abbrev ConfigSpace := ℕ → BitVec 32

/-- A function of a PCI device, by its configuration space and its numbers. -/
structure PciDevice where
  /-- Start address of the configuration space of the function. -/
  cfgBase : ℕ
  /-- Location on the bus. -/
  bdf : Bdf
  deriving DecidableEq, Repr

namespace PciDevice

/-- Offset of the register with the device and the vendor id. -/
def deviceVendorId : ℕ := 0

/-- Read a register from a bit position on. -/
def read (config : ConfigSpace) (d : PciDevice) (off shift : ℕ) : BitVec 32 :=
  config (wrap (d.cfgBase + off)) >>> shift

/-- Vendor id of the function. -/
def vendorId (config : ConfigSpace) (d : PciDevice) : BitVec 16 :=
  (d.read config deviceVendorId 0).setWidth 16

/-- Whether the vendor id is one that a function can have. -/
def isValid (config : ConfigSpace) (d : PciDevice) : Bool :=
  (d.vendorId config).toNat != 0 && (d.vendorId config).toNat != mask 16 0

end PciDevice

/-- Reason for stopping a walk. -/
inductive Fault where
  /-- More rounds than the walk is allowed. -/
  | unfinished
  deriving DecidableEq, Repr

/-- Position in the enumeration of the functions. -/
structure Iterator where
  /-- Configuration space of the current function. -/
  cfgBase : ℕ
  /-- End of the configuration space of all busses. -/
  cfgEnd : ℕ
  /-- Location of the current function. -/
  bdf : Bdf := ⟨0, 0, 0⟩
  deriving DecidableEq, Repr

namespace Iterator

/-- The function at the current position. -/
def get (it : Iterator) : PciDevice := ⟨it.cfgBase, it.bdf⟩

/-- Iterators are compared by their position. -/
def equals (it o : Iterator) : Bool := o.cfgBase == it.cfgBase

/-- The body of the skipping loop. -/
def move (it : Iterator) : Iterator :=
  { it with cfgBase := wrap (it.cfgBase + pageSize), bdf := it.bdf.next }

/-- The condition of the skipping loop. -/
def skipping (config : ConfigSpace) (it : Iterator) : Bool :=
  it.cfgBase != it.cfgEnd && !it.get.isValid config

/-- Go to the next valid function, or to the end. -/
def increment (config : ConfigSpace) (bound : ℕ) (it : Iterator) : Except Fault Iterator :=
  skip move (skipping config) .unfinished bound it

end Iterator

/-- The configuration space of a number of busses. -/
structure PciBus where
  /-- Start of the memory-mapped configuration space. -/
  mcfgBase : ℕ
  /-- Number of busses. -/
  pciBusses : ℕ
  deriving DecidableEq, Repr

namespace PciBus

variable (bus : PciBus) (config : ConfigSpace)

/-- End of the memory-mapped configuration space. -/
def mcfgEnd : ℕ :=
  wrap (bus.mcfgBase + wrap (bus.pciBusses * maxDevicesPerBus * maxFunctionsPerDev * pageSize))

/-- The iterator at the first function. -/
def begin : Iterator := { cfgBase := bus.mcfgBase, cfgEnd := bus.mcfgEnd }

/-- The iterator behind the last function. -/
def end' : Iterator := { cfgBase := bus.mcfgEnd, cfgEnd := bus.mcfgEnd }

/-- Number of functions the space has room for. -/
def functions : ℕ := bus.pciBusses * 256

/-- The functions that a loop from the beginning to the end visits. -/
def enumerate : Except Fault (List PciDevice) := do
  let visited ← collect (fun it => it.equals bus.end')
    (Iterator.increment config (bus.functions + 1)) .unfinished (bus.functions + 1) bus.begin
  return visited.map Iterator.get

/-- The iterator at a function by its number. -/
def position (i : ℕ) : Iterator :=
  ⟨wrap (bus.mcfgBase + pageSize * i), bus.mcfgEnd, Bdf.ofOffset (pageSize * i)⟩

/-- The loop body goes from each function to the next one. -/
theorem move_position (i : ℕ) : (bus.position i).move = bus.position (i + 1) := by
  simp only [position, Iterator.move, Bdf.next_ofOffset, Iterator.mk.injEq, and_true]
  unfold wrap pageSize
  omega

variable {bus config}

theorem begin_eq_position (hbase : bus.mcfgBase < 2 ^ 64) : bus.begin = bus.position 0 := by
  simp only [begin, position, Nat.mul_zero, Nat.add_zero, wrap_of_lt hbase, Iterator.mk.injEq,
    true_and]
  rfl

/-- With at most 256 busses only the last position is at the end. -/
theorem position_equals_end {i : ℕ} (hbusses : bus.pciBusses ≤ 256) (hi : i ≤ bus.functions) :
    (bus.position i).equals bus.end' = true ↔ i = bus.functions := by
  unfold functions at hi ⊢
  simp only [Iterator.equals, position, end', mcfgEnd, maxDevicesPerBus, maxFunctionsPerDev,
    pageSize, wrap, beq_iff_eq]
  omega

/-- The loop passes over exactly the invalid functions in front of the end. -/
theorem skipping_position (i : ℕ) : (bus.position i).skipping config =
    (!(bus.position i).equals bus.end' && !(bus.position i).get.isValid config) := by
  rw [Iterator.skipping, Iterator.equals, bne, Bool.beq_comm]
  rfl

/-- The numbers of the visited functions: the first one, and all valid ones behind it. -/
def visitedNumbers (bus : PciBus) (config : ConfigSpace) : List ℕ :=
  0 :: (List.range' 1 (bus.functions - 1)).filter fun i => (bus.position i).get.isValid config

/-- A loop from the beginning to the end terminates and visits the first function and all valid
ones behind it. -/
theorem collect_begin_eq (hpos : 1 ≤ bus.pciBusses) (hbusses : bus.pciBusses ≤ 256)
    (hbase : bus.mcfgBase < 2 ^ 64) :
    collect (fun it => it.equals bus.end') (Iterator.increment config (bus.functions + 1))
        Fault.unfinished (bus.functions + 1) bus.begin =
      .ok ((bus.visitedNumbers config).map bus.position) := by
  obtain ⟨n, hn⟩ : ∃ n, bus.functions = n + 1 := ⟨bus.functions - 1, by unfold functions; omega⟩
  have hahead : Ahead Iterator.move (fun it => it.equals bus.end') (Iterator.skipping config)
      (fun it => it.get.isValid config) (n + 1) (bus.position 0) :=
    Ahead.of_index bus.move_position (fun i hi => position_equals_end hbusses hi)
      (fun i _ => skipping_position i) (by omega)
  have hwalk := hahead.collect_cons Fault.unfinished (bus.functions + 1) (bus.functions + 1)
    (by omega) (by omega)
  rw [move_position, positions_eq_map bus.move_position, List.filter_map] at hwalk
  rw [begin_eq_position hbase]
  unfold Iterator.increment
  rw [hwalk, visitedNumbers, hn]
  simp [Function.comp_def]

/-- The enumeration terminates and visits the first function and all valid ones behind it. -/
theorem enumerate_eq (hpos : 1 ≤ bus.pciBusses) (hbusses : bus.pciBusses ≤ 256)
    (hbase : bus.mcfgBase < 2 ^ 64) : bus.enumerate config =
      .ok ((bus.visitedNumbers config).map fun i => (bus.position i).get) := by
  rw [enumerate, collect_begin_eq hpos hbusses hbase, ok_bind, List.map_map]
  rfl

theorem mem_visitedNumbers {i : ℕ} (hpos : 1 ≤ bus.pciBusses) :
    i ∈ bus.visitedNumbers config ↔
      i < bus.functions ∧ (i = 0 ∨ (bus.position i).get.isValid config = true) := by
  have hfunctions : 0 < bus.functions := by unfold functions; omega
  rw [visitedNumbers, List.mem_cons, List.mem_filter, List.mem_range'_1]
  rcases Nat.eq_zero_or_pos i with rfl | hi
  · simp [hfunctions]
  · have hrange : 1 ≤ i ∧ i < 1 + (bus.functions - 1) ↔ i < bus.functions := by omega
    simp only [hrange, show i ≠ 0 by omega, false_or]

theorem visitedNumbers_ascending : (bus.visitedNumbers config).Pairwise (· < ·) := by
  rw [visitedNumbers, List.pairwise_cons]
  refine ⟨fun i hi => ?_, (List.pairwise_lt_range' 1).filter _⟩
  rw [List.mem_filter, List.mem_range'_1] at hi
  omega

/-- Whether a function answers at an address: its vendor id is neither all zeros nor all ones. -/
def HasVendor (config : ConfigSpace) (address : ℕ) : Prop :=
  (config address).setWidth 16 ≠ 0x0000#16 ∧ (config address).setWidth 16 ≠ 0xffff#16

/-- The visited functions are the ones with a vendor, each visited once and in the order of
the addresses, and each carries the numbers of its place in the space. -/
structure Exact (bus : PciBus) (config : ConfigSpace) (visited : List PciDevice) : Prop where
  /-- Exactly the functions with a vendor are visited. -/
  visits : ∀ address, address ∈ visited.map PciDevice.cfgBase ↔
    (∃ i < bus.pciBusses * 32 * 8, address = bus.mcfgBase + 4096 * i) ∧ HasVendor config address
  /-- The addresses grow along the visit. -/
  ascending : visited.Pairwise fun d d' => d.cfgBase < d'.cfgBase
  /-- The tracked numbers agree with the address. -/
  rid_eq : ∀ d ∈ visited, d.bdf.rid = (d.cfgBase - bus.mcfgBase) / 4096

theorem isValid_iff {d : PciDevice} (h : d.cfgBase < 2 ^ 64) :
    d.isValid config = true ↔ HasVendor config d.cfgBase := by
  simp only [PciDevice.isValid, PciDevice.vendorId, PciDevice.read, PciDevice.deviceVendorId,
    Nat.add_zero, wrap_of_lt h, BitVec.ushiftRight_zero, Bool.and_eq_true, bne_iff_ne, HasVendor,
    ne_eq, ← BitVec.toNat_inj]
  rfl

/-- The address of a function when the space does not wrap around. -/
theorem position_get {i : ℕ} (hspace : bus.mcfgBase + bus.pciBusses * 2 ^ 20 ≤ 2 ^ 64)
    (hi : i < bus.functions) : (bus.position i).get =
      ⟨bus.mcfgBase + 4096 * i, Bdf.ofOffset (pageSize * i)⟩ := by
  unfold functions at hi
  have hlt : bus.mcfgBase + pageSize * i < 2 ^ 64 := by unfold pageSize; omega
  rw [position, Iterator.get, wrap_of_lt hlt]
  rfl

section Visited

variable (hpos : 1 ≤ bus.pciBusses) (hspace : bus.mcfgBase + bus.pciBusses * 2 ^ 20 ≤ 2 ^ 64)
include hpos hspace

/-- The visited addresses are the first one and those of the functions with a vendor. -/
theorem mem_visited_cfgBase {address : ℕ} : address ∈ ((bus.visitedNumbers config).map fun i =>
    (bus.position i).get).map PciDevice.cfgBase ↔ ∃ i < bus.functions,
      (i = 0 ∨ HasVendor config address) ∧ address = bus.mcfgBase + 4096 * i := by
  have hvalid {i : ℕ} (hi : i < bus.functions) : (bus.position i).get.isValid config = true ↔
      HasVendor config (bus.mcfgBase + 4096 * i) := by
    rw [isValid_iff (wrap_lt _), position_get hspace hi]
  simp only [List.map_map, List.mem_map, mem_visitedNumbers hpos, Function.comp_apply]
  constructor
  · rintro ⟨i, ⟨hi, hkeep⟩, rfl⟩
    rw [hvalid hi] at hkeep
    rw [position_get hspace hi]
    exact ⟨i, hi, hkeep, rfl⟩
  · rintro ⟨i, hi, hkeep, rfl⟩
    exact ⟨i, ⟨hi, by rwa [hvalid hi]⟩, by rw [position_get hspace hi]⟩

/-- The visited functions come in the order of their addresses. -/
theorem visited_ascending : ((bus.visitedNumbers config).map fun i =>
    (bus.position i).get).Pairwise fun d d' => d.cfgBase < d'.cfgBase := by
  rw [List.pairwise_map]
  refine visitedNumbers_ascending.imp_of_mem fun hi hj hlt => ?_
  rw [mem_visitedNumbers hpos] at hi hj
  rw [position_get hspace hi.1, position_get hspace hj.1]
  simpa using hlt

/-- Each visited function carries the numbers of its page. -/
theorem visited_rid (hbusses : bus.pciBusses ≤ 256) {d : PciDevice}
    (hd : d ∈ (bus.visitedNumbers config).map fun i => (bus.position i).get) :
    d.bdf.rid = (d.cfgBase - bus.mcfgBase) / 4096 := by
  obtain ⟨i, hi, rfl⟩ := List.mem_map.mp hd
  rw [mem_visitedNumbers hpos] at hi
  have hlt : i < 2 ^ 16 := by unfold functions at hi; omega
  rw [position_get hspace hi.1, Bdf.rid_ofOffset hlt]
  dsimp only
  omega

end Visited

/-- The enumeration always terminates; it is exact when, and only when, the first function of
the space has a vendor. -/
theorem enumerate_exact_iff (bus : PciBus) (config : ConfigSpace) (hpos : 1 ≤ bus.pciBusses)
    (hbusses : bus.pciBusses ≤ 256)
    (hspace : bus.mcfgBase + bus.pciBusses * 2 ^ 20 ≤ 2 ^ 64) :
    ∃ visited, bus.enumerate config = .ok visited ∧
      (bus.Exact config visited ↔ HasVendor config bus.mcfgBase) := by
  have hsize : bus.functions = bus.pciBusses * 32 * 8 := by unfold functions; omega
  refine ⟨_, enumerate_eq hpos hbusses (by omega), ?_⟩
  constructor
  · intro hexact
    refine ((hexact.visits bus.mcfgBase).mp ?_).2
    rw [mem_visited_cfgBase hpos hspace]
    exact ⟨0, by omega, .inl rfl, rfl⟩
  · intro hvendor
    refine ⟨fun address => ?_, visited_ascending hpos hspace,
      fun d hd => visited_rid hpos hspace hbusses hd⟩
    rw [mem_visited_cfgBase hpos hspace, hsize]
    constructor
    · rintro ⟨i, hi, hkeep, rfl⟩
      refine ⟨⟨i, hi, rfl⟩, hkeep.elim ?_ id⟩
      rintro rfl
      exact hvendor
    · rintro ⟨⟨i, hi, rfl⟩, hkeep⟩
      exact ⟨i, hi, .inr hkeep, rfl⟩

/-- One bus with a host bridge at its first function and a second function at device two. -/
def twoFunctions : ConfigSpace := fun address =>
  if address = 0xe0000000 ∨ address = 0xe0010000 then 0x12378086#32 else 0xffffffff#32

/-- Both functions are visited, and nothing else. -/
theorem enumerate_exact_iff_two :
    (PciBus.mk 0xe0000000 1).enumerate twoFunctions =
        .ok [⟨0xe0000000, ⟨0, 0, 0⟩⟩, ⟨0xe0010000, ⟨0, 2, 0⟩⟩] ∧
      (PciBus.mk 0xe0000000 1).Exact twoFunctions
        [⟨0xe0000000, ⟨0, 0, 0⟩⟩, ⟨0xe0010000, ⟨0, 2, 0⟩⟩] := by
  obtain ⟨visited, hvisited, hiff⟩ := enumerate_exact_iff ⟨0xe0000000, 1⟩ twoFunctions (by decide)
    (by decide) (by decide)
  have hrun : (PciBus.mk 0xe0000000 1).enumerate twoFunctions =
      .ok [⟨0xe0000000, ⟨0, 0, 0⟩⟩, ⟨0xe0010000, ⟨0, 2, 0⟩⟩] := by decide +kernel
  obtain rfl := ok_unique hvisited hrun
  exact ⟨hrun, hiff.mpr ⟨by decide, by decide⟩⟩

/-- On a bus without any function the first one is visited all the same. -/
theorem absent_function_visited :
    (PciBus.mk 0xe0000000 1).enumerate (fun _ => 0xffffffff#32) =
      .ok [⟨0xe0000000, ⟨0, 0, 0⟩⟩] ∧
    ¬(PciBus.mk 0xe0000000 1).Exact (fun _ => 0xffffffff#32) [⟨0xe0000000, ⟨0, 0, 0⟩⟩] := by
  refine ⟨by decide +kernel, fun hexact => ?_⟩
  obtain ⟨-, -, hones⟩ := (hexact.visits 0xe0000000).mp (by simp)
  exact hones (by decide)

end PciBus

end Toyos.Pci
