import Toyos.Pci.Device

/-!
# Discovery of the serial port

`discover_serial_port` takes the first function of the serial class on the bus
and the first of its six slots that is marked as an I/O region, and falls back
to the ports of the BIOS data area. It looks at slots and not at regions, and it
reads the port through the address mask of memory regions.
-/

namespace Toyos.Pci

open Toyos.Core Toyos.Util
open Bar (Kind)

/-- The fields of the MCFG table that describe the configuration space. -/
structure AcpiMcfg where
  /-- Start of the memory-mapped configuration space. -/
  base : BitVec 64
  /-- The first bus. -/
  busStart : BitVec 8
  /-- The last bus. -/
  busEnd : BitVec 8
  deriving DecidableEq, Repr

/-- Number of busses. -/
def AcpiMcfg.busses (mcfg : AcpiMcfg) : ℕ := wsub (mcfg.busEnd.toNat + 1) mcfg.busStart.toNat

/-- The configuration space that the table describes. -/
def AcpiMcfg.bus (mcfg : AcpiMcfg) : PciBus := ⟨mcfg.base.toNat, mcfg.busses⟩

/-- The port that is used if there is no other. -/
def serialPortDefault : BitVec 16 := 0x3f8#16

/-- The first port of the BIOS data area, or the default one. -/
def findSerialPortInBda (ports : Vector (BitVec 16) 4) : BitVec 16 :=
  (ports.toList.find? fun p => p != 0).getD serialPortDefault

/-- The actual port of cards that have their ports at an offset. -/
def serialPortOffsetQuirks (iobase vendor device : BitVec 16) : BitVec 16 :=
  if vendor = 0x1c00#16 ∧ device = 0x3253#16 then iobase + 0xc0#16 else iobase

/-- The first slot that is marked as an I/O region. -/
def PciDevice.pioSlot (config : ConfigSpace) (d : PciDevice) : Option ℕ :=
  (List.range numBars).find? fun i => (d.bar config i).isPio

/-- The port of the first serial device on the bus, or one of the BIOS data area. -/
def discoverSerialPort (config : ConfigSpace) (ports : Vector (BitVec 16) 4) :
    Option AcpiMcfg → Except Fault (BitVec 16)
  | none => .ok (findSerialPortInBda ports)
  | some mcfg => do
    let pcibus := mcfg.bus
    let pciSerialDev ← findIf (fun it => it.equals pcibus.end')
      (Iterator.increment config (pcibus.functions + 1)) (fun it => it.get.isPciSerial config)
      .unfinished (pcibus.functions + 1) pcibus.begin
    match pciSerialDev with
    | none => return findSerialPortInBda ports
    | some it =>
      let dev := it.get
      match dev.pioSlot config with
      | none => return findSerialPortInBda ports
      | some i =>
        return serialPortOffsetQuirks ((dev.bar config i).address.setWidth 16)
          (dev.vendorId config) (dev.deviceId config)

/-- The function has class seven and subclass zero. -/
def HasSerialClass (config : ConfigSpace) (d : PciDevice) : Prop :=
  config (wrap (d.cfgBase + 0x08)) >>> 16 = 0x00000700#32

/-- A page of the configuration space is a function if it has a vendor; the first page always
counts as one. -/
def IsFunction (bus : PciBus) (config : ConfigSpace) (i : ℕ) : Prop :=
  i < bus.functions ∧ (i = 0 ∨ (bus.position i).get.isValid config = true)

/-- The first function of the serial class. -/
structure FirstSerial (bus : PciBus) (config : ConfigSpace) (d : PciDevice) : Prop where
  /-- The function is one of the bus, and all functions in front of it have another class. -/
  first : ∃ i, IsFunction bus config i ∧ d = (bus.position i).get ∧
    ∀ j < i, IsFunction bus config j → ¬HasSerialClass config (bus.position j).get
  /-- The function has the serial class. -/
  serial : HasSerialClass config d

/-- The first I/O region of a device. -/
structure FirstPorts (kinds : List Kind) (slot : ℕ) : Prop where
  /-- There is an I/O region in the slot. -/
  mem : (slot, Kind.io) ∈ placed 0 kinds
  /-- All I/O regions are in this slot or behind it. -/
  first : ∀ j, (j, Kind.io) ∈ placed 0 kinds → slot ≤ j

/-- The port that has been programmed into an I/O region: bits two to fifteen of the register. -/
def programmedPort (v : BitVec 32) : BitVec 16 := v.setWidth 16 &&& 0xfffc#16

section Discovery

variable {config : ConfigSpace} {d : PciDevice} {bus : PciBus} {kinds : List Kind} {slot i : ℕ}

/-- The class test reads the class register. -/
theorem isPciSerial_iff : d.isPciSerial config = true ↔ HasSerialClass config d := by
  unfold PciDevice.isPciSerial PciDevice.classCode PciDevice.subclass PciDevice.read
    PciDevice.classRegister HasSerialClass
  rw [Bool.and_eq_true, beq_iff_eq, beq_iff_eq, ← BitVec.toNat_inj, ← BitVec.toNat_inj,
    ← BitVec.toNat_inj]
  simp only [BitVec.toNat_setWidth, BitVec.toNat_ushiftRight, BitVec.toNat_ofNat,
    Nat.shiftRight_eq_div_pow]
  have hlt := (config (wrap (d.cfgBase + 8))).isLt
  omega

/-- In an ascending list the first element that meets a condition is the smallest one. -/
theorem find?_eq_some_of_ascending {l : List ℕ} {p : ℕ → Bool} (hl : l.Pairwise (· < ·))
    (hmem : i ∈ l) (hi : p i = true) (hbefore : ∀ j ∈ l, j < i → p j = false) :
    l.find? p = some i := by
  obtain ⟨j, hj⟩ := Option.isSome_iff_exists.mp (List.find?_isSome.mpr ⟨i, hmem, hi⟩)
  obtain ⟨hpj, as, bs, rfl, has⟩ := List.find?_eq_some_iff_append.mp hj
  rw [hj, Option.some.injEq]
  rcases List.mem_append.mp hmem with hfront | hback
  · have hnot := has i hfront
    rw [hi] at hnot
    cases hnot
  · rcases List.mem_cons.mp hback with rfl | hbehind
    · rfl
    · have hlt : j < i := (List.pairwise_cons.mp (List.pairwise_append.mp hl).2.1).1 i hbehind
      rw [hbefore j (List.mem_append_right _ List.mem_cons_self) hlt] at hpj
      cases hpj

/-- The bus is searched up to the first function of the serial class. -/
theorem findIf_serial (hpos : 1 ≤ bus.pciBusses) (hbusses : bus.pciBusses ≤ 256)
    (hbase : bus.mcfgBase < 2 ^ 64) (h : FirstSerial bus config d) :
    ∃ it, it.get = d ∧ findIf (fun it => it.equals bus.end')
      (Iterator.increment config (bus.functions + 1)) (fun it => it.get.isPciSerial config)
      Fault.unfinished (bus.functions + 1) bus.begin = .ok (some it) := by
  obtain ⟨⟨i, hi, rfl, hbefore⟩, hserial⟩ := h
  have hfind : (bus.visitedNumbers config).find?
      ((fun it => it.get.isPciSerial config) ∘ bus.position) = some i := by
    refine find?_eq_some_of_ascending PciBus.visitedNumbers_ascending
      ((PciBus.mem_visitedNumbers hpos).mpr hi) (isPciSerial_iff.mpr hserial) fun j hj hlt => ?_
    have hclass := hbefore j hlt ((PciBus.mem_visitedNumbers hpos).mp hj)
    exact Bool.eq_false_iff.mpr (mt isPciSerial_iff.mp hclass)
  refine ⟨bus.position i, rfl, ?_⟩
  rw [findIf_of_collect (PciBus.collect_begin_eq hpos hbusses hbase), List.find?_map, hfind]
  rfl

/-- The slot taken is the first one whose lowest bit is set. -/
theorem pioSlot_spec (h : LaidOut (d.slot config) PciDevice.numBars 0 kinds)
    (hports : FirstPorts kinds slot) :
    ∃ j ≤ slot, d.pioSlot config = some j ∧ (d.slot config j).getLsbD 0 = true ∧
      ∀ k < j, (d.slot config k).getLsbD 0 = false := by
  have hpio (k : ℕ) : (d.bar config k).isPio = (d.slot config k).getLsbD 0 := Bar.isPio_eq _
  have hslot : (d.slot config slot).getLsbD 0 = true := h.tags hports.mem
  have hsome : (d.pioSlot config).isSome := by
    refine List.find?_isSome.mpr ⟨slot, List.mem_range.mpr (h.lt_of_mem hports.mem), ?_⟩
    rw [hpio, hslot]
  obtain ⟨j, hj⟩ := Option.isSome_iff_exists.mp hsome
  obtain ⟨hbit, -, hbefore⟩ := List.find?_range_eq_some.mp hj
  simp only [hpio, Bool.not_eq_true'] at hbit hbefore
  refine ⟨j, ?_, hj, hbit, hbefore⟩
  by_contra hlt
  rw [hbefore slot (by omega)] at hslot
  cases hslot

/-- A memory region is not marked as an I/O region. -/
theorem eq_io_of_tags {kind : Kind} {v : BitVec 32} (h : kind.tags v = true)
    (hv : v.getLsbD 0 = true) : kind = .io := by
  cases kind with
  | mem32 prefetchable =>
    rw [Kind.tags, hv] at h
    cases h
  | mem64 prefetchable =>
    rw [Kind.tags, hv] at h
    cases h
  | io => rfl

/-- The slot taken is no second slot of a 64-bit region exactly if it is the one of the first I/O
region. -/
theorem pioSlot_iff (h : LaidOut (d.slot config) PciDevice.numBars 0 kinds)
    (hports : FirstPorts kinds slot) :
    (∀ k prefetchable, (k, Kind.mem64 prefetchable) ∈ placed 0 kinds →
      d.pioSlot config ≠ some (k + 1)) ↔ d.pioSlot config = some slot := by
  obtain ⟨j, hle, hj, hbit, -⟩ := pioSlot_spec h hports
  rw [hj]
  constructor
  · intro hupper
    rcases h.covers (Nat.zero_le j) (hle.trans_lt (h.lt_of_mem hports.mem)) with
      ⟨kind, hmem⟩ | ⟨k, prefetchable, hmem, rfl⟩
    · cases eq_io_of_tags (h.tags hmem) hbit
      rw [Nat.le_antisymm hle (hports.first j hmem)]
    · exact absurd rfl (hupper k prefetchable hmem)
  · rintro hslot k prefetchable hmem heq
    rw [hslot, Option.some.injEq] at heq
    exact not_mem_placed_succ hmem (heq ▸ hports.mem)

/-- The slot of the first I/O region is taken exactly if no second slot of a 64-bit region in
front of it has its lowest bit set. -/
theorem pioSlot_eq_iff (h : LaidOut (d.slot config) PciDevice.numBars 0 kinds)
    (hports : FirstPorts kinds slot) : d.pioSlot config = some slot ↔
      ∀ k prefetchable, (k, Kind.mem64 prefetchable) ∈ placed 0 kinds → k < slot →
        (d.slot config (k + 1)).getLsbD 0 = false := by
  obtain ⟨j, hle, hj, hbit, hbefore⟩ := pioSlot_spec h hports
  rw [hj, Option.some.injEq]
  constructor
  · rintro rfl k prefetchable hmem hlt
    refine hbefore (k + 1) (lt_of_le_of_ne hlt ?_)
    rintro rfl
    exact not_mem_placed_succ hmem hports.mem
  · intro hclear
    rcases h.covers (Nat.zero_le j) (hle.trans_lt (h.lt_of_mem hports.mem)) with
      ⟨kind, hmem⟩ | ⟨k, prefetchable, hmem, rfl⟩
    · cases eq_io_of_tags (h.tags hmem) hbit
      exact Nat.le_antisymm hle (hports.first j hmem)
    · rw [hclear k prefetchable hmem hle] at hbit
      cases hbit

/-- The offset of a card does not hide a difference between ports. -/
theorem serialPortOffsetQuirks_inj {p p' vendor device : BitVec 16} :
    serialPortOffsetQuirks p vendor device = serialPortOffsetQuirks p' vendor device ↔ p = p' := by
  unfold serialPortOffsetQuirks
  split
  · exact BitVec.add_left_inj _
  · rfl

/-- The port read through the address mask is the programmed one exactly if bits two and three
of it are clear. -/
theorem address_eq_programmedPort_iff (b : Bar) :
    b.address.setWidth 16 = programmedPort b.raw.value ↔
      b.raw.value.getLsbD 2 = false ∧ b.raw.value.getLsbD 3 = false := by
  have hread {i : ℕ} (hi : i < 16) :
      (b.address.setWidth 16).getLsbD i = (decide (4 ≤ i) && b.raw.value.getLsbD i) := by
    rw [BitVec.getLsbD_setWidth, Bar.getLsbD_address (by omega), if_pos (by omega)]
    simp [hi]
  have hprogrammed {i : ℕ} (hi : i < 16) :
      (programmedPort b.raw.value).getLsbD i = (decide (2 ≤ i) && b.raw.value.getLsbD i) := by
    have hmask : ∀ i < 16, (0xfffc#16).getLsbD i = decide (2 ≤ i) := by decide
    rw [programmedPort, BitVec.getLsbD_and, BitVec.getLsbD_setWidth, hmask i hi]
    simp [hi, Bool.and_comm]
  constructor
  · intro heq
    have hbit {i : ℕ} (hi : i < 16) := (hread hi).symm.trans ((congrArg (BitVec.getLsbD · i)
      heq).trans (hprogrammed hi))
    have htwo := hbit (show 2 < 16 by decide)
    have hthree := hbit (show 3 < 16 by decide)
    simp only [show ¬4 ≤ 2 by decide, show ¬4 ≤ 3 by decide, show 2 ≤ 2 by decide,
      show 2 ≤ 3 by decide, decide_true, decide_false, Bool.false_and, Bool.true_and] at htwo hthree
    exact ⟨htwo.symm, hthree.symm⟩
  · rintro ⟨htwo, hthree⟩
    apply BitVec.eq_of_getLsbD_eq
    intro i hi
    rw [hread hi, hprogrammed hi]
    by_cases hfour : 4 ≤ i
    · simp [hfour, show 2 ≤ i by omega]
    · by_cases hlow : 2 ≤ i
      · rcases show i = 2 ∨ i = 3 by omega with rfl | rfl
        · rw [htwo]
          rfl
        · rw [hthree]
          rfl
      · simp [hfour, hlow]

theorem AcpiMcfg.busses_eq {mcfg : AcpiMcfg} (h : mcfg.busStart.toNat ≤ mcfg.busEnd.toNat) :
    mcfg.busses = mcfg.busEnd.toNat + 1 - mcfg.busStart.toNat := by
  have hlt := mcfg.busEnd.isLt
  exact wsub_of_le (by omega) (by omega)

/-- With a serial device on the bus, the port is read from the slot taken. -/
theorem discoverSerialPort_eq (ports : Vector (BitVec 16) 4) {mcfg : AcpiMcfg}
    (hmcfg : mcfg.busStart.toNat ≤ mcfg.busEnd.toNat) (hserial : FirstSerial mcfg.bus config d)
    (hslot : d.pioSlot config = some slot) :
    discoverSerialPort config ports (some mcfg) =
      .ok (serialPortOffsetQuirks ((d.bar config slot).address.setWidth 16) (d.vendorId config)
        (d.deviceId config)) := by
  have hbusses : mcfg.bus.pciBusses = mcfg.busEnd.toNat + 1 - mcfg.busStart.toNat :=
    AcpiMcfg.busses_eq hmcfg
  have hlt := mcfg.busEnd.isLt
  have hpos : 1 ≤ mcfg.bus.pciBusses := by omega
  obtain ⟨it, rfl, hfind⟩ := findIf_serial hpos (by omega) mcfg.base.isLt hserial
  rw [discoverSerialPort]
  dsimp only
  rw [hfind, ok_bind]
  dsimp only
  rw [hslot]
  rfl

end Discovery

/-- The discovery returns the programmed port of the first I/O region, and takes no second slot of
a 64-bit region, when, and only when, no such slot in front of the first I/O region has its lowest
bit set and the port is a multiple of sixteen. -/
theorem discoverSerialPort_iff (config : ConfigSpace) (ports : Vector (BitVec 16) 4)
    (mcfg : AcpiMcfg) (d : PciDevice) (kinds : List Kind) (slot : ℕ)
    (hmcfg : mcfg.busStart.toNat ≤ mcfg.busEnd.toNat) (hserial : FirstSerial mcfg.bus config d)
    (hlaid : LaidOut (d.slot config) PciDevice.numBars 0 kinds) (hports : FirstPorts kinds slot) :
    (discoverSerialPort config ports (some mcfg) =
        .ok (serialPortOffsetQuirks (programmedPort (d.slot config slot)) (d.vendorId config)
          (d.deviceId config)) ∧
      ∀ k prefetchable, (k, Kind.mem64 prefetchable) ∈ placed 0 kinds →
        d.pioSlot config ≠ some (k + 1)) ↔
      (∀ k prefetchable, (k, Kind.mem64 prefetchable) ∈ placed 0 kinds → k < slot →
        (d.slot config (k + 1)).getLsbD 0 = false) ∧
      (d.slot config slot).getLsbD 2 = false ∧ (d.slot config slot).getLsbD 3 = false := by
  rw [pioSlot_iff hlaid hports, ← pioSlot_eq_iff hlaid hports, and_comm]
  refine and_congr_right fun hslot => ?_
  rw [discoverSerialPort_eq ports hmcfg hserial hslot, Except.ok.injEq,
    serialPortOffsetQuirks_inj]
  exact address_eq_programmedPort_iff (d.bar config slot)

/-- A serial card at the first function of the space at 0xe0000000, with the given registers in
its slots. -/
def serialCard (slots : List (BitVec 32)) : ConfigSpace := fun address =>
  if address = 0xe0000000 then 0x32531c00#32
  else if address = 0xe0000008 then 0x07000000#32
  else if 0xe0000010 ≤ address then (slots[(address - 0xe0000010) / 4]?).getD 0
  else 0

/-- The function of the serial card. -/
def serialCardDevice : PciDevice := ⟨0xe0000000, ⟨0, 0, 0⟩⟩

theorem serialCard_first (slots : List (BitVec 32)) :
    FirstSerial (AcpiMcfg.mk 0xe0000000#64 0 0).bus (serialCard slots) serialCardDevice where
  first := ⟨0, ⟨by decide, .inl rfl⟩, by decide, fun j hj => absurd hj (Nat.not_lt_zero j)⟩
  serial := by
    have haddress : wrap (serialCardDevice.cfgBase + 0x08) = 0xe0000008 := by decide
    rw [HasSerialClass, haddress, serialCard, if_neg (by decide), if_pos rfl]
    decide

/-- The regions of a card that has its ports behind a 64-bit memory region. -/
def portsBehindMemory : List Kind := [.mem64 false, .io, .mem32 false, .mem32 false, .mem32 false]

theorem portsBehindMemory_first : FirstPorts portsBehindMemory 2 where
  mem := by decide
  first j hj := by
    simp only [portsBehindMemory, placed, Kind.slots, List.mem_cons, Prod.mk.injEq, reduceCtorEq,
      and_false, and_true, List.not_mem_nil, or_false, false_or] at hj
    omega

/-- With ports at 0xe000 behind a memory region below the fourth gigabyte, the card is found at its
ports with the offset of 0xc0. -/
theorem discoverSerialPort_iff_card :
    discoverSerialPort (serialCard [0x00000004#32, 0x00000002#32, 0x0000e001#32])
        (Vector.replicate 4 0) (some (AcpiMcfg.mk 0xe0000000#64 0 0)) = .ok 0xe0c0#16 ∧
      serialCardDevice.pioSlot (serialCard [0x00000004#32, 0x00000002#32, 0x0000e001#32]) ≠
        some 1 := by
  have hiff := discoverSerialPort_iff (serialCard [0x00000004#32, 0x00000002#32, 0x0000e001#32])
    (Vector.replicate 4 0) ⟨0xe0000000#64, 0, 0⟩ serialCardDevice portsBehindMemory 2 (by decide)
    (serialCard_first _) (by simp only [LaidOut, portsBehindMemory]; decide +kernel)
    portsBehindMemory_first
  have hmemory : ∀ k prefetchable, (k, Kind.mem64 prefetchable) ∈ placed 0 portsBehindMemory →
      k = 0 := by
    simp [placed, portsBehindMemory]
  obtain ⟨hport, hslot⟩ := hiff.mpr ⟨fun k prefetchable hk _ => by
    rw [hmemory k prefetchable hk]
    decide +kernel, by decide +kernel, by decide +kernel⟩
  refine ⟨hport.trans ?_, hslot 0 false (by decide)⟩
  decide +kernel

/-- The upper half of a memory address with bit 32 set is taken instead of the ports at 0xe000,
and ports at 0xe008 are taken for those at 0xe000; the card has its ports at an offset of 0xc0. -/
theorem wrong_port_discovered :
    LaidOut (serialCardDevice.slot (serialCard [0x00000004#32, 0x00000001#32, 0x0000e001#32]))
        PciDevice.numBars 0 portsBehindMemory ∧
      discoverSerialPort (serialCard [0x00000004#32, 0x00000001#32, 0x0000e001#32])
        (Vector.replicate 4 0) (some (AcpiMcfg.mk 0xe0000000#64 0 0)) = .ok 0x00c0#16 ∧
      LaidOut (serialCardDevice.slot (serialCard [0x00000004#32, 0x00000000#32, 0x0000e009#32]))
        PciDevice.numBars 0 portsBehindMemory ∧
      discoverSerialPort (serialCard [0x00000004#32, 0x00000000#32, 0x0000e009#32])
        (Vector.replicate 4 0) (some (AcpiMcfg.mk 0xe0000000#64 0 0)) = .ok 0xe0c0#16 ∧
      serialPortOffsetQuirks (programmedPort 0x0000e001#32) 0x1c00#16 0x3253#16 = 0xe0c0#16 ∧
      serialPortOffsetQuirks (programmedPort 0x0000e009#32) 0x1c00#16 0x3253#16 = 0xe0c8#16 := by
  refine ⟨?_, by decide +kernel, ?_, by decide +kernel, by decide, by decide⟩
  · simp only [LaidOut, portsBehindMemory]
    decide +kernel
  · simp only [LaidOut, portsBehindMemory]
    decide +kernel

end Toyos.Pci
