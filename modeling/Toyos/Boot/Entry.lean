import Toyos.Boot.Acpi
import Toyos.Boot.Multiboot2RoundTrip

/-!
# The command line handed over at boot

`entry64` takes the command line from one of three places, depending on the boot
protocol. Xen PVH and Multiboot1 refer to a string that ends in front of a zero.
From a Multiboot2 tag everything behind the header is copied, and that includes
the zero which the builder appends to the string.
-/

namespace Toyos.Boot

open Toyos.Core Toyos.Util

/-- `boot_method`. -/
inductive BootMethod
  | multiboot1
  | multiboot2
  | xenPvh
  deriving DecidableEq, Repr

/-- Reason for not getting as far as the command line. -/
inductive EntryFault
  /-- A read outside memory, or a walk over tags that misses the end. -/
  | read (fault : ReadFault)
  /-- A tag is smaller than the type it is copied to. -/
  | tagTooSmall
  /-- The panic `Malformed cmdline tag`. -/
  | malformedCmdline
  /-- A walk over ACPI tables that does not end. -/
  | acpi (fault : Acpi.Fault)
  /-- The trap for an unknown magic number. -/
  | unknownMagic
  deriving DecidableEq, Repr

/-- What `entry64` has set and found when it comes to the console. -/
structure Entered where
  /-- `current_boot_method`. -/
  currentBootMethod : BootMethod
  /-- `boot_cmdline`. -/
  bootCmdline : List UInt8
  /-- The MCFG table, or zero. -/
  mcfg : ℕ
  deriving DecidableEq, Repr

/-- `xen_pvh::MAGIC`. -/
def pvhMagic : ℕ := 0x336ec578

/-- `multiboot_module::MAGIC_LDR`. -/
def multibootMagic : ℕ := 0x2badb002

/-- `MB2_MAGIC`. -/
def mb2Magic : ℕ := 0x36d76289

/-- Copy bytes out of memory; addresses are positions in it. -/
def readMemory (mem : List UInt8) (addr count : ℕ) : Except EntryFault (List UInt8) :=
  (readBytes mem addr count).mapError .read

/-- A little-endian field in memory. -/
def readField (mem : List UInt8) (addr size : ℕ) : Except EntryFault ℕ := do
  let raw ← readMemory mem addr size
  return leNat raw

/-- A string from a pointer: the bytes in front of the first zero. -/
def cString (mem : List UInt8) (addr : ℕ) : Except EntryFault (List UInt8) := do
  ensure (0 ∈ mem.drop addr) (.read .outside)
  return (mem.drop addr).takeWhile (· ≠ 0)

/-- `find_mcfg` on the tables in memory. -/
def findMcfg (mem : List UInt8) (rsdp : ℕ) : Except EntryFault ℕ := do
  let found ← (Acpi.findMcfg (fun addr => mem.getD addr 0) rsdp).mapError .acpi
  return found.table

/-- `get_cmdline` of the `multiboot_info` at an address. -/
def getCmdline (mem : List UInt8) (info : ℕ) : Except EntryFault (Option (List UInt8)) := do
  let flags ← readField mem info 4
  if flags &&& 1 <<< 2 = 0 then
    return none
  let addr ← readField mem (info + 16) 4
  let cmdline ← cString mem addr
  return some cmdline

namespace Mbi2Reader

/-- `get_full_tag`, for a type of the given size. -/
def getFullTag (r : Mbi2Reader) (tag : IteratorTag) (sizeOf : ℕ) :
    Except EntryFault (List UInt8) := do
  ensure (sizeOf ≤ tag.size) .tagTooSmall
  readMemory r.mem tag.addr sizeOf

/-- The command line in a Multiboot2 structure. -/
def cmdline (r : Mbi2Reader) : Except EntryFault (List UInt8) := do
  match ← (r.findTag Mbi2Tag.cmdline.type.toNat).mapError .read with
  | none => return []
  | some tag =>
    let fullTag ← r.getFullTag tag Mbi2Tag.cmdline.sizeOf
    let cmdlineBegin := tag.addr + fullTag.length
    let cmdlineEnd := tag.addr + tag.size
    ensure (cmdlineBegin ≤ cmdlineEnd) .malformedCmdline
    readMemory r.mem cmdlineBegin (cmdlineEnd - cmdlineBegin)

/-- The address of the root pointer that a Multiboot2 structure holds. -/
def rsdp (r : Mbi2Reader) : Except EntryFault (Option ℕ) := do
  match ← (r.findTag Mbi2Tag.rsdp2.type.toNat).mapError .read with
  | none => return none
  | some tag =>
    let fullTag ← r.getFullTag tag Mbi2Tag.rsdp2.sizeOf
    return some (tag.addr + fullTag.length)

end Mbi2Reader

/-- `entry64`, up to the console. -/
def entry64 (mem : List UInt8) (magic bootInfo : ℕ) : Except EntryFault Entered := do
  if magic = pvhMagic then
    let cmdlinePaddr ← readField mem (bootInfo + 24) 8
    let cmdline ← cString mem cmdlinePaddr
    let rsdpPaddr ← readField mem (bootInfo + 32) 8
    let mcfg ← findMcfg mem rsdpPaddr
    return ⟨.xenPvh, cmdline, mcfg⟩
  else if magic = multibootMagic then
    let cmdline ← getCmdline mem bootInfo
    let mcfg ← findMcfg mem 0
    return ⟨.multiboot1, cmdline.getD [], mcfg⟩
  else if magic = mb2Magic then
    let reader ← (Mbi2Reader.new (mem.drop bootInfo)).mapError .read
    let cmdline ← reader.cmdline
    match ← reader.rsdp with
    | none => return ⟨.multiboot2, cmdline, 0⟩
    | some rsdp =>
      let mcfg ← findMcfg mem (bootInfo + rsdp)
      return ⟨.multiboot2, cmdline, mcfg⟩
  else
    throw .unknownMagic

/-- `entry64` sets the command line to a string. -/
def SetsCmdline (mem : List UInt8) (magic bootInfo : ℕ) (s : List UInt8) : Prop :=
  ∃ out, entry64 mem magic bootInfo = .ok out ∧ out.bootCmdline = s

/-- The start info at an address refers to a string with a zero behind it. -/
structure PvhStart (mem : List UInt8) (bootInfo : ℕ) (s : List UInt8) : Prop where
  /-- Memory holds the start info up to the address of the root pointer. -/
  room : bootInfo + 40 ≤ mem.length
  /-- The string is where the start info says. -/
  cmdline : s ++ [0] <+: mem.drop (leNat ((mem.drop (bootInfo + 24)).take 8))

/-- At an address there is the structure that the builder makes after calls. -/
def Mbi2Start (mem : List UInt8) (bootInfo : ℕ) (calls : List AddCall) : Prop :=
  (calls.foldl Mbi2Builder.add ⟨[]⟩).build <+: mem.drop bootInfo

/-- Among calls there is one that adds a command line, and it adds the given one. -/
def AddsCmdline (calls : List AddCall) (s : List UInt8) : Prop :=
  ∃ before after, calls = before ++ .bootCmdline s :: after ∧
    ∀ call ∈ before ++ after, call.tag ≠ .cmdline

/-- Both protocols hand over the string as the command line. -/
structure SameCmdline (s : List UInt8) : Prop where
  /-- By way of Xen PVH. -/
  pvh : ∀ mem bootInfo, PvhStart mem bootInfo s → SetsCmdline mem pvhMagic bootInfo s
  /-- By way of Multiboot2. -/
  multiboot2 : ∀ mem bootInfo calls, AddsCmdline calls s → Mbi2Start mem bootInfo calls →
    SetsCmdline mem mb2Magic bootInfo s

/-- There is at most one command line. -/
theorem SetsCmdline.unique {mem s s' : List UInt8} {magic bootInfo : ℕ}
    (h : SetsCmdline mem magic bootInfo s) (h' : SetsCmdline mem magic bootInfo s') : s = s' := by
  obtain ⟨out, hout, rfl⟩ := h
  obtain ⟨out', hout', rfl⟩ := h'
  rw [ok_unique hout hout']

theorem exists_findMcfg (mem : List UInt8) (rsdp : ℕ) : ∃ mcfg, findMcfg mem rsdp = .ok mcfg := by
  obtain ⟨found, hfound⟩ := Acpi.exists_findMcfg (fun addr => mem.getD addr 0) rsdp
  exact ⟨found.table, by rw [findMcfg, hfound, mapError_ok, ok_bind, pure_eq_ok]⟩

theorem readField_eq {mem : List UInt8} {addr size : ℕ} (h : addr + size ≤ mem.length) :
    readField mem addr size = .ok (leNat ((mem.drop addr).take size)) := by
  rw [readField, readMemory, readBytes, ensure_of _ h, ok_bind, pure_eq_ok, mapError_ok,
    ok_bind, pure_eq_ok]

/-- A string that has no zero in it is read up to the zero behind it. -/
theorem cString_eq {mem s : List UInt8} {addr : ℕ} (hs : 0 ∉ s)
    (h : s ++ [0] <+: mem.drop addr) : cString mem addr = .ok s := by
  obtain ⟨rest, hrest⟩ := h
  have htake : (s ++ [0] ++ rest).takeWhile (· ≠ 0) = s := by
    rw [List.append_assoc, List.takeWhile_append_of_pos]
    · simp
    · intro b hb
      simpa using ne_of_mem_of_not_mem hb hs
  rw [cString, ← hrest, ensure_of _ (by simp), ok_bind, pure_eq_ok, htake]

/-- By way of Xen PVH the string arrives as it is. -/
theorem PvhStart.setsCmdline {mem s : List UInt8} {bootInfo : ℕ} (h : PvhStart mem bootInfo s)
    (hs : 0 ∉ s) : SetsCmdline mem pvhMagic bootInfo s := by
  have hroom := h.room
  obtain ⟨mcfg, hmcfg⟩ := exists_findMcfg mem (leNat ((mem.drop (bootInfo + 32)).take 8))
  refine ⟨⟨.xenPvh, s, mcfg⟩, ?_, rfl⟩
  rw [entry64, if_pos rfl, readField_eq (by omega), ok_bind, cString_eq hs h.cmdline, ok_bind,
    readField_eq (by omega), ok_bind, hmcfg, ok_bind, pure_eq_ok]

/-- Only the tag of a command line has its type. -/
theorem Mbi2Tag.eq_cmdline {tag : Mbi2Tag} (h : tag.type = Mbi2Tag.cmdline.type) :
    tag = .cmdline := by
  cases tag with
  | cmdline => rfl
  | _ => simp [type] at h

/-- No tag of valid records is smaller than its header. -/
theorem Record.size_of_mem_positions {addr : ℕ} {rs : List Record} {tag : IteratorTag}
    (h : ∀ r ∈ rs, r.Valid) (htag : tag ∈ positions addr rs) : 8 ≤ tag.size := by
  induction rs generalizing addr with
  | nil => cases htag
  | cons r rs ih =>
    rcases List.mem_cons.mp htag with rfl | hrest
    · exact (h r List.mem_cons_self).size_ge
    · exact ih (fun r' hr' => h r' (List.mem_cons_of_mem r hr')) hrest

section ReadBytes

variable {rest bytes out : List UInt8} {addr count : ℕ}

/-- A read that succeeds lies inside and gives the bytes there. -/
theorem readBytes_eq_ok : readBytes bytes addr count = .ok out ↔
    addr + count ≤ bytes.length ∧ out = (bytes.drop addr).take count := by
  by_cases hroom : addr + count ≤ bytes.length
  · simp [readBytes, hroom, eq_comm]
  · simp [readBytes, hroom]

theorem length_of_readBytes (h : readBytes bytes addr count = .ok out) : out.length = count := by
  obtain ⟨hroom, rfl⟩ := readBytes_eq_ok.mp h
  rw [List.length_take, List.length_drop]
  omega

/-- What can be read can be read with more memory behind it. -/
theorem readBytes_followedBy (h : readBytes bytes addr count = .ok out) :
    readBytes (bytes ++ rest) addr count = .ok out := by
  obtain ⟨hroom, rfl⟩ := readBytes_eq_ok.mp h
  rw [readBytes_eq_ok, List.length_append, List.drop_append_of_le_length (by omega),
    List.take_append_of_le_length (by rw [List.length_drop]; omega)]
  exact ⟨by omega, rfl⟩

theorem readMemory_followedBy (h : readMemory bytes addr count = .ok out) :
    readMemory (bytes ++ rest) addr count = .ok out :=
  mapError_eq_ok.mpr (readBytes_followedBy (mapError_eq_ok.mp h))

end ReadBytes

namespace Mbi2Reader

/-- The reader with more memory behind the structure. -/
def followedBy (r : Mbi2Reader) (rest : List UInt8) : Mbi2Reader :=
  { r with mem := r.mem ++ rest }

variable {r : Mbi2Reader} {rest bytes out : List UInt8} {addr count t : ℕ}

theorem finish_followedBy : (r.followedBy rest).finish = r.finish := rfl

theorem new_followedBy (h : new bytes = .ok r) : new (bytes ++ rest) = .ok (r.followedBy rest) := by
  obtain ⟨fixed, hfixed, hout⟩ := bind_eq_ok.mp h
  cases hout
  rw [new, Mb2Reader.new, readBytes_followedBy hfixed, ok_bind]
  rfl

theorem deref_followedBy {tag : IteratorTag} (h : r.deref addr = .ok tag) :
    (r.followedBy rest).deref addr = .ok tag := by
  obtain ⟨raw, hraw, hout⟩ := bind_eq_ok.mp h
  rw [Mb2Reader.deref, followedBy, readBytes_followedBy hraw, ok_bind]
  exact hout

theorem advance_followedBy {next : ℕ} (h : r.advance addr = .ok next) :
    (r.followedBy rest).advance addr = .ok next := by
  obtain ⟨tag, htag, hout⟩ := bind_eq_ok.mp h
  rw [Mb2Reader.advance, deref_followedBy htag, ok_bind]
  exact hout

theorem findRound_followedBy {next : ℕ ⊕ ℕ} (h : r.findRound t addr = .ok next) :
    (r.followedBy rest).findRound t addr = .ok next := by
  unfold Mb2Reader.findRound at h ⊢
  rw [finish_followedBy]
  by_cases hfinish : addr = r.finish
  · rwa [if_pos hfinish] at h ⊢
  · rw [if_neg hfinish] at h ⊢
    obtain ⟨tag, htag, hrest⟩ := bind_eq_ok.mp h
    rw [deref_followedBy htag, ok_bind]
    by_cases htype : tag.type = t
    · rwa [if_pos htype] at hrest ⊢
    · rw [if_neg htype] at hrest ⊢
      obtain ⟨next', hnext, hout⟩ := bind_eq_ok.mp hrest
      rw [advance_followedBy hnext, ok_bind]
      exact hout

/-- A tag that is found is found with more memory behind the structure. -/
theorem findTag_followedBy {found : Option IteratorTag} (h : r.findTag t = .ok found) :
    (r.followedBy rest).findTag t = .ok found := by
  obtain ⟨it, hit, hfound⟩ := bind_eq_ok.mp h
  have hloop : loop ((r.followedBy rest).findRound t) .endless
      ((r.followedBy rest).mem.length + 1) (r.followedBy rest).begin = .ok it :=
    loop_mono (fun _ _ => findRound_followedBy) (by simp [followedBy]) hit
  rw [findTag, Mb2Reader.findTag, hloop, ok_bind, finish_followedBy]
  by_cases hfinish : it ≠ r.finish
  · rw [if_pos hfinish] at hfound ⊢
    obtain ⟨tag, htag, hout⟩ := bind_eq_ok.mp hfound
    rw [deref_followedBy htag, ok_bind]
    exact hout
  · rwa [if_neg hfinish] at hfound ⊢

theorem getFullTag_followedBy {tag : IteratorTag} (h : r.getFullTag tag count = .ok out) :
    (r.followedBy rest).getFullTag tag count = .ok out := by
  obtain ⟨_, hsize, hout⟩ := bind_eq_ok.mp h
  rw [getFullTag, hsize, ok_bind]
  exact readMemory_followedBy hout

/-- The command line is the same with more memory behind the structure. -/
theorem cmdline_followedBy (h : r.cmdline = .ok out) : (r.followedBy rest).cmdline = .ok out := by
  obtain ⟨found, hfound, hrest⟩ := bind_eq_ok.mp h
  rw [cmdline, findTag_followedBy (mapError_eq_ok.mp hfound), mapError_ok, ok_bind]
  cases found with
  | none => exact hrest
  | some tag =>
    obtain ⟨fullTag, hfull, hcopy⟩ := bind_eq_ok.mp hrest
    obtain ⟨_, hpanic, hout⟩ := bind_eq_ok.mp hcopy
    dsimp only
    rw [getFullTag_followedBy hfull, ok_bind, hpanic, ok_bind]
    exact readMemory_followedBy hout

/-- So is the address of the root pointer. -/
theorem rsdp_followedBy {found : Option ℕ} (h : r.rsdp = .ok found) :
    (r.followedBy rest).rsdp = .ok found := by
  obtain ⟨tag, htag, hrest⟩ := bind_eq_ok.mp h
  rw [rsdp, findTag_followedBy (mapError_eq_ok.mp htag), mapError_ok, ok_bind]
  cases tag with
  | none => exact hrest
  | some tag =>
    obtain ⟨fullTag, hfull, hout⟩ := bind_eq_ok.mp hrest
    dsimp only
    rw [getFullTag_followedBy hfull, ok_bind]
    exact hout

/-- Behind the header of a record stands the content of its call. -/
theorem Over.read_content {fixed : List UInt8} {before after : List Record} {call : AddCall}
    (h : r.Over fixed (before ++ call.record :: after)) (hsize : call.size < 2 ^ 31) :
    readBytes r.mem (behind before + 8) call.content.length = .ok call.content := by
  have hmem : r.mem = (fixed ++ Record.bytes before ++ (leBytes 4 call.type ++
      leBytes 4 call.size)) ++ (call.content ++
        (List.replicate (call.paddedSize - call.size) 0 ++ Record.bytes after)) := by
    rw [h.mem_eq, Record.bytes_append, Record.bytes_cons, AddCall.record,
      AddCall.raw_eq (by omega)]
    simp
  have haddr : behind before + 8 = (fixed ++ Record.bytes before ++ (leBytes 4 call.type ++
      leBytes 4 call.size)).length := by
    rw [List.length_append, List.length_append, List.length_append, length_leBytes,
      length_leBytes, h.fixed_length]
    rfl
  rw [hmem, haddr, readBytes_append _ (by rw [List.length_append]; omega), List.take_left]

/-- A tag that was found can be copied, if it is large enough. -/
theorem getFullTag_of_findTag {tag : IteratorTag} (h : r.findTag t = .ok (some tag))
    (hsize : 8 ≤ tag.size) : ∃ raw, r.getFullTag tag 8 = .ok raw ∧ raw.length = 8 := by
  obtain ⟨it, -, hfound⟩ := bind_eq_ok.mp h
  by_cases hfinish : it ≠ r.finish
  · rw [if_pos hfinish] at hfound
    obtain ⟨tag', hderef, hout⟩ := bind_eq_ok.mp hfound
    cases hout
    obtain ⟨raw, hread, hout⟩ := bind_eq_ok.mp hderef
    cases hout
    refine ⟨raw, ?_, length_of_readBytes hread⟩
    rw [getFullTag, ensure_of _ hsize, ok_bind]
    exact mapError_eq_ok.mpr hread
  · rw [if_neg hfinish] at hfound
    cases hfound

/-- In a structure of records the search for a root pointer succeeds. -/
theorem Over.exists_rsdp {fixed : List UInt8} {rs : List Record} (h : r.Over fixed rs) :
    ∃ found, r.rsdp = .ok found := by
  have hfind := h.findTag_eq Mbi2Tag.rsdp2.type.toNat
  rw [rsdp, hfind, mapError_ok, ok_bind]
  cases hfound : (Record.positions 8 rs).find? _ with
  | none => exact ⟨none, rfl⟩
  | some tag =>
    rw [hfound] at hfind
    have hsize := Record.size_of_mem_positions h.valid (List.mem_of_find?_eq_some hfound)
    obtain ⟨raw, hraw, -⟩ := getFullTag_of_findTag hfind hsize
    refine ⟨some (tag.addr + raw.length), ?_⟩
    dsimp only
    rw [show Mbi2Tag.rsdp2.sizeOf = 8 from rfl, hraw, ok_bind, pure_eq_ok]

/-- The command line of a structure of records is the content of the first call that adds one. -/
theorem Over.cmdline_eq {fixed s : List UInt8} {before after : List Record}
    (h : r.Over fixed (before ++ (AddCall.bootCmdline s).record :: after))
    (hsize : (AddCall.bootCmdline s).size < 2 ^ 31)
    (hbefore : ∀ rec ∈ before, rec.type ≠ Mbi2Tag.cmdline.type.toNat) :
    r.cmdline = .ok (s ++ [0]) := by
  have hfind : r.findTag Mbi2Tag.cmdline.type.toNat = .ok (some
      ⟨Mbi2Tag.cmdline.type.toNat, (AddCall.bootCmdline s).size, behind before⟩) := by
    have hfirst := h.findTag_eq (AddCall.bootCmdline s).record.type
    rwa [Record.find_positions_eq_some hbefore] at hfirst
  have hge := (AddCall.bootCmdline s).size_ge
  obtain ⟨raw, hraw, hlength⟩ := getFullTag_of_findTag hfind hge
  have hcount : behind before + (AddCall.bootCmdline s).size - (behind before + 8) =
      (AddCall.bootCmdline s).content.length := by
    rw [Nat.add_sub_add_left, AddCall.content, List.length_append]
    exact Nat.add_sub_cancel_left 8 _
  rw [cmdline, hfind, mapError_ok, ok_bind]
  dsimp only
  rw [show Mbi2Tag.cmdline.sizeOf = 8 from rfl, hraw, ok_bind, hlength,
    ensure_of _ (Nat.add_le_add_left hge _), ok_bind, hcount]
  exact mapError_eq_ok.mpr (h.read_content hsize)

/-- The search for the type of the first tag stops there, unless the structure ends there. -/
theorem findTag_of_deref_begin {tag : IteratorTag} (h : r.deref r.begin = .ok tag) :
    r.findTag tag.type = .ok none ∨ r.findTag tag.type = .ok (some tag) := by
  by_cases hfinish : r.begin = r.finish
  · left
    have hround : r.findRound tag.type r.begin = .ok (.inr r.begin) := by
      rw [Mb2Reader.findRound, if_pos hfinish, pure_eq_ok]
    rw [findTag, Mb2Reader.findTag, loop_succ_eq_ok.mpr (.inl hround), ok_bind,
      if_neg (not_not_intro hfinish), pure_eq_ok]
  · right
    have hround : r.findRound tag.type r.begin = .ok (.inr r.begin) := by
      rw [Mb2Reader.findRound, if_neg hfinish, h, ok_bind, if_pos rfl, pure_eq_ok]
    rw [findTag, Mb2Reader.findTag, loop_succ_eq_ok.mpr (.inl hround), ok_bind, if_pos hfinish, h,
      ok_bind, pure_eq_ok]

/-- The length of the command line is that of what lies behind the header of its tag. -/
theorem length_cmdline {found : Option IteratorTag} (h : r.cmdline = .ok out)
    (hfind : r.findTag Mbi2Tag.cmdline.type.toNat = .ok found) :
    out = [] ∨ ∃ tag, found = some tag ∧ out.length + 8 = tag.size := by
  rw [cmdline, hfind, mapError_ok, ok_bind] at h
  cases found with
  | none =>
    cases h
    exact .inl rfl
  | some tag =>
    obtain ⟨raw, hraw, hcopy⟩ := bind_eq_ok.mp h
    obtain ⟨_, hpanic, hout⟩ := bind_eq_ok.mp hcopy
    obtain ⟨_, hlarge, hread⟩ := bind_eq_ok.mp hraw
    have hlength := length_of_readBytes (mapError_eq_ok.mp hread)
    have hcount := length_of_readBytes (mapError_eq_ok.mp hout)
    rw [ensure_eq_ok] at hlarge
    rw [hlength, show Mbi2Tag.cmdline.sizeOf = 8 from rfl] at hcount
    rw [show Mbi2Tag.cmdline.sizeOf = 8 from rfl] at hlarge
    exact .inr ⟨tag, rfl, by omega⟩

end Mbi2Reader

/-- By way of Multiboot2 the string arrives with a zero behind it. -/
theorem Mbi2Start.setsCmdline {mem s : List UInt8} {bootInfo : ℕ} {calls : List AddCall}
    (h : Mbi2Start mem bootInfo calls) (hcalls : AddsCmdline calls s)
    (hsize : Mbi2Builder.totalSize calls < 2 ^ 31) :
    SetsCmdline mem mb2Magic bootInfo (s ++ [0]) := by
  obtain ⟨rest, hrest⟩ := h
  obtain ⟨r, hnew, -, hover⟩ := Mbi2Builder.new_build hsize
  obtain ⟨found, hrsdp⟩ := hover.exists_rsdp
  have hcmdline : r.cmdline = .ok (s ++ [0]) := by
    obtain ⟨before, after, rfl, hothers⟩ := hcalls
    rw [Mbi2Builder.records, List.map_append, List.map_cons, List.append_assoc] at hover
    refine hover.cmdline_eq (Mbi2Builder.size_lt hsize (by simp)) fun rec hrec htype => ?_
    obtain ⟨call, hcall, rfl⟩ := List.mem_map.mp hrec
    rw [AddCall.record, ← AddCall.toNat_type_tag] at htype
    have htag : call.tag = .cmdline := Mbi2Tag.eq_cmdline (UInt32.toNat_inj.mp htype)
    exact hothers call (List.mem_append_left after hcall) htag
  have hentry : entry64 mem mb2Magic bootInfo = (do
      match found with
      | none => return ⟨.multiboot2, s ++ [0], 0⟩
      | some rsdp =>
        let mcfg ← findMcfg mem (bootInfo + rsdp)
        return ⟨.multiboot2, s ++ [0], mcfg⟩) := by
    rw [entry64, if_neg (by decide), if_neg (by decide), if_pos rfl, ← hrest,
      Mbi2Reader.new_followedBy hnew, mapError_ok, ok_bind,
      Mbi2Reader.cmdline_followedBy hcmdline, ok_bind, Mbi2Reader.rsdp_followedBy hrsdp, ok_bind]
  cases found with
  | none => exact ⟨_, hentry, rfl⟩
  | some rsdp =>
    obtain ⟨mcfg, hmcfg⟩ := exists_findMcfg mem (bootInfo + rsdp)
    dsimp only at hentry
    rw [hmcfg, ok_bind] at hentry
    exact ⟨_, hentry, rfl⟩

/-- By way of Multiboot2 the command line is the one that the reader finds. -/
theorem SetsCmdline.exists_reader {mem s : List UInt8} {bootInfo : ℕ}
    (h : SetsCmdline mem mb2Magic bootInfo s) :
    ∃ r, Mbi2Reader.new (mem.drop bootInfo) = .ok r ∧ r.cmdline = .ok s := by
  obtain ⟨out, hout, rfl⟩ := h
  rw [entry64, if_neg (by decide), if_neg (by decide), if_pos rfl] at hout
  obtain ⟨r, hnew, hrest⟩ := bind_eq_ok.mp hout
  obtain ⟨cmdline, hcmdline, hrest⟩ := bind_eq_ok.mp hrest
  obtain ⟨found, -, hrest⟩ := bind_eq_ok.mp hrest
  refine ⟨r, mapError_eq_ok.mp hnew, ?_⟩
  cases found with
  | none =>
    cases hrest
    exact hcmdline
  | some rsdp =>
    obtain ⟨mcfg, -, hrest⟩ := bind_eq_ok.mp hrest
    cases hrest
    exact hcmdline

namespace AddCall

variable {call : AddCall}

theorem length_raw_eq (call : AddCall) : call.raw.length = alignUp call.size 3 := by
  rw [raw_eq_resize, length_resize]

/-- A call adds nothing at all, or a header and more. -/
theorem raw_cases (call : AddCall) : call.raw = [] ∨ 8 ≤ call.raw.length := by
  have hlength := call.length_raw_eq
  rw [alignUp, alignDown_eq (wrap_lt _) (by decide)] at hlength
  by_cases hge : 8 ≤ call.raw.length
  · exact .inr hge
  · exact .inl (List.length_eq_zero_iff.mp (by omega))

/-- What a call adds starts with type and size. -/
theorem take_raw (h : 8 ≤ call.raw.length) :
    call.raw.take 8 = leBytes 4 call.type ++ leBytes 4 call.size := by
  rw [raw_eq_resize, length_resize] at h
  rw [raw_eq_resize, take_resize h]
  · exact List.take_left' (by simp)
  · simp only [List.length_append, length_leBytes]
    omega

end AddCall

/-- The structure with one command line and nothing else. -/
def onlyCmdline (s : List UInt8) : List UInt8 :=
  (([.bootCmdline s] : List AddCall).foldl Mbi2Builder.add ⟨[]⟩).build

/-- A structure for a call that has added its header starts with that header. -/
theorem deref_begin {call : AddCall} {r : Mbi2Reader} (hraw : 8 ≤ call.raw.length)
    (hnew : Mbi2Reader.new (Mbi2Builder.build ⟨[call.raw]⟩) = .ok r) :
    r.deref r.begin = .ok ⟨call.type, call.size % 2 ^ 32, r.begin⟩ := by
  have hreader : r.mem = Mbi2Builder.build ⟨[call.raw]⟩ ∧ r.begin = 8 := by
    obtain ⟨fixed, -, hout⟩ := bind_eq_ok.mp hnew
    cases hout
    exact ⟨rfl, rfl⟩
  have hread : readBytes r.mem r.begin 8 = .ok (leBytes 4 call.type ++ leBytes 4 call.size) := by
    rw [hreader.1, hreader.2, Mbi2Builder.build, List.flatten_singleton, List.append_assoc,
      ← AddCall.take_raw hraw, ← List.take_append_of_le_length hraw]
    exact readBytes_append _ (by rw [List.length_append]; omega)
  rw [Mbi2Reader.deref_of_readBytes hread, Nat.mod_eq_of_lt call.type_lt]

/-- The command line of a structure that has nothing else in it is empty or as long as its size
says, in 32 bits. -/
theorem length_of_onlyCmdline {s out : List UInt8}
    (h : SetsCmdline (onlyCmdline s) mb2Magic 0 out) :
    out = [] ∨ out.length + 8 = (s.length + 9) % 2 ^ 32 := by
  obtain ⟨r, hnew, hcmdline⟩ := h.exists_reader
  rcases (AddCall.bootCmdline s).raw_cases with hraw | hraw
  · have hempty : onlyCmdline s = Mbi2Builder.build ⟨[[]]⟩ := by
      rw [← hraw]
      rfl
    rw [hempty] at hnew
    have hnone : r.findTag Mbi2Tag.cmdline.type.toNat = .ok none := by
      cases hnew
      decide
    rcases Mbi2Reader.length_cmdline hcmdline hnone with hnil | ⟨tag, ⟨⟩, -⟩
    exact .inl hnil
  · have hderef := deref_begin hraw hnew
    have hsize : (AddCall.bootCmdline s).size = s.length + 9 := by
      rw [AddCall.size]
      omega
    rcases Mbi2Reader.findTag_of_deref_begin hderef with hnone | hfound
    · rcases Mbi2Reader.length_cmdline hcmdline hnone with hnil | ⟨tag, ⟨⟩, -⟩
      exact .inl hnil
    · rcases Mbi2Reader.length_cmdline hcmdline hfound with hnil | ⟨tag, ⟨⟩, hlength⟩
      · exact .inl hnil
      · rw [hsize] at hlength
        exact .inr hlength

/-- A string that is not empty is not handed over by a structure that has nothing else in it. -/
theorem not_setsCmdline_onlyCmdline {s : List UInt8} (hs : s ≠ []) :
    ¬SetsCmdline (onlyCmdline s) mb2Magic 0 s := by
  intro h
  rcases length_of_onlyCmdline h with hnil | hlength
  · exact hs hnil
  · omega

/-- No command line is the same for both protocols: Xen PVH hands over the string, Multiboot2 the
string with a zero behind it. -/
theorem not_sameCmdline (s : List UInt8) (hs : 0 ∉ s) :
    (∀ mem bootInfo, PvhStart mem bootInfo s → SetsCmdline mem pvhMagic bootInfo s) ∧
      (∀ mem bootInfo calls, AddsCmdline calls s → Mbi2Start mem bootInfo calls →
        Mbi2Builder.totalSize calls < 2 ^ 31 → SetsCmdline mem mb2Magic bootInfo (s ++ [0])) ∧
      ¬SameCmdline s := by
  refine ⟨fun mem bootInfo h => h.setsCmdline hs,
    fun mem bootInfo calls hcalls h hsize => h.setsCmdline hcalls hsize, fun hsame => ?_⟩
  have hcalls : AddsCmdline [.bootCmdline s] s := ⟨[], [], rfl, by simp⟩
  have hstart : Mbi2Start (onlyCmdline s) 0 [.bootCmdline s] := List.prefix_rfl
  have hset := hsame.multiboot2 _ _ _ hcalls hstart
  by_cases hnil : s = []
  · subst hnil
    have hzero : SetsCmdline (onlyCmdline []) mb2Magic 0 [0] :=
      hstart.setsCmdline hcalls (by decide)
    exact absurd (hset.unique hzero) (by decide)
  · exact not_setsCmdline_onlyCmdline hnil hset

/-- Memory with a start info at address zero and a string behind it. -/
def startInfo (s : List UInt8) : List UInt8 :=
  List.replicate 24 0 ++ leBytes 8 40 ++ leBytes 8 40 ++ s ++ [0]

theorem not_sameCmdline_letter :
    SetsCmdline (startInfo [97]) pvhMagic 0 [97] ∧
      SetsCmdline (onlyCmdline [97]) mb2Magic 0 ([97] ++ [0]) ∧ ¬SameCmdline [97] := by
  obtain ⟨hpvh, hmb2, hdifferent⟩ := not_sameCmdline [97] (by decide)
  exact ⟨hpvh _ _ ⟨by decide, by decide⟩,
    hmb2 _ _ [.bootCmdline [97]] ⟨[], [], rfl, by simp⟩ List.prefix_rfl (by decide), hdifferent⟩

/-- Started with the command line `a` by way of Xen PVH and by way of Multiboot2, the guest sees
two different command lines. -/
theorem terminator_copied :
    entry64 (startInfo [97]) pvhMagic 0 = .ok ⟨.xenPvh, [97], 0⟩ ∧
      entry64 (onlyCmdline [97]) mb2Magic 0 = .ok ⟨.multiboot2, [97, 0], 0⟩ := by
  decide +kernel

end Toyos.Boot
