import Toyos.Core.LittleEndian
import Toyos.Core.Loop
import Toyos.Util.Math

/-!
# Multiboot2 information

The builder arranges tags one after the other, each padded to eight bytes, behind
a fixed part with the total size and before a null tag. The reader is generic in
the fixed part and in the type of tags. It walks from tag to tag by the sizes it
finds in the bytes and stops only where it hits the announced end exactly.
-/

namespace Toyos.Boot

open Toyos.Core Toyos.Util

/-- An entry of a memory map. -/
structure MmapEntry where
  base : UInt64
  length : UInt64
  type : UInt32
  reserved : UInt32
  deriving DecidableEq, Repr

/-- The bytes of an entry. -/
def MmapEntry.image (e : MmapEntry) : List UInt8 :=
  leBytes 8 e.base.toNat ++ leBytes 8 e.length.toNat ++ leBytes 4 e.type.toNat ++
    leBytes 4 e.reserved.toNat

/-- The tags of the builder, by their fields behind type and size. -/
inductive Mbi2Tag
  /-- `mbi2_cmdline`. -/
  | cmdline
  /-- `mbi2_boot_module`. -/
  | bootModule (start stop : UInt32)
  /-- `mbi2_mmap`. -/
  | mmap (entrySize entryVersion : UInt32)
  /-- `mbi2_rsdp2`. -/
  | rsdp2
  /-- `mbi2_efi_system_table`. -/
  | efiSystemTable (systemTable : UInt64)
  /-- `mbi2_image_load_base`. -/
  | imageLoadBase (loadBaseAddr : UInt32)
  /-- `mbi2_nulltag`. -/
  | null
  deriving DecidableEq, Repr

namespace Mbi2Tag

/-- `TYPE`. -/
def type : Mbi2Tag → UInt32
  | .cmdline => 1
  | .bootModule _ _ => 3
  | .mmap _ _ => 6
  | .rsdp2 => 15
  | .efiSystemTable _ => 12
  | .imageLoadBase _ => 21
  | .null => 0

/-- The bytes of the fields behind type and size. -/
def fields : Mbi2Tag → List UInt8
  | .cmdline => []
  | .bootModule start stop => leBytes 4 start.toNat ++ leBytes 4 stop.toNat
  | .mmap entrySize entryVersion => leBytes 4 entrySize.toNat ++ leBytes 4 entryVersion.toNat
  | .rsdp2 => []
  | .efiSystemTable systemTable => leBytes 8 systemTable.toNat
  | .imageLoadBase loadBaseAddr => leBytes 4 loadBaseAddr.toNat
  | .null => []

/-- `sizeof` of the tag. -/
def sizeOf (tag : Mbi2Tag) : ℕ := 8 + tag.fields.length

/-- The bytes of the tag with the given size. -/
def image (tag : Mbi2Tag) (size : ℕ) : List UInt8 :=
  leBytes 4 tag.type.toNat ++ leBytes 4 size ++ tag.fields

end Mbi2Tag

/-- `ALIGNMENT`. -/
def tagAlignment : ℕ := 8

/-- `resize` of a byte vector. -/
def resize (raw : List UInt8) (size : ℕ) : List UInt8 :=
  raw.take size ++ List.replicate (size - raw.length) 0

/-- `add_tag`: the bytes added for a tag and its payload. -/
def addTag (tag : Mbi2Tag) (payload : List UInt8) : List UInt8 :=
  let size := tag.sizeOf + payload.length
  let alignedSize := alignUp size (orderMax tagAlignment)
  resize (tag.image size ++ payload) alignedSize

/-- A call of the builder. -/
inductive AddCall
  /-- `add_boot_cmdline`. -/
  | bootCmdline (cmdline : List UInt8)
  /-- `add_rsdp`, with the table that is copied. -/
  | rsdp (table : Vector UInt8 36)
  /-- `add_memory`. -/
  | memory (entries : List MmapEntry)
  /-- `add_boot_module`. -/
  | bootModule (start stop : UInt32) (cmdline : List UInt8)
  /-- `add_system_table`. -/
  | systemTable (address : UInt64)
  /-- `add_image_load_base`. -/
  | imageLoadBase (loadBase : UInt32)

namespace AddCall

/-- The tag of a call. -/
def tag : AddCall → Mbi2Tag
  | .bootCmdline _ => .cmdline
  | .rsdp _ => .rsdp2
  | .memory _ => .mmap 24 0
  | .bootModule start stop _ => .bootModule start stop
  | .systemTable address => .efiSystemTable address
  | .imageLoadBase loadBase => .imageLoadBase loadBase

/-- The payload of a call. -/
def payload : AddCall → List UInt8
  | .bootCmdline cmdline => cmdline ++ [0]
  | .rsdp table => table.toList
  | .memory entries => (entries.map MmapEntry.image).flatten
  | .bootModule _ _ cmdline => cmdline ++ [0]
  | .systemTable _ => []
  | .imageLoadBase _ => []

/-- The bytes a call adds. -/
def raw (call : AddCall) : List UInt8 := addTag call.tag call.payload

end AddCall

/-- `mbi2_builder`. -/
structure Mbi2Builder where
  rawData : List (List UInt8)

namespace Mbi2Builder

/-- One call of an `add` function. -/
def add (b : Mbi2Builder) (call : AddCall) : Mbi2Builder := ⟨b.rawData ++ [call.raw]⟩

/-- The sum of the sizes, kept in 32 bits. -/
def tagsSize (b : Mbi2Builder) : ℕ :=
  b.rawData.foldl (fun sum item => (sum + item.length) % 2 ^ 32) 0

/-- `build`. -/
def build (b : Mbi2Builder) : List UInt8 :=
  let totalSize := (8 + b.tagsSize + 8) % 2 ^ 32
  leBytes 4 totalSize ++ leBytes 4 0 ++ b.rawData.flatten ++ Mbi2Tag.null.image 8

end Mbi2Builder

/-- What may go wrong in a walk. -/
inductive ReadFault
  /-- A read outside the structure. -/
  | outside
  /-- The walk misses the end. -/
  | endless
  deriving DecidableEq, Repr

/-- `mb2_iterator_tag`: type, size and address of a tag. -/
structure IteratorTag where
  type : ℕ
  size : ℕ
  addr : ℕ
  deriving DecidableEq, Repr

/-- `FIXED_PART` and `TAG_TYPE` of a reader. Tags of either type take eight bytes and keep their
size in the last four. -/
structure Mb2Layout where
  /-- `sizeof(FIXED_PART)`. -/
  fixedSize : ℕ
  /-- Where the fixed part keeps the total size. -/
  totalSizeAt : ℕ
  /-- The bytes of the type of a tag. -/
  typeSize : ℕ
  deriving DecidableEq, Repr

/-- `mbi2_fixed` and `mbi2_tag`. -/
def mbi2Layout : Mb2Layout := ⟨8, 0, 4⟩

/-- `mb2_header_fixed` and `mb2_header_tag`. -/
def mb2HeaderLayout : Mb2Layout := ⟨16, 8, 2⟩

/-- Copy bytes out of readable memory. -/
def readBytes (mem : List UInt8) (addr count : ℕ) : Except ReadFault (List UInt8) := do
  ensure (addr + count ≤ mem.length) .outside
  return (mem.drop addr).take count

/-- `mb2_reader_generic` over readable memory; addresses are positions in it. -/
structure Mb2Reader (layout : Mb2Layout) where
  /-- The readable memory. -/
  mem : List UInt8
  raw : ℕ
  size : ℕ
  deriving DecidableEq, Repr

namespace Mb2Reader

variable {layout : Mb2Layout}

/-- The constructor copies the fixed part and keeps its total size. -/
def new (layout : Mb2Layout) (mem : List UInt8) (raw : ℕ) :
    Except ReadFault (Mb2Reader layout) := do
  let fix ← readBytes mem raw layout.fixedSize
  return ⟨mem, raw, leNat ((fix.drop layout.totalSizeAt).take 4)⟩

/-- `operator*`. -/
def deref (r : Mb2Reader layout) (currentTag : ℕ) : Except ReadFault IteratorTag := do
  let generic ← readBytes r.mem currentTag 8
  return ⟨leNat (generic.take layout.typeSize), leNat ((generic.drop 4).take 4), currentTag⟩

/-- `operator++`. -/
def advance (r : Mb2Reader layout) (currentTag : ℕ) : Except ReadFault ℕ := do
  let tag ← r.deref currentTag
  return currentTag + alignUp tag.size (orderMax tagAlignment) % 2 ^ 32

/-- `begin`. -/
def begin (r : Mb2Reader layout) : ℕ := r.raw + layout.fixedSize

/-- `end`. -/
def finish (r : Mb2Reader layout) : ℕ := r.raw + r.size

/-- One round of a loop over the tags. -/
def walkRound (r : Mb2Reader layout) (s : ℕ × List IteratorTag) :
    Except ReadFault ((ℕ × List IteratorTag) ⊕ List IteratorTag) := do
  if s.1 = r.finish then
    return .inr s.2
  let tag ← r.deref s.1
  let next ← r.advance s.1
  return .inl (next, s.2 ++ [tag])

/-- At most `rounds` rounds of a loop from `begin` to `end`. -/
def walk (r : Mb2Reader layout) (rounds : ℕ) : Except ReadFault (List IteratorTag) :=
  loop r.walkRound .endless rounds (r.begin, [])

/-- One round of `find_if`. -/
def findRound (r : Mb2Reader layout) (tagType : ℕ) (it : ℕ) : Except ReadFault (ℕ ⊕ ℕ) := do
  if it = r.finish then
    return .inr it
  let tag ← r.deref it
  if tag.type = tagType then
    return .inr it
  let next ← r.advance it
  return .inl next

/-- `find_tag`, with at most `rounds` rounds. -/
def findTag (r : Mb2Reader layout) (rounds tagType : ℕ) :
    Except ReadFault (Option IteratorTag) := do
  let it ← loop (r.findRound tagType) .endless rounds r.begin
  if it ≠ r.finish then
    let tag ← r.deref it
    return some tag
  return none

end Mb2Reader

/-- `mbi2_reader`. -/
abbrev Mbi2Reader := Mb2Reader mbi2Layout

namespace Mbi2Reader

/-- The constructor, for a structure where memory begins. -/
def new (mem : List UInt8) : Except ReadFault Mbi2Reader := Mb2Reader.new mbi2Layout mem 0

/-- All tags from `begin` to `end`. A walk with more rounds than there are bytes visits a tag
twice or leaves memory. -/
def tags (r : Mbi2Reader) : Except ReadFault (List IteratorTag) := r.walk (r.mem.length + 1)

/-- `find_tag`, with as many rounds. -/
def findTag (r : Mbi2Reader) (tagType : ℕ) : Except ReadFault (Option IteratorTag) :=
  Mb2Reader.findTag r (r.mem.length + 1) tagType

end Mbi2Reader

end Toyos.Boot
