import Toyos.Core.BitField
import Toyos.Core.Flag
import Toyos.Util.Math

/-!
# Entries of the paging structures

The classes `PTE`, `PDE` and `PDPTE` over raw 64-bit values: their getters, their
config constructors, and every setter with the TLB invalidation it asks for. A
setter first replaces bits of the raw value and then looks at the new entry to
decide what to invalidate. Page-directory and page-directory-pointer entries
share their code and differ in the address bits of a large page.
-/

namespace Toyos.Paging

open Toyos.Core Toyos.Util

/-- Present. -/
def prMask : BitVec 64 := maskBits 1 0
/-- Read/write. -/
def rwMask : BitVec 64 := maskBits 1 1
/-- User/supervisor. -/
def usMask : BitVec 64 := maskBits 1 2
/-- Page-level write-through. -/
def pwtMask : BitVec 64 := maskBits 1 3
/-- Page-level cache-disable. -/
def pcdMask : BitVec 64 := maskBits 1 4
/-- Accessed. -/
def aMask : BitVec 64 := maskBits 1 5
/-- Dirty. -/
def dMask : BitVec 64 := maskBits 1 6
/-- Global. -/
def glMask : BitVec 64 := maskBits 1 8
/-- Address of a page or of the next paging structure. -/
def addrMask : BitVec 64 := maskBits 40 12
/-- Protection key. -/
def protKeyMask : BitVec 64 := maskBits 4 59
/-- Execute-disable. -/
def xdMask : BitVec 64 := maskBits 1 63

/-- Whether a raw value has a bit of a mask. -/
def test (raw mask : BitVec 64) : Bool := raw &&& mask != 0

/-- The bits of a mask, or none of them. -/
def times (value : Bool) (mask : BitVec 64) : BitVec 64 := if value then mask else 0

/-- A protection key at its place in an entry. -/
def keyBits (key : BitVec 8) : BitVec 64 := key.setWidth 64 <<< 59

section Getters

variable (raw : BitVec 64)

/-- Whether the entry is present. -/
def isPresent : Bool := test raw prMask

/-- Whether the region can be written. -/
def isWriteable : Bool := isPresent raw && test raw rwMask

/-- Whether the region is accessible in user mode. -/
def isUsermode : Bool := isPresent raw && test raw usMask

/-- Whether the region is write-through. -/
def isPwt : Bool := isPresent raw && test raw pwtMask

/-- Whether the region is uncached. -/
def isPcd : Bool := isPresent raw && test raw pcdMask

/-- Whether the region has been accessed. -/
def isAccessed : Bool := isPresent raw && test raw aMask

/-- Whether execution is disabled. -/
def isExecDisable : Bool := isPresent raw && test raw xdMask

end Getters

/-- Instructions that drop translations from the TLB. -/
inductive Instruction where
  /-- Invalidate the page that contains a linear address. -/
  | invlpg (linear : BitVec 64)
  /-- Reload the page-table base register. -/
  | setCr3
  /-- Write the control register with the enable bit of global pages. -/
  | setCr4 (pge : Bool)
  deriving DecidableEq, Repr

/-- Whether a setter invalidates. -/
inductive TlbInvalidation where
  | yes
  | no
  deriving DecidableEq, Repr

/-- Undefined behaviour on the way. -/
inductive Fault where
  /-- An empty optional has been dereferenced. -/
  | emptyOptional
  deriving DecidableEq, Repr

/-- Drop the non-global translations. -/
def invalidateTlbNonGlobal : List Instruction := [.setCr3]

/-- Drop all translations. -/
def invalidateTlbAll : List Instruction := [.setCr4 false, .setCr4 true]

/-- Drop the translations of one page. -/
def invalidateTlb (linear : BitVec 64) : List Instruction := [.invlpg linear]

/-- Linear address of a physical one. -/
def phyToLin (address : BitVec 64) : BitVec 64 := address

/-- Access to the value of an optional. -/
def deref {α : Type} : Option α → Except Fault α
  | some a => .ok a
  | none => .error .emptyOptional

/-- What a setter has done. -/
structure Outcome where
  /-- The entry after the call. -/
  raw : BitVec 64
  /-- Whether the setter applied to the entry. -/
  applied : Bool
  /-- The executed invalidation. -/
  flush : Except Fault (List Instruction)

namespace Pte

/-- Page attribute table. -/
def patMask : BitVec 64 := maskBits 1 7

/-- Description of a page-table entry. -/
structure PtEntry where
  /-- Address of the page. -/
  address : BitVec 64 := 0
  /-- Present. -/
  present : Bool := false
  /-- Read/write. -/
  readwrite : Bool := false
  /-- User/supervisor. -/
  usermode : Bool := false
  /-- Page-level write-through. -/
  pwt : Bool := false
  /-- Page-level cache-disable. -/
  pcd : Bool := false
  /-- Accessed. -/
  accessed : Bool := false
  /-- Dirty. -/
  dirty : Bool := false
  /-- Page attribute table. -/
  pat : Bool := false
  /-- Global. -/
  global : Bool := false
  /-- Protection key. -/
  key : BitVec 8 := 0
  /-- Execute-disable. -/
  execute : Bool := false

/-- The entry of a description. -/
def ofConfig (config : PtEntry) : BitVec 64 :=
  times config.present prMask ||| times config.readwrite rwMask |||
    times config.usermode usMask ||| times config.pwt pwtMask ||| times config.pcd pcdMask |||
    times config.accessed aMask ||| times config.dirty dMask ||| times config.pat patMask |||
    times config.global glMask ||| times config.execute xdMask |||
    (config.address &&& addrMask) ||| (keyBits config.key &&& protKeyMask)

section Getters

variable (raw : BitVec 64)

/-- Whether the page has been written. -/
def isDirty : Bool := isPresent raw && test raw dMask

/-- Whether the page attribute bit is set. -/
def isPat : Bool := isPresent raw && test raw patMask

/-- Whether the translation is global. -/
def isGlobal : Bool := isPresent raw && test raw glMask

/-- Address of the page. -/
def getPhysAddr : Option (BitVec 64) :=
  if isPresent raw then some (raw &&& addrMask) else none

/-- Protection key of the page. -/
def getProtKey : Option (BitVec 8) :=
  if isPresent raw then some (((raw &&& protKeyMask) >>> 59).setWidth 8) else none

/-- The invalidation for an entry, decided by its current content. -/
def invalidateEntry (invl : TlbInvalidation) : Except Fault (List Instruction) := do
  if invl = .no then
    return []
  else if isGlobal raw then
    return invalidateTlbAll
  else
    return invalidateTlb (phyToLin (← deref (getPhysAddr raw)))

/-- Replace bits and invalidate the entry. -/
def update (clr set : BitVec 64) (invl : TlbInvalidation) : Outcome :=
  ⟨setBits raw clr set, true, invalidateEntry (setBits raw clr set) invl⟩

/-- Set or clear a flag and invalidate the entry. -/
def accessHelper (value : Bool) (mask : BitVec 64) (invl : TlbInvalidation) : Outcome :=
  update raw mask (times value mask) invl

end Getters

/-- The setters of a page-table entry. -/
inductive Setter where
  | setPresent (pres : Bool)
  | setWriteable (wr : Bool)
  | setUsermode (mode : Bool)
  | setPwt (pwt : Bool)
  | setPcd (pcd : Bool)
  | setAccessed (acc : Bool)
  | setExecDisable (exec : Bool)
  | setDirty (dirty : Bool)
  | setPat (pat : Bool)
  | setGlobal (global : Bool)
  | setPhysAddr (addr : BitVec 64)
  | setProtKey (key : BitVec 8)
  deriving DecidableEq, Repr

/-- A call of a setter. -/
def call (raw : BitVec 64) (invl : TlbInvalidation) : Setter → Outcome
  | .setPresent pres => accessHelper raw pres prMask invl
  | .setWriteable wr => accessHelper raw wr rwMask invl
  | .setUsermode mode => accessHelper raw mode usMask invl
  | .setPwt pwt => accessHelper raw pwt pwtMask invl
  | .setPcd pcd => accessHelper raw pcd pcdMask invl
  | .setAccessed acc => accessHelper raw acc aMask invl
  | .setExecDisable exec => accessHelper raw exec xdMask invl
  | .setDirty dirty => accessHelper raw dirty dMask invl
  | .setPat pat => accessHelper raw pat patMask invl
  | .setGlobal global => accessHelper raw global glMask invl
  | .setPhysAddr addr => update raw addrMask addr invl
  | .setProtKey key => update raw protKeyMask (keyBits key) invl

end Pte

namespace Directory

/-- Page size: set for a large page, clear for a table. -/
def psMask : BitVec 64 := maskBits 1 7

/-- Page attribute table of a large page. -/
def patMask : BitVec 64 := maskBits 1 12

/-- The two classes of directory entries. -/
inductive Level where
  /-- Entry of a page directory. -/
  | pde
  /-- Entry of a page-directory-pointer table. -/
  | pdpte
  deriving DecidableEq, Repr

/-- Address of a large page, of two megabytes or of one gigabyte. -/
def lpageMask : Level → BitVec 64
  | .pde => maskBits 31 21
  | .pdpte => maskBits 22 30

/-- Description of a directory entry. -/
structure DirectoryEntry where
  /-- Address of the page or the table. -/
  address : BitVec 64 := 0
  /-- Present. -/
  present : Bool := false
  /-- Read/write. -/
  readwrite : Bool := false
  /-- User/supervisor. -/
  usermode : Bool := false
  /-- Page-level write-through. -/
  pwt : Bool := false
  /-- Page-level cache-disable. -/
  pcd : Bool := false
  /-- Accessed. -/
  accessed : Bool := false
  /-- Dirty. -/
  dirty : Bool := false
  /-- Large page. -/
  pagesize : Bool := false
  /-- Global. -/
  global : Bool := false
  /-- Page attribute table. -/
  pat : Bool := false
  /-- Protection key. -/
  key : BitVec 8 := 0
  /-- Execute-disable. -/
  execute : Bool := false

/-- The entry of a description. -/
def ofConfig (level : Level) (config : DirectoryEntry) : BitVec 64 :=
  times config.present prMask ||| times config.readwrite rwMask |||
    times config.usermode usMask ||| times config.pwt pwtMask ||| times config.pcd pcdMask |||
    times config.accessed aMask ||| times config.dirty dMask ||| times config.pagesize psMask |||
    times config.global glMask ||| times config.pat patMask ||| times config.execute xdMask |||
    if config.pagesize then
      (config.address &&& lpageMask level) ||| (keyBits config.key &&& protKeyMask)
    else config.address &&& addrMask

/-- An entry that refers to a table: `pde_to_pt`, `pdpte_to_pdir`. -/
def toTable (level : Level) (config : DirectoryEntry) : BitVec 64 :=
  ofConfig level { config with
    dirty := false, pagesize := false, global := false, pat := false, key := 0 }

/-- An entry that maps a large page: `pde_to_2mb_page`, `pdpte_to_1gb_page`. -/
def toPage (level : Level) (config : DirectoryEntry) : BitVec 64 :=
  ofConfig level { config with pagesize := true }

section Getters

variable (level : Level) (raw : BitVec 64)

/-- Whether the entry maps a large page. -/
def isLarge : Bool := isPresent raw && test raw psMask

/-- Whether the page has been written. -/
def isDirty : Bool := isLarge raw && test raw dMask

/-- Whether the translation is global. -/
def isGlobal : Bool := isLarge raw && test raw glMask

/-- Whether the page attribute bit is set. -/
def isPat : Bool := isLarge raw && test raw patMask

/-- Protection key of the page. -/
def getProtKey : Option (BitVec 8) :=
  if isLarge raw && isPresent raw then some (((raw &&& protKeyMask) >>> 59).setWidth 8) else none

/-- Address of the table: `get_pt`, `get_pdir`. -/
def getTable : Option (BitVec 64) :=
  if !isLarge raw && isPresent raw then some (raw &&& addrMask) else none

/-- Address of the large page. -/
def getPage : Option (BitVec 64) :=
  if isLarge raw && isPresent raw then some (raw &&& lpageMask level) else none

/-- The invalidation for an entry, decided by its current content. -/
def invalidateEntry (invl : TlbInvalidation) : Except Fault (List Instruction) := do
  if invl = .no then
    return []
  else if isGlobal raw then
    return invalidateTlbAll
  else if isLarge raw then
    return invalidateTlb (phyToLin (← deref (getPage level raw)))
  else
    return invalidateTlbNonGlobal

/-- Replace bits if the condition holds, and then invalidate the entry. -/
def updateIf (condition : Bool) (clr set : BitVec 64) (invl : TlbInvalidation) : Outcome :=
  if condition then
    ⟨setBits raw clr set, true, invalidateEntry level (setBits raw clr set) invl⟩
  else ⟨raw, false, .ok []⟩

/-- Replace bits of an entry that maps a large page. -/
def updateIfBigPs (clr set : BitVec 64) (invl : TlbInvalidation) : Outcome :=
  updateIf level raw (isLarge raw) clr set invl

/-- Replace bits of an entry that does not map a large page. -/
def updateIfSmallPs (clr set : BitVec 64) (invl : TlbInvalidation) : Outcome :=
  updateIf level raw (!isLarge raw) clr set invl

/-- Set or clear a flag and invalidate the entry. -/
def accessHelper (value : Bool) (mask : BitVec 64) (invl : TlbInvalidation) : Outcome :=
  updateIf level raw true mask (times value mask) invl

end Getters

/-- The setters of a directory entry. -/
inductive Setter where
  | setPresent (pres : Bool)
  | setWriteable (wr : Bool)
  | setUsermode (mode : Bool)
  | setPwt (pwt : Bool)
  | setPcd (pcd : Bool)
  | setAccessed (acc : Bool)
  | setDirty (dirty : Bool)
  | setGlobal (global : Bool)
  | setPat (pat : Bool)
  | setExecDisable (exec : Bool)
  | setProtKey (key : BitVec 8)
  /-- The setters `set_pt` and `set_pdir`. -/
  | setTable (addr : BitVec 64)
  | setPage (addr : BitVec 64)
  deriving DecidableEq, Repr

/-- A call of a setter. -/
def call (level : Level) (raw : BitVec 64) (invl : TlbInvalidation) : Setter → Outcome
  | .setPresent pres => accessHelper level raw pres prMask invl
  | .setWriteable wr => accessHelper level raw wr rwMask invl
  | .setUsermode mode => accessHelper level raw mode usMask invl
  | .setPwt pwt => accessHelper level raw pwt pwtMask invl
  | .setPcd pcd => accessHelper level raw pcd pcdMask invl
  | .setAccessed acc => accessHelper level raw acc aMask invl
  | .setDirty dirty => updateIfBigPs level raw dMask (times dirty dMask) invl
  | .setGlobal global => updateIfBigPs level raw glMask (times global glMask) invl
  | .setPat pat => updateIfBigPs level raw patMask (times pat patMask) invl
  | .setExecDisable exec => accessHelper level raw exec xdMask invl
  | .setProtKey key => updateIfBigPs level raw protKeyMask (keyBits key) invl
  | .setTable addr => updateIfSmallPs level raw addrMask addr invl
  | .setPage addr => updateIfBigPs level raw (lpageMask level) addr invl

end Directory

/-- The setters of all three classes. -/
inductive EntrySetter where
  /-- A setter of `PTE`. -/
  | pte (s : Pte.Setter)
  /-- A setter of `PDE` or `PDPTE`. -/
  | directory (level : Directory.Level) (s : Directory.Setter)
  deriving DecidableEq, Repr

/-- A call of a setter of any class. -/
def EntrySetter.call (raw : BitVec 64) (invl : TlbInvalidation) : EntrySetter → Outcome
  | pte s => Pte.call raw invl s
  | directory level s => Directory.call level raw invl s

end Toyos.Paging
