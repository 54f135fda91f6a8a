import Toyos.Core.Chain
import Toyos.Core.LittleEndian
import Toyos.Core.Memory
import Toyos.Core.Word

/-!
# Walks over ACPI tables

`find_mcfg` goes from the root pointer to the root table and over the pointers in
it; the number of pointers comes from the length of the table by an unsigned
subtraction. The iterator over the entries of a DMAR table steps by the length of
each entry. The reads of the root table are recorded, so that their offsets can
be compared with its length.
-/

namespace Toyos.Boot.Acpi

open Toyos.Core

/-- Reason for stopping a walk. -/
inductive Fault where
  /-- More rounds than the walk is allowed. -/
  | unfinished
  deriving DecidableEq, Repr

/-- A little-endian field in memory. -/
def field (m : Memory) (addr size : ℕ) : ℕ := leNat (m.load addr size)

/-- Size of the header of a table. -/
def headerSize : ℕ := 36

/-- Length of a table, from its header. -/
def tableLength (m : Memory) (table : ℕ) : ℕ := field m (table + 4) 4

/-- The signature `RSD PTR ` of the root pointer. -/
def rsdpSignature : List UInt8 := [0x52, 0x53, 0x44, 0x20, 0x50, 0x54, 0x52, 0x20]

/-- The signature `MCFG`. -/
def mcfgSignature : List UInt8 := [0x4d, 0x43, 0x46, 0x47]

/-- The first root pointer on a 16-byte boundary of an interval. -/
def findRsdp (m : Memory) (a b : ℕ) : Option ℕ :=
  (List.range' a ((b - a + 15) / 16) 16).find? fun p => m.load p 8 == rsdpSignature

/-- The given root pointer, or the one found in the extended BIOS data area or below one
megabyte. -/
def locateRsdp (m : Memory) (rsdp : ℕ) : Option ℕ :=
  if rsdp ≠ 0 then some rsdp
  else
    let ebdaPtr := field m 0x40e 2 <<< 4
    (findRsdp m ebdaPtr (ebdaPtr + 1024)).or (findRsdp m 0xe0000 0x100000)

/-- The pointer to the root table in the root pointer. -/
def rsdtOf (m : Memory) (rsdp : ℕ) : ℕ := field m (rsdp + 16) 4

/-- Number of pointers in a root table of a length. -/
def numberOfEntries (length : ℕ) : ℕ := wsub length headerSize / 4

/-- A pointer in the root table. -/
def entry (m : Memory) (rsdt idx : ℕ) : ℕ := field m (wrap (rsdt + headerSize + 4 * idx)) 4

/-- Whether a table is an MCFG. -/
def isMcfg (m : Memory) (table : ℕ) : Bool := m.load table 4 == mcfgSignature

/-- State of the search in the root table. -/
structure Search where
  /-- Index of the next pointer. -/
  idx : ℕ
  /-- Offset and size of each read of the root table. -/
  reads : List (ℕ × ℕ)
  deriving DecidableEq, Repr

/-- Outcome of the search. -/
structure Lookup where
  /-- The table found, or zero. -/
  table : ℕ
  /-- Number of pointers looked at. -/
  entries : ℕ
  /-- Offset and size of each read of the root table. -/
  reads : List (ℕ × ℕ)
  deriving DecidableEq, Repr

/-- One round of the search: the length is read, and then the pointer. -/
def mcfgRound (m : Memory) (rsdt : ℕ) (s : Search) : Search ⊕ Lookup :=
  let reads := s.reads ++ [(4, 4)]
  if s.idx < numberOfEntries (tableLength m rsdt) then
    let reads := reads ++ [(headerSize + 4 * s.idx, 4)]
    let tablePointer := entry m rsdt s.idx
    if isMcfg m tablePointer then .inr ⟨tablePointer, s.idx + 1, reads⟩
    else .inl ⟨s.idx + 1, reads⟩
  else .inr ⟨0, s.idx, reads⟩

/-- The search in the root table. -/
def searchRsdt (m : Memory) (rsdt : ℕ) (bound : ℕ) (s : Search) : Except Fault Lookup :=
  loop (fun s => .ok (mcfgRound m rsdt s)) .unfinished bound s

/-- The MCFG table, or zero. -/
def findMcfg (m : Memory) (rsdp : ℕ) : Except Fault Lookup :=
  match locateRsdp m rsdp with
  | none => .ok ⟨0, 0, []⟩
  | some rsdp =>
    if m.load rsdp 8 ≠ rsdpSignature then .ok ⟨0, 0, []⟩
    else if rsdtOf m rsdp = 0 then .ok ⟨0, 0, []⟩
    else
      searchRsdt m (rsdtOf m rsdp) (numberOfEntries (tableLength m (rsdtOf m rsdp)) + 1) ⟨0, []⟩

/-- Number of pointers that lie inside a root table of a length. -/
def entriesInside (length : ℕ) : ℕ := (length - 36) / 4

/-- The first table with the MCFG signature among those that the root table refers to, or zero. -/
def firstMcfg (m : Memory) (rsdt : ℕ) : ℕ :=
  (((List.range (entriesInside (tableLength m rsdt))).map fun i =>
    field m (rsdt + 36 + 4 * i) 4).find? (isMcfg m)).getD 0

/-- The search has read nothing behind the root table and its header, has looked at no more
pointers than lie inside, and has found the first MCFG. -/
structure StaysInside (m : Memory) (rsdt : ℕ) (out : Lookup) : Prop where
  /-- All reads lie inside the root table or its header. -/
  reads_inside : ∀ r ∈ out.reads, r.1 + r.2 ≤ max (tableLength m rsdt) 36
  /-- No more pointers are looked at than lie inside. -/
  entries_le : out.entries ≤ entriesInside (tableLength m rsdt)
  /-- The table found is the first MCFG. -/
  table_eq : out.table = firstMcfg m rsdt

section Search

variable {m : Memory} {rsdt : ℕ}

theorem field_lt (m : Memory) (addr size : ℕ) : field m addr size < 256 ^ size := by
  have hlt := leNat_lt (m.load addr size)
  rwa [Memory.length_load] at hlt

theorem tableLength_lt (m : Memory) (table : ℕ) : tableLength m table < 2 ^ 32 :=
  field_lt m (table + 4) 4

/-- The unsigned subtraction is right for a table with a whole header. -/
theorem numberOfEntries_eq (h : 36 ≤ tableLength m rsdt) :
    numberOfEntries (tableLength m rsdt) = entriesInside (tableLength m rsdt) := by
  have hlt := tableLength_lt m rsdt
  rw [numberOfEntries, headerSize, wsub_of_le (by omega) h]
  rfl

/-- For a shorter table the unsigned subtraction wraps around. -/
theorem numberOfEntries_pos (h : tableLength m rsdt < 36) :
    0 < numberOfEntries (tableLength m rsdt) := by
  unfold numberOfEntries wsub headerSize
  omega

/-- What a round of the search does. -/
theorem mcfgRound_cases (m : Memory) (rsdt : ℕ) (s : Search) :
    (s.idx < numberOfEntries (tableLength m rsdt) ∧ isMcfg m (entry m rsdt s.idx) = true ∧
      mcfgRound m rsdt s = .inr ⟨entry m rsdt s.idx, s.idx + 1,
        s.reads ++ [(4, 4)] ++ [(headerSize + 4 * s.idx, 4)]⟩) ∨
    (s.idx < numberOfEntries (tableLength m rsdt) ∧ isMcfg m (entry m rsdt s.idx) = false ∧
      mcfgRound m rsdt s = .inl ⟨s.idx + 1,
        s.reads ++ [(4, 4)] ++ [(headerSize + 4 * s.idx, 4)]⟩) ∨
    (numberOfEntries (tableLength m rsdt) ≤ s.idx ∧
      mcfgRound m rsdt s = .inr ⟨0, s.idx, s.reads ++ [(4, 4)]⟩) := by
  unfold mcfgRound
  by_cases hidx : s.idx < numberOfEntries (tableLength m rsdt)
  · cases hmcfg : isMcfg m (entry m rsdt s.idx) with
    | true => exact .inl ⟨hidx, rfl, by simp [hidx, hmcfg]⟩
    | false => exact .inr (.inl ⟨hidx, rfl, by simp [hidx, hmcfg]⟩)
  · exact .inr (.inr ⟨Nat.le_of_not_lt hidx, by simp [hidx]⟩)

/-- What a search that returns does in its first round. -/
theorem searchRsdt_cases {bound : ℕ} {s : Search} {out : Lookup}
    (h : searchRsdt m rsdt (bound + 1) s = .ok out) :
    (s.idx < numberOfEntries (tableLength m rsdt) ∧ out = ⟨entry m rsdt s.idx, s.idx + 1,
      s.reads ++ [(4, 4)] ++ [(headerSize + 4 * s.idx, 4)]⟩) ∨
    (s.idx < numberOfEntries (tableLength m rsdt) ∧ searchRsdt m rsdt bound ⟨s.idx + 1,
      s.reads ++ [(4, 4)] ++ [(headerSize + 4 * s.idx, 4)]⟩ = .ok out) ∨
    (numberOfEntries (tableLength m rsdt) ≤ s.idx ∧
      out = ⟨0, s.idx, s.reads ++ [(4, 4)]⟩) := by
  rw [searchRsdt, loop_succ_eq_ok] at h
  rcases mcfgRound_cases m rsdt s with ⟨hidx, -, hround⟩ | ⟨hidx, -, hround⟩ | ⟨hidx, hround⟩
  · rw [hround] at h
    rcases h with ⟨⟨⟩⟩ | ⟨_, ⟨⟩, -⟩
    exact .inl ⟨hidx, rfl⟩
  · rw [hround] at h
    rcases h with ⟨⟨⟩⟩ | ⟨_, ⟨⟩, hrest⟩
    exact .inr (.inl ⟨hidx, hrest⟩)
  · rw [hround] at h
    rcases h with ⟨⟨⟩⟩ | ⟨_, ⟨⟩, -⟩
    exact .inr (.inr ⟨hidx, rfl⟩)

/-- Reads stay recorded. -/
theorem mem_reads_of_searchRsdt {bound : ℕ} {s : Search} {out : Lookup} {r : ℕ × ℕ}
    (h : searchRsdt m rsdt bound s = .ok out) (hr : r ∈ s.reads) : r ∈ out.reads := by
  induction bound generalizing s with
  | zero => cases h
  | succ bound ih =>
    rcases searchRsdt_cases h with ⟨-, rfl⟩ | ⟨-, hrest⟩ | ⟨-, rfl⟩
    · simp [hr]
    · exact ih hrest (by simp [hr])
    · simp [hr]

/-- In a table that is too short for its header, the first pointer is read nevertheless. -/
theorem reads_behind_header {bound : ℕ} {out : Lookup} (hshort : tableLength m rsdt < 36)
    (h : searchRsdt m rsdt bound ⟨0, []⟩ = .ok out) : (headerSize, 4) ∈ out.reads := by
  cases bound with
  | zero => cases h
  | succ bound =>
    rcases searchRsdt_cases h with ⟨-, rfl⟩ | ⟨-, hrest⟩ | ⟨hle, -⟩
    · simp
    · exact mem_reads_of_searchRsdt hrest (by simp)
    · have hpos := numberOfEntries_pos hshort
      exact absurd hle (Nat.not_le_of_lt hpos)

/-- The search comes to an end, whatever the length of the table. -/
theorem exists_searchRsdt (m : Memory) (rsdt : ℕ) : ∃ out,
    searchRsdt m rsdt (numberOfEntries (tableLength m rsdt) + 1) ⟨0, []⟩ = .ok out := by
  obtain ⟨out, hout, -⟩ : ∃ out, searchRsdt m rsdt (numberOfEntries (tableLength m rsdt) + 1)
      ⟨0, []⟩ = .ok out ∧ True := by
    refine loop_spec (fun _ => True) (fun _ => True)
      (fun s => numberOfEntries (tableLength m rsdt) - s.idx) (fun s _ => ?_) trivial
      (Nat.lt_succ_of_le (Nat.sub_le _ _))
    rcases mcfgRound_cases m rsdt s with ⟨-, -, hround⟩ | ⟨hidx, -, hround⟩ | ⟨-, hround⟩
    · exact .inl ⟨_, by rw [hround], trivial⟩
    · refine .inr ⟨_, by rw [hround], trivial, ?_⟩
      dsimp only
      omega
    · exact .inl ⟨_, by rw [hround], trivial⟩
  exact ⟨out, hout⟩

/-- The pointers inside a root table do not wrap around. -/
theorem entry_eq {idx : ℕ} (hrsdt : rsdt < 2 ^ 32)
    (hidx : idx < entriesInside (tableLength m rsdt)) :
    entry m rsdt idx = field m (rsdt + 36 + 4 * idx) 4 := by
  have hlt := tableLength_lt m rsdt
  unfold entriesInside at hidx
  rw [entry, headerSize, wrap_of_lt (by omega)]

/-- The first MCFG is the one of an index with none in front of it. -/
theorem firstMcfg_of_first {idx : ℕ} (hrsdt : rsdt < 2 ^ 32)
    (hidx : idx < entriesInside (tableLength m rsdt))
    (hmcfg : isMcfg m (entry m rsdt idx) = true)
    (hbefore : ∀ j < idx, isMcfg m (entry m rsdt j) = false) :
    firstMcfg m rsdt = entry m rsdt idx := by
  have hfind : (List.range (entriesInside (tableLength m rsdt))).find?
      (isMcfg m ∘ fun i => field m (rsdt + 36 + 4 * i) 4) = some idx := by
    rw [List.find?_range_eq_some]
    refine ⟨?_, List.mem_range.mpr hidx, fun j hj => ?_⟩
    · rw [Function.comp_apply, ← entry_eq hrsdt hidx, hmcfg]
    · rw [Function.comp_apply, ← entry_eq hrsdt (by omega), hbefore j hj]
      rfl
  rw [firstMcfg, List.find?_map, hfind, entry_eq hrsdt hidx]
  rfl

/-- Without an MCFG there is no first one. -/
theorem firstMcfg_of_none (hrsdt : rsdt < 2 ^ 32)
    (hnone : ∀ j < entriesInside (tableLength m rsdt), isMcfg m (entry m rsdt j) = false) :
    firstMcfg m rsdt = 0 := by
  have hfind : (List.range (entriesInside (tableLength m rsdt))).find?
      (isMcfg m ∘ fun i => field m (rsdt + 36 + 4 * i) 4) = none := by
    rw [List.find?_eq_none]
    intro j hj
    have hlt := List.mem_range.mp hj
    rw [Function.comp_apply, ← entry_eq hrsdt hlt, hnone j hlt]
    decide
  rw [firstMcfg, List.find?_map, hfind]
  rfl

/-- What holds before each round of the search in a table with a whole header. -/
structure Searching (m : Memory) (rsdt : ℕ) (s : Search) : Prop where
  /-- The index does not leave the table. -/
  idx_le : s.idx ≤ entriesInside (tableLength m rsdt)
  /-- All reads lie inside the table. -/
  reads_inside : ∀ r ∈ s.reads, r.1 + r.2 ≤ max (tableLength m rsdt) 36
  /-- No table in front of the index is an MCFG. -/
  before : ∀ j < s.idx, isMcfg m (entry m rsdt j) = false

/-- The reads of a round lie inside a table with a whole header. -/
theorem Searching.reads_round {s : Search} (h : Searching m rsdt s)
    (hlength : 36 ≤ tableLength m rsdt) (hidx : s.idx < entriesInside (tableLength m rsdt)) :
    ∀ r ∈ s.reads ++ [(4, 4)] ++ [(headerSize + 4 * s.idx, 4)],
      r.1 + r.2 ≤ max (tableLength m rsdt) 36 := by
  unfold entriesInside at hidx
  intro r hr
  rw [List.mem_append, List.mem_append, List.mem_singleton, List.mem_singleton] at hr
  rcases hr with (hr | rfl) | rfl
  · exact h.reads_inside r hr
  · exact le_max_of_le_right (by decide)
  · refine le_max_of_le_left ?_
    dsimp only [headerSize]
    omega

/-- In a table with a whole header the search stays inside and finds the first MCFG. -/
theorem searchRsdt_staysInside (hlength : 36 ≤ tableLength m rsdt) (hrsdt : rsdt < 2 ^ 32) :
    ∃ out, searchRsdt m rsdt (numberOfEntries (tableLength m rsdt) + 1) ⟨0, []⟩ = .ok out ∧
      StaysInside m rsdt out := by
  have hstart : Searching m rsdt ⟨0, []⟩ := ⟨Nat.zero_le _, by simp, fun j hj => by cases hj⟩
  refine loop_spec (Searching m rsdt) (StaysInside m rsdt)
    (fun s => numberOfEntries (tableLength m rsdt) - s.idx) (fun s hs => ?_) hstart
    (Nat.lt_succ_of_le (Nat.sub_le _ _))
  rcases mcfgRound_cases m rsdt s with
    ⟨hidx, hmcfg, hround⟩ | ⟨hidx, hmcfg, hround⟩ | ⟨hle, hround⟩
  · rw [numberOfEntries_eq hlength] at hidx
    exact .inl ⟨_, by rw [hround], ⟨hs.reads_round hlength hidx, Nat.succ_le_of_lt hidx,
      (firstMcfg_of_first hrsdt hidx hmcfg hs.before).symm⟩⟩
  · refine .inr ⟨_, by rw [hround], ⟨?_, ?_, fun j hj => ?_⟩, ?_⟩
    · rw [numberOfEntries_eq hlength] at hidx
      exact hidx
    · rw [numberOfEntries_eq hlength] at hidx
      exact hs.reads_round hlength hidx
    · rcases Nat.lt_succ_iff_lt_or_eq.mp hj with hlt | rfl
      · exact hs.before j hlt
      · exact hmcfg
    · dsimp only
      omega
  · rw [numberOfEntries_eq hlength] at hle
    refine .inl ⟨_, by rw [hround], fun r hr => ?_, hs.idx_le, ?_⟩
    · rcases List.mem_append.mp hr with hr | hr
      · exact hs.reads_inside r hr
      · cases List.mem_singleton.mp hr
        exact le_max_of_le_right (by decide)
    · exact (firstMcfg_of_none hrsdt fun j hj => hs.before j (by omega)).symm

end Search

/-- Looking for the MCFG table always comes to an end. -/
theorem exists_findMcfg (m : Memory) (rsdp : ℕ) : ∃ out, findMcfg m rsdp = .ok out := by
  unfold findMcfg
  cases locateRsdp m rsdp with
  | none => exact ⟨_, rfl⟩
  | some p =>
    dsimp only
    by_cases hsignature : m.load p 8 ≠ rsdpSignature
    · exact ⟨_, if_pos hsignature⟩
    · by_cases hrsdt : rsdtOf m p = 0
      · exact ⟨⟨0, 0, []⟩, by rw [if_neg hsignature, if_pos hrsdt]⟩
      · rw [if_neg hsignature, if_neg hrsdt]
        exact exists_searchRsdt m (rsdtOf m p)

/-- The search stays inside the root table, and finds the first MCFG in it, when, and only when,
the length of the table covers its header. -/
theorem findMcfg_iff (m : Memory) (rsdp p : ℕ) (hrsdp : locateRsdp m rsdp = some p)
    (hsignature : m.load p 8 = rsdpSignature) (hrsdt : rsdtOf m p ≠ 0) :
    (∃ out, findMcfg m rsdp = .ok out ∧ StaysInside m (rsdtOf m p) out) ↔
      36 ≤ tableLength m (rsdtOf m p) := by
  have hfind : findMcfg m rsdp = searchRsdt m (rsdtOf m p)
      (numberOfEntries (tableLength m (rsdtOf m p)) + 1) ⟨0, []⟩ := by
    rw [findMcfg, hrsdp]
    dsimp only
    rw [if_neg (not_not_intro hsignature), if_neg hrsdt]
  rw [hfind]
  constructor
  · rintro ⟨out, hout, hinside⟩
    by_contra hshort
    have hread := hinside.reads_inside _ (reads_behind_header (by omega) hout)
    simp only [headerSize] at hread
    omega
  · intro hlength
    exact searchRsdt_staysInside hlength (field_lt m (p + 16) 4)

/-- A root pointer at 0x1000 that refers to a root table of the given length at 0x2000, which has
one pointer behind its header, to an MCFG at 0x3000. -/
def rootTable (length : ℕ) : Memory :=
  let rsdp := rsdpSignature ++ leBytes 8 0 ++ leBytes 4 0x2000
  let rsdt := [0x52, 0x53, 0x44, 0x54] ++ leBytes 4 length ++ leBytes 28 0 ++ leBytes 4 0x3000
  ((Memory.store (fun _ => 0) 0x1000 rsdp).store 0x2000 rsdt).store 0x3000 mcfgSignature

/-- With a length that covers the pointer the search stays inside, with a length of zero it does
not. -/
theorem findMcfg_iff_one_pointer :
    (∃ out, findMcfg (rootTable 40) 0x1000 = .ok out ∧ StaysInside (rootTable 40) 0x2000 out) ∧
      ¬∃ out, findMcfg (rootTable 0) 0x1000 = .ok out ∧ StaysInside (rootTable 0) 0x2000 out := by
  have hcovered := findMcfg_iff (rootTable 40) 0x1000 0x1000 (by decide +kernel) (by decide +kernel)
    (by decide +kernel)
  have hempty := findMcfg_iff (rootTable 0) 0x1000 0x1000 (by decide +kernel) (by decide +kernel)
    (by decide +kernel)
  rw [show rsdtOf (rootTable 40) 0x1000 = 0x2000 by decide +kernel] at hcovered
  rw [show rsdtOf (rootTable 0) 0x1000 = 0x2000 by decide +kernel] at hempty
  exact ⟨hcovered.mpr (by decide +kernel), fun h => absurd (hempty.mp h) (by decide +kernel)⟩

/-- With a length of zero a pointer behind the table is read, and the table it refers to is
returned. -/
theorem pointer_behind_table_read :
    findMcfg (rootTable 0) 0x1000 = .ok ⟨0x3000, 1, [(4, 4), (36, 4)]⟩ ∧
      tableLength (rootTable 0) 0x2000 = 0 ∧ firstMcfg (rootTable 0) 0x2000 = 0 := by
  refine ⟨?_, by decide +kernel, by decide +kernel⟩
  decide +kernel

/-- Size of the fixed part of a DMAR table. -/
def dmarSize : ℕ := 48

/-- Length of a remapping entry. -/
def remapLength (m : Memory) (cur : ℕ) : ℕ := field m (cur + 2) 2

/-- Address of the next remapping entry, but no further than the end of the table. -/
def nextRemap (m : Memory) (endAddr cur : ℕ) : ℕ :=
  let cur := wrap (cur + remapLength m cur)
  if endAddr < cur then endAddr else cur

/-- End of a table. -/
def dmarEnd (m : Memory) (dmar : ℕ) : ℕ := wrap (dmar + tableLength m dmar)

/-- The addresses of the entries that a loop visits from an address on. -/
def remapsFrom (m : Memory) (endAddr bound cur : ℕ) : Except Fault (List ℕ) :=
  collect (fun cur => !decide (cur < endAddr)) (fun cur => .ok (nextRemap m endAddr cur))
    .unfinished bound cur

/-- The addresses of the entries that a loop over the remapping entries visits. -/
def remappingEntries (m : Memory) (dmar bound : ℕ) : Except Fault (List ℕ) :=
  remapsFrom m (dmarEnd m dmar) bound (wrap (dmar + dmarSize))

/-- From an address on, the table consists of entries: each one that begins in front of the end
has room for its header and a length that is not zero, and the next one begins behind it. -/
inductive Chained (m : Memory) (endAddr : ℕ) : ℕ → Prop
  /-- The end of the table has been reached. -/
  | done {cur : ℕ} (h : endAddr ≤ cur) : Chained m endAddr cur
  /-- There is another entry. -/
  | entry {cur : ℕ} (hroom : cur + 4 ≤ endAddr) (hlength : remapLength m cur ≠ 0)
      (h : Chained m endAddr (cur + remapLength m cur)) : Chained m endAddr cur

section Dmar

variable {m : Memory} {endAddr cur bound : ℕ} {visited : List ℕ}

theorem nextRemap_eq (hend : endAddr + 2 ^ 16 ≤ 2 ^ 64) (hcur : cur < endAddr) :
    nextRemap m endAddr cur = min (cur + remapLength m cur) endAddr := by
  have hlength : remapLength m cur < 2 ^ 16 := field_lt m (cur + 2) 2
  rw [nextRemap, wrap_of_lt (by omega)]
  split <;> omega

/-- The loop is done at the end of the table. -/
theorem remapsFrom_of_le (hcur : endAddr ≤ cur) :
    remapsFrom m endAddr (bound + 1) cur = .ok [] := by
  rw [remapsFrom, collect, if_pos (by simpa using hcur)]

/-- In front of the end the loop visits the entry and goes on behind it. -/
theorem remapsFrom_of_lt (hend : endAddr + 2 ^ 16 ≤ 2 ^ 64) (hcur : cur < endAddr) :
    remapsFrom m endAddr (bound + 1) cur =
      (remapsFrom m endAddr bound (min (cur + remapLength m cur) endAddr)).map (cur :: ·) := by
  rw [remapsFrom, collect, if_neg (by simpa using hcur), ok_bind, nextRemap_eq hend hcur,
    remapsFrom]
  cases collect (fun cur => !decide (cur < endAddr)) (fun cur => .ok (nextRemap m endAddr cur))
    Fault.unfinished bound (min (cur + remapLength m cur) endAddr) <;> rfl

/-- Over a chain of entries the loop comes to an end, with every header inside. -/
theorem Chained.exists_remapsFrom (hend : endAddr + 2 ^ 16 ≤ 2 ^ 64) (h : Chained m endAddr cur) :
    ∃ bound visited, remapsFrom m endAddr bound (min cur endAddr) = .ok visited ∧
      ∀ c ∈ visited, cur ≤ c ∧ c + 4 ≤ endAddr := by
  induction h with
  | done h =>
    refine ⟨1, [], ?_, by simp⟩
    rw [Nat.min_eq_right h]
    exact remapsFrom_of_le (Nat.le_refl _)
  | @entry cur hroom hlength _ ih =>
    obtain ⟨bound, visited, hvisited, hinside⟩ := ih
    refine ⟨bound + 1, cur :: visited, ?_, fun c hc => ?_⟩
    · rw [Nat.min_eq_left (by omega), remapsFrom_of_lt hend (by omega), hvisited]
      rfl
    · rcases List.mem_cons.mp hc with rfl | hc
      · exact ⟨Nat.le_refl _, hroom⟩
      · have hc' := hinside c hc
        exact ⟨by omega, hc'.2⟩

/-- A loop that comes to an end with every header inside has walked over a chain of entries. -/
theorem chained_of_remapsFrom (hend : endAddr + 2 ^ 16 ≤ 2 ^ 64)
    (h : remapsFrom m endAddr bound (min cur endAddr) = .ok visited)
    (hinside : ∀ c ∈ visited, c + 4 ≤ endAddr) : Chained m endAddr cur := by
  induction bound generalizing cur visited with
  | zero => cases h
  | succ bound ih =>
    by_cases hcur : endAddr ≤ cur
    · exact .done hcur
    · rw [Nat.min_eq_left (by omega)] at h
      have hlength : remapLength m cur ≠ 0 := by
        intro hzero
        have hnext : nextRemap m endAddr cur = cur := by
          rw [nextRemap_eq hend (by omega), hzero]
          omega
        rw [remapsFrom, collect_of_fixed _ hnext (by simpa using hcur)] at h
        cases h
      rw [remapsFrom_of_lt hend (by omega)] at h
      obtain ⟨rest, hrest, rfl⟩ := map_eq_ok.mp h
      rw [List.forall_mem_cons] at hinside
      exact .entry hinside.1 hlength (ih hrest hinside.2)

end Dmar

/-- The loop over the remapping entries comes to an end with every header inside the table when,
and only when, the table consists of entries with a header and a length. -/
theorem remappingEntries_iff (m : Memory) (dmar : ℕ)
    (hspace : dmar + tableLength m dmar + 2 ^ 16 ≤ 2 ^ 64) :
    (∃ bound visited, remappingEntries m dmar bound = .ok visited ∧
      ∀ cur ∈ visited, dmar ≤ cur ∧ cur + 4 ≤ dmar + tableLength m dmar) ↔
        Chained m (dmar + tableLength m dmar) (dmar + 48) := by
  have hend : dmarEnd m dmar = dmar + tableLength m dmar := wrap_of_lt (by omega)
  have hstart : wrap (dmar + dmarSize) = dmar + 48 := wrap_of_lt (by unfold dmarSize; omega)
  unfold remappingEntries
  rw [hend, hstart]
  by_cases hempty : dmar + tableLength m dmar ≤ dmar + 48
  · exact iff_of_true ⟨1, [], remapsFrom_of_le hempty, by simp⟩ (.done hempty)
  · have hmin : min (dmar + 48) (dmar + tableLength m dmar) = dmar + 48 := by omega
    constructor
    · rintro ⟨bound, visited, hvisited, hinside⟩
      rw [← hmin] at hvisited
      exact chained_of_remapsFrom hspace hvisited fun c hc => (hinside c hc).2
    · intro h
      obtain ⟨bound, visited, hvisited, hinside⟩ := h.exists_remapsFrom hspace
      rw [hmin] at hvisited
      refine ⟨bound, visited, hvisited, fun c hc => ?_⟩
      have hc' := hinside c hc
      exact ⟨by omega, hc'.2⟩

/-- A table at 0x1000 of the given length, whose bytes behind the fixed part are given. -/
def dmarTable (length : ℕ) (entries : List UInt8) : Memory :=
  (Memory.store (fun _ => 0) 0x1004 (leBytes 4 length)).store 0x1030 entries

/-- An entry that ends with the table is visited inside it. -/
theorem remappingEntries_iff_one_entry :
    ∃ bound visited, remappingEntries (dmarTable 64 [0, 0, 16, 0]) 0x1000 bound = .ok visited ∧
      ∀ cur ∈ visited, 0x1000 ≤ cur ∧ cur + 4 ≤ 0x1040 := by
  have hend : 0x1000 + tableLength (dmarTable 64 [0, 0, 16, 0]) 0x1000 = 0x1040 := by
    decide +kernel
  have hiff := remappingEntries_iff (dmarTable 64 [0, 0, 16, 0]) 0x1000 (by decide +kernel)
  rw [hend] at hiff
  refine hiff.mpr (.entry (by decide) ?_ ?_)
  · decide +kernel
  · exact .done (by decide +kernel)

/-- A loop over an entry of length zero never comes to an end, and a table that ends two bytes
behind its fixed part has an entry visited whose header lies partly outside. -/
theorem broken_entries_visited :
    (∀ bound, remappingEntries (dmarTable 64 [0, 0, 0, 0]) 0x1000 bound = .error .unfinished) ∧
      remappingEntries (dmarTable 50 [0, 0, 16, 0]) 0x1000 2 = .ok [0x1030] := by
  refine ⟨fun bound => collect_of_fixed _ (by decide +kernel) (by decide +kernel) bound, ?_⟩
  decide +kernel

end Toyos.Boot.Acpi
