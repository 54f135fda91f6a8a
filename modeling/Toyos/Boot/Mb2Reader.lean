import Toyos.Boot.Multiboot2RoundTrip

/-!
# The generic Multiboot2 reader

`mb2_reader_generic` walks over tags whose sizes come from the bytes it reads and
stops only where it hits the announced end exactly. To see whether it leaves the
announced structure, it is run with nothing readable behind the structure. A walk
comes to its end then exactly when the tags form a chain from the fixed part to
the end.
-/

namespace Toyos.Boot

open Toyos.Core Toyos.Util

namespace Mb2Reader

variable {layout : Mb2Layout}

/-- The reader with nothing readable behind the structure. -/
def within (r : Mb2Reader layout) : Mb2Reader layout := { r with mem := r.mem.take r.finish }

/-- The walk and every `find_tag` come to an end and read inside the structure only. -/
def Robust (r : Mb2Reader layout) : Prop :=
  (∃ rounds tags, r.within.walk rounds = .ok tags) ∧
    ∀ tagType < 2 ^ 32, ∃ rounds found, r.within.findTag rounds tagType = .ok found

end Mb2Reader

/-- The distance from a tag to the next one: its size, rounded up and kept in 32 bits. -/
def tagStride (mem : List UInt8) (addr : ℕ) : ℕ :=
  (leNat ((mem.drop (addr + 4)).take 4) + 7) / 8 * 8 % 2 ^ 32

/-- From an address on, tags follow one another and the last one ends at `stop`. -/
inductive TagChain (mem : List UInt8) (stop : ℕ) : ℕ → Prop
  /-- Nothing is left. -/
  | done : TagChain mem stop stop
  /-- A tag whose header is inside and which moves on. -/
  | tag {addr : ℕ} : addr + 8 ≤ stop → tagStride mem addr ≠ 0 →
      TagChain mem stop (addr + tagStride mem addr) → TagChain mem stop addr

namespace Mb2Reader

variable {layout : Mb2Layout} {r : Mb2Reader layout} {addr : ℕ}

/-- What the bytes at an address say as a tag. -/
def tagAt (r : Mb2Reader layout) (addr : ℕ) : IteratorTag :=
  ⟨leNat ((r.mem.drop addr).take (min layout.typeSize 8)),
    leNat ((r.mem.drop (addr + 4)).take 4), addr⟩

theorem finish_within : r.within.finish = r.finish := rfl

theorem begin_within : r.within.begin = r.begin := rfl

/-- A tag header inside the structure can be read. -/
theorem deref_ok (hfit : r.finish ≤ r.mem.length) (hin : addr + 8 ≤ r.finish) :
    r.within.deref addr = .ok (r.tagAt addr) := by
  have hread : readBytes (r.mem.take r.finish) addr 8 = .ok ((r.mem.drop addr).take 8) := by
    have hlength : addr + 8 ≤ (r.mem.take r.finish).length := by
      rw [List.length_take]
      omega
    rw [readBytes, ensure_of _ hlength, ok_bind, pure_eq_ok, List.drop_take, List.take_take,
      min_eq_left (by omega)]
  rw [deref, within, hread, ok_bind, pure_eq_ok, List.take_take, List.drop_take, List.drop_drop,
    List.take_take]
  rfl

/-- A tag header that reaches outside the structure cannot. -/
theorem deref_outside (hout : ¬addr + 8 ≤ r.finish) : r.within.deref addr = .error .outside := by
  have hlength : ¬addr + 8 ≤ (r.mem.take r.finish).length := by
    rw [List.length_take]
    omega
  rw [deref, within, readBytes, ensure_not _ hlength, error_bind, error_bind]

/-- The iterator moves on by the stride of the tag. -/
theorem advance_ok (hfit : r.finish ≤ r.mem.length) (hin : addr + 8 ≤ r.finish) :
    r.within.advance addr = .ok (addr + tagStride r.mem addr) := by
  have hsize : (r.tagAt addr).size < 256 ^ 4 :=
    (leNat_lt _).trans_le (Nat.pow_le_pow_right (by decide) (List.length_take_le _ _))
  have halign : alignUp (r.tagAt addr).size 3 % 2 ^ 32 = tagStride r.mem addr := by
    rw [alignUp_eq (by decide) (by omega)]
    rfl
  rw [advance, deref_ok hfit hin, ok_bind, orderMax_tagAlignment, halign]
  rfl

/-- A round of the walk at a tag inside the structure. -/
theorem walkRound_ok (hfit : r.finish ≤ r.mem.length) (hin : addr + 8 ≤ r.finish)
    (acc : List IteratorTag) : r.within.walkRound (addr, acc) =
      .ok (.inl (addr + tagStride r.mem addr, acc ++ [r.tagAt addr])) := by
  have hne : addr ≠ r.within.finish := by
    rw [finish_within]
    omega
  rw [walkRound, if_neg hne, deref_ok hfit hin, ok_bind, advance_ok hfit hin]
  rfl

/-- A walk over a chain comes to its end. -/
theorem walk_of_chain (hfit : r.finish ≤ r.mem.length) (h : TagChain r.mem r.finish addr)
    (acc : List IteratorTag) :
    ∃ rounds tags, loop r.within.walkRound .endless rounds (addr, acc) = .ok tags := by
  induction h generalizing acc with
  | done =>
    exact ⟨1, acc, loop_succ_eq_ok.mpr (.inl (by simp [walkRound, finish_within]))⟩
  | @tag addr hin _ _ ih =>
    obtain ⟨rounds, tags, hrest⟩ := ih (acc ++ [r.tagAt addr])
    have hround := walkRound_ok hfit hin acc
    exact ⟨rounds + 1, tags, loop_succ_eq_ok.mpr (.inr ⟨_, hround, hrest⟩)⟩

/-- A walk that comes to its end went over a chain. -/
theorem chain_of_walk (hfit : r.finish ≤ r.mem.length) {rounds : ℕ} {acc tags : List IteratorTag}
    (h : loop r.within.walkRound .endless rounds (addr, acc) = .ok tags) :
    TagChain r.mem r.finish addr := by
  induction rounds generalizing addr acc with
  | zero => simp [loop] at h
  | succ rounds ih =>
    by_cases hend : addr = r.finish
    · rw [hend]
      exact .done
    by_cases hin : addr + 8 ≤ r.finish
    · rw [loop, walkRound_ok hfit hin, ok_bind] at h
      have hrest := ih h
      by_cases hzero : tagStride r.mem addr = 0
      · rwa [hzero, Nat.add_zero] at hrest
      · exact .tag hin hzero hrest
    · simp [loop, walkRound, finish_within, hend, deref_outside hin] at h

/-- Looking for a tag in a chain comes to its end, at the end or at a tag inside. -/
theorem find_of_chain (hfit : r.finish ≤ r.mem.length) (h : TagChain r.mem r.finish addr)
    (tagType : ℕ) :
    ∃ rounds it, loop (r.within.findRound tagType) .endless rounds addr = .ok it ∧
      (it = r.finish ∨ it + 8 ≤ r.finish) := by
  induction h with
  | done =>
    exact ⟨1, r.finish, loop_succ_eq_ok.mpr (.inl (by simp [findRound, finish_within])), .inl rfl⟩
  | @tag addr hin _ _ ih =>
    have hne : addr ≠ r.within.finish := by
      rw [finish_within]
      omega
    by_cases htype : (r.tagAt addr).type = tagType
    · refine ⟨1, addr, loop_succ_eq_ok.mpr (.inl ?_), .inr hin⟩
      rw [findRound, if_neg hne, deref_ok hfit hin, ok_bind, if_pos htype]
      rfl
    · obtain ⟨rounds, it, hrest, hit⟩ := ih
      refine ⟨rounds + 1, it, loop_succ_eq_ok.mpr (.inr ⟨_, ?_, hrest⟩), hit⟩
      rw [findRound, if_neg hne, deref_ok hfit hin, ok_bind, if_neg htype, advance_ok hfit hin]
      rfl

/-- `find_tag` returns on a chain. -/
theorem findTag_of_chain (hfit : r.finish ≤ r.mem.length)
    (h : TagChain r.mem r.finish r.begin) (tagType : ℕ) :
    ∃ rounds found, r.within.findTag rounds tagType = .ok found := by
  obtain ⟨rounds, it, hloop, hit⟩ := find_of_chain hfit h tagType
  refine ⟨rounds, ?_⟩
  rw [findTag, begin_within, hloop, ok_bind, finish_within]
  rcases hit with rfl | hin
  · exact ⟨none, by simp⟩
  · have hne : it ≠ r.finish := by omega
    exact ⟨some (r.tagAt it), by simp [hne, deref_ok hfit hin]⟩

/-- On a chain the reader is robust. -/
theorem robust_of_chain (hfit : r.finish ≤ r.mem.length)
    (h : TagChain r.mem r.finish r.begin) : r.Robust :=
  ⟨walk_of_chain hfit h [], fun tagType _ => findTag_of_chain hfit h tagType⟩

/-- The constructor keeps the memory and the address it was given. -/
theorem new_eq_ok {mem : List UInt8} {raw : ℕ} (h : new layout mem raw = .ok r) :
    r.mem = mem ∧ r.raw = raw := by
  obtain ⟨fix, -, hr⟩ := bind_eq_ok.mp h
  obtain rfl := Except.ok.inj hr
  exact ⟨rfl, rfl⟩

/-- A readable structure is walked to its end and read inside only, for every tag that is looked
for, exactly when its tags form a chain from the fixed part to the end. -/
theorem robust_iff {mem : List UInt8} {raw : ℕ} (hnew : new layout mem raw = .ok r)
    (hfit : raw + r.size ≤ mem.length) :
    r.Robust ↔ TagChain mem (raw + r.size) (raw + layout.fixedSize) := by
  obtain ⟨rfl, rfl⟩ := new_eq_ok hnew
  constructor
  · rintro ⟨⟨rounds, tags, hwalk⟩, -⟩
    exact chain_of_walk hfit hwalk
  · exact robust_of_chain hfit

/-- A structure with a command line, padded to eight bytes, and the null tag, and a byte behind. -/
def cmdlineMemory : List UInt8 :=
  leBytes 4 32 ++ leBytes 4 0 ++ leBytes 4 1 ++ leBytes 4 10 ++ leBytes 8 97 ++ leBytes 4 0 ++
    leBytes 4 8 ++ [255]

theorem cmdlineMemory_chain : TagChain cmdlineMemory 32 8 := by
  have hfirst : tagStride cmdlineMemory 8 = 16 := by decide +kernel
  have hlast : tagStride cmdlineMemory 24 = 8 := by decide +kernel
  refine .tag (by decide) (by simp [hfirst]) ?_
  rw [hfirst]
  refine .tag (by decide) (by simp [hlast]) ?_
  rw [hlast]
  exact .done

/-- The command line and the null tag are a chain. -/
theorem robust_iff_cmdline : new mbi2Layout cmdlineMemory 0 = .ok ⟨cmdlineMemory, 0, 32⟩ ∧
    (⟨cmdlineMemory, 0, 32⟩ : Mb2Reader mbi2Layout).Robust := by
  have hnew : new mbi2Layout cmdlineMemory 0 = .ok ⟨cmdlineMemory, 0, 32⟩ := by decide +kernel
  exact ⟨hnew, (robust_iff hnew (by decide)).mpr cmdlineMemory_chain⟩

/-- A structure with a tag of size zero. -/
def zeroSizeMemory : List UInt8 := leBytes 4 16 ++ leBytes 4 0 ++ leBytes 4 1 ++ leBytes 4 0

theorem zeroSizeMemory_not_chain : ¬TagChain zeroSizeMemory 16 8 := by
  intro h
  cases h with
  | tag _ hstride _ => exact hstride (by decide +kernel)

/-- The walk never gets past a tag of size zero. -/
theorem zero_size_not_robust :
    ¬∀ (mem : List UInt8) (r : Mb2Reader mbi2Layout), new mbi2Layout mem 0 = .ok r →
      0 + r.size ≤ mem.length → r.Robust := by
  intro h
  have hnew : new mbi2Layout zeroSizeMemory 0 = .ok ⟨zeroSizeMemory, 0, 16⟩ := by decide +kernel
  obtain ⟨⟨rounds, tags, hwalk⟩, -⟩ := h _ _ hnew (by decide)
  exact zeroSizeMemory_not_chain (chain_of_walk (by decide) hwalk)

end Mb2Reader

/-- On a structure of records the reader is robust. -/
theorem Mbi2Reader.Over.robust {r : Mbi2Reader} {fixed : List UInt8} {rs : List Record}
    (h : r.Over fixed rs) : r.Robust := by
  have hwithin : r.within = r := by
    rw [Mb2Reader.within, h.finish_eq, List.take_length]
  rw [Mb2Reader.Robust, hwithin]
  exact ⟨⟨_, _, h.tags_eq⟩, fun tagType _ => ⟨_, _, h.findTag_eq tagType⟩⟩

/-- What the builder makes is read without leaving the structure. -/
theorem Mbi2Builder.build_robust {calls : List AddCall} (h : totalSize calls < 2 ^ 31) :
    ∃ r, Mbi2Reader.new (calls.foldl add ⟨[]⟩).build = .ok r ∧ r.Robust := by
  obtain ⟨r, hnew, -, hover⟩ := new_build h
  exact ⟨r, hnew, hover.robust⟩

end Toyos.Boot
