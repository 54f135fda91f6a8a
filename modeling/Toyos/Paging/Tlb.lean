import Toyos.Paging.Fields

/-!
# Coherence of the TLB with page-table updates

A TLB caches translations together with the entry they were loaded from. After a
setter has changed an entry and run its invalidation, what is still cached for
the page of the entry has to be the translation of the new entry. The setters
look at the new entry to decide what to invalidate, which is not enough when a
page moves or when a global translation disappears.
-/

namespace Toyos.Paging

open Toyos.Core Toyos.Util

/-- A cached translation of one page. -/
structure Translation where
  /-- Linear address of the page. -/
  linear : BitVec 64
  /-- Binary logarithm of the size of the page. -/
  shift : ℕ
  /-- The entry that the translation was loaded from. -/
  entry : BitVec 64
  /-- Whether the translation is tagged as global. -/
  isGlobal : Bool
  deriving DecidableEq, Repr

/-- Whether an address lies in the page of a translation. -/
def Translation.contains (t : Translation) (address : BitVec 64) : Bool :=
  address.toNat / 2 ^ t.shift == t.linear.toNat / 2 ^ t.shift

/-- What an instruction leaves in the TLB. -/
def Instruction.exec (tlb : List Translation) : Instruction → List Translation
  | invlpg linear => tlb.filter fun t => !t.contains linear
  | setCr3 => tlb.filter fun t => t.isGlobal
  | setCr4 true => tlb
  | setCr4 false => []

/-- What a sequence of instructions leaves in the TLB. -/
def execAll (tlb : List Translation) (instructions : List Instruction) : List Translation :=
  instructions.foldl Instruction.exec tlb

/-- For the page at a linear address the TLB holds nothing but the given translation. -/
def HoldsOnly (tlb : List Translation) (linear : BitVec 64) (t : Option Translation) : Prop :=
  ∀ t' ∈ tlb, t'.linear = linear → t = some t'

/-- A setter dereferences no empty optional, and afterwards no TLB that only held the
translation of the old entry for the page holds another one than that of the new entry. -/
def Coherent (translate : BitVec 64 → Option Translation) (linear raw : BitVec 64) (o : Outcome) :
    Prop :=
  ∃ instructions, o.flush = .ok instructions ∧
    ∀ tlb, HoldsOnly tlb linear (translate raw) →
      HoldsOnly (execAll tlb instructions) linear (translate o.raw)

section Instructions

variable {tlb : List Translation} {linear address : BitVec 64} {t : Translation}

theorem execAll_all : execAll tlb invalidateTlbAll = [] := rfl

/-- Invalidating the page itself drops whatever is cached for it. -/
theorem holdsOnly_invalidateTlb (t : Option Translation) :
    HoldsOnly (execAll tlb (invalidateTlb linear)) linear t := by
  intro t' ht' hlinear
  have hkept : (!t'.contains linear) = true := (List.mem_filter.mp ht').2
  rw [Translation.contains, hlinear] at hkept
  simp at hkept

/-- Invalidating another page does not drop the translation. -/
theorem mem_invalidateTlb (h : t.contains address = false) :
    t ∈ execAll [t] (invalidateTlb address) :=
  List.mem_filter.mpr ⟨List.mem_singleton.mpr rfl, by rw [h]; rfl⟩

/-- A global translation survives a reload of the page-table base. -/
theorem mem_invalidateTlbNonGlobal :
    t ∈ execAll [t] invalidateTlbNonGlobal ↔ t.isGlobal = true := by
  simp [execAll, invalidateTlbNonGlobal, Instruction.exec]

/-- A TLB with the translation alone shows what survives. -/
theorem HoldsOnly.of_survives {instructions : List Instruction} {new : Option Translation}
    (h : ∀ tlb, HoldsOnly tlb linear (some t) → HoldsOnly (execAll tlb instructions) linear new)
    (hmem : t ∈ execAll [t] instructions) (hlinear : t.linear = linear) : new = some t := by
  refine h [t] ?_ t hmem hlinear
  intro t' ht' _
  rw [List.mem_singleton.mp ht']

end Instructions

/-- Addresses of pages are determined by their page numbers. -/
theorem page_eq_of_div_eq {x y : BitVec 64} {bits offset : ℕ} (h : offset + bits ≤ 64)
    (heq : (x &&& maskBits bits offset).toNat / 2 ^ offset =
      (y &&& maskBits bits offset).toNat / 2 ^ offset) :
    x &&& maskBits bits offset = y &&& maskBits bits offset := by
  have hdvd (v : BitVec 64) : 2 ^ offset ∣ (v &&& maskBits bits offset).toNat := by
    refine two_pow_dvd_iff_testBit.mpr fun j hj => ?_
    have hbit : (v &&& maskBits bits offset).getLsbD j = false := by
      rw [BitVec.getLsbD_and, getLsbD_maskBits_below (by omega) hj, Bool.and_false]
    exact hbit
  apply BitVec.eq_of_toNat_eq
  rw [← Nat.div_mul_cancel (hdvd x), heq, Nat.div_mul_cancel (hdvd y)]

/-- The page of another address is another page. -/
theorem contains_moved {x y entry : BitVec 64} {global : Bool} {bits offset : ℕ}
    (h : offset + bits ≤ 64) (hmoved : x &&& maskBits bits offset ≠ y &&& maskBits bits offset) :
    (Translation.mk (y &&& maskBits bits offset) offset entry global).contains
      (x &&& maskBits bits offset) = false :=
  beq_eq_false_iff_ne.mpr fun heq => hmoved (page_eq_of_div_eq h heq)

theorem times_and_eq_zero {value : Bool} {mask other : BitVec 64} (h : mask &&& other = 0) :
    times value mask &&& other = 0 := by
  cases value with
  | false => simp [times]
  | true => exact h

/-- A key raises no bit below its place. -/
theorem keyBits_and_eq_zero {bits offset : ℕ} (h : offset + bits ≤ 59) (key : BitVec 8) :
    keyBits key &&& maskBits bits offset = 0 := by
  apply BitVec.eq_of_getLsbD_eq
  intro i _
  rw [BitVec.getLsbD_and, getLsbD_keyBits, getLsbD_maskBits (by omega)]
  by_cases hi : 59 ≤ i
  · simp [show ¬i < offset + bits by omega]
  · simp [hi]

namespace Pte

/-- The translation that a present entry gives for its page. -/
def translate (linear raw : BitVec 64) : Option Translation :=
  if isPresent raw then some ⟨linear, 12, raw, isGlobal raw⟩ else none

/-- When a setter leaves the TLB coherent: the entry stays present, and an address is set only if
it is the old one or if the entry is, or thereby becomes, global. -/
def Setter.KeepsTlb (raw : BitVec 64) : Setter → Prop
  | setPresent pres => pres = true
  | setPhysAddr addr =>
    isGlobal raw = true ∨ addr.getLsbD 8 = true ∨ addr &&& addrMask = raw &&& addrMask
  | _ => True

variable {raw : BitVec 64} {s : Setter}

theorem isGlobal_eq : isGlobal raw = (raw.getLsbD 0 && raw.getLsbD 8) := by
  rw [isGlobal, isPresent_eq, glMask, test_maskBits]

/-- The invalidation of a present entry is right if the entry is global or has kept its page. -/
theorem coherent_iff {o : Outcome} (hflush : o.flush = invalidateEntry o.raw .yes)
    (hpresent : isPresent raw = true) :
    Coherent (translate (raw &&& addrMask)) (raw &&& addrMask) raw o ↔
      isPresent o.raw = true ∧
        (isGlobal o.raw = true ∨ o.raw &&& addrMask = raw &&& addrMask) := by
  rw [Coherent, hflush, invalidateEntry, if_neg (by decide), translate, if_pos hpresent]
  by_cases hglobal : isGlobal o.raw = true
  · have hnew : isPresent o.raw = true := (Bool.and_eq_true _ _ ▸ hglobal).1
    rw [if_pos hglobal]
    refine iff_of_true ⟨_, rfl, fun tlb _ t ht _ => ?_⟩ ⟨hnew, .inl hglobal⟩
    rw [execAll_all] at ht
    cases ht
  · rw [if_neg hglobal]
    by_cases hnew : isPresent o.raw = true
    · rw [getPhysAddr, if_pos hnew]
      constructor
      · rintro ⟨instructions, hok, hcoherent⟩
        refine ⟨hnew, .inr ?_⟩
        by_contra hmoved
        cases hok
        have hstale := HoldsOnly.of_survives hcoherent
          (mem_invalidateTlb (contains_moved (by decide) hmoved)) rfl
        rw [translate, if_pos hnew] at hstale
        cases hstale
        exact hmoved rfl
      · rintro ⟨-, hkept⟩
        refine ⟨_, rfl, fun tlb _ => ?_⟩
        rw [phyToLin, hkept.resolve_left hglobal]
        exact holdsOnly_invalidateTlb _
    · rw [getPhysAddr, if_neg hnew]
      refine iff_of_false ?_ fun h => hnew h.1
      rintro ⟨instructions, hok, -⟩
      cases hok

theorem flush_call (invl : TlbInvalidation) :
    (call raw invl s).flush = invalidateEntry (call raw invl s).raw invl := by
  cases s <;> rfl

/-- All setters but the one for the address leave the address as it is. -/
theorem and_addrMask_call {invl : TlbInvalidation} (h : ∀ addr, s ≠ .setPhysAddr addr) :
    (call raw invl s).raw &&& addrMask = raw &&& addrMask := by
  rw [raw_call]
  cases s with
  | setPhysAddr addr => exact absurd rfl (h addr)
  | setProtKey key =>
    exact setBits_and_of_disjoint (by simp only [Setter.field]; decide)
      (keyBits_and_eq_zero (by decide) key)
  | _ =>
    refine setBits_and_of_disjoint ?_ (times_and_eq_zero ?_)
    · simp only [Setter.field]
      decide
    · simp only [Setter.field]
      decide

/-- Only the setter of the present bit affects it. -/
theorem isPresent_call {invl : TlbInvalidation} (hpresent : isPresent raw = true) :
    isPresent (call raw invl s).raw = true ↔ s ≠ .setPresent false := by
  rw [raw_call]
  cases s with
  | setPresent pres =>
    rw [Setter.field, Setter.value, Setter.field, isPresent_setBits_times]
    cases pres <;> simp
  | _ =>
    refine iff_of_true ?_ (by simp)
    rw [isPresent_eq] at hpresent ⊢
    exact getLsbD_setBits_of_raised hpresent (getLsbD_maskBits_below (by decide) (by decide))

/-- A setter leaves the TLB coherent exactly under its condition. -/
theorem coherent_call_iff (hpresent : isPresent raw = true) :
    Coherent (translate (raw &&& addrMask)) (raw &&& addrMask) raw (call raw .yes s) ↔
      s.KeepsTlb raw := by
  rw [coherent_iff (flush_call .yes) hpresent, isPresent_call hpresent]
  cases s with
  | setPresent pres =>
    rw [and_addrMask_call (by simp)]
    cases pres <;> simp [Setter.KeepsTlb]
  | setPhysAddr addr =>
    have hbit : raw.getLsbD 0 = true := isPresent_eq.symm.trans hpresent
    have hglobal : isGlobal (call raw .yes (.setPhysAddr addr)).raw =
        (raw.getLsbD 8 || addr.getLsbD 8) := by
      rw [isGlobal_eq, raw_call, getLsbD_setBits, getLsbD_setBits, hbit]
      simp (disch := decide) only [Setter.field, Setter.value, addrMask, getLsbD_maskBits_below]
      simp
    have haddr : (call raw .yes (.setPhysAddr addr)).raw &&& addrMask = addr &&& addrMask := by
      rw [raw_call]
      exact setBits_and_clr
    rw [hglobal, haddr, Setter.KeepsTlb, isGlobal_eq, hbit, Bool.true_and, Bool.or_eq_true,
      or_assoc]
    simp
  | _ =>
    rw [and_addrMask_call (by simp)]
    simp [Setter.KeepsTlb]

end Pte

namespace Directory

/-- The translation that an entry of a large page gives for it. -/
def translate (level : Level) (linear raw : BitVec 64) : Option Translation :=
  if isLarge raw then some ⟨linear, lpageShift level, raw, isGlobal raw⟩ else none

/-- When a setter leaves the TLB coherent: the present bit is not cleared in a global entry, and
an address is set only if it is the old one or if the entry is, or thereby becomes, global. -/
def Setter.KeepsTlb (level : Level) (raw : BitVec 64) : Setter → Prop
  | setPresent pres => pres = true ∨ isGlobal raw = false
  | setPage addr =>
    isGlobal raw = true ∨ addr.getLsbD 8 = true ∨ addr &&& lpageMask level = raw &&& lpageMask level
  | _ => True

variable {level : Level} {raw : BitVec 64} {s : Setter}

theorem isGlobal_eq : isGlobal raw = (raw.getLsbD 0 && raw.getLsbD 7 && raw.getLsbD 8) := by
  rw [isGlobal, isLarge_eq, glMask, test_maskBits]

theorem isLarge_of_isGlobal (h : isGlobal raw = true) : isLarge raw = true :=
  (Bool.and_eq_true _ _ ▸ h).1

/-- Without a large page left, the reload of the page-table base is enough if the old entry was
not global. -/
theorem coherent_nonGlobal_iff {o : Outcome} (hflush : o.flush = .ok invalidateTlbNonGlobal)
    (hlarge : isLarge raw = true) (hsmall : isLarge o.raw = false) {linear : BitVec 64} :
    Coherent (translate level linear) linear raw o ↔ isGlobal raw = false := by
  rw [Coherent, hflush, translate, if_pos hlarge, translate, hsmall]
  constructor
  · rintro ⟨instructions, hok, hcoherent⟩
    by_contra hglobal
    cases hok
    have hstale := HoldsOnly.of_survives hcoherent
      (mem_invalidateTlbNonGlobal.mpr (by simpa using hglobal)) rfl
    cases hstale
  · intro hglobal
    refine ⟨_, rfl, fun tlb hholds t ht hlinear => ?_⟩
    obtain ⟨hmem, hkept⟩ := List.mem_filter.mp ht
    cases hholds t hmem hlinear
    rw [hglobal] at hkept
    cases hkept

/-- The invalidation is right if the entry is global, if it has kept its page, or if it does not
map a page any more and was not global. -/
theorem coherent_iff {o : Outcome} (hflush : o.flush = invalidateEntry level o.raw .yes)
    (hlarge : isLarge raw = true) :
    Coherent (translate level (raw &&& lpageMask level)) (raw &&& lpageMask level) raw o ↔
      if isLarge o.raw then
        isGlobal o.raw = true ∨ o.raw &&& lpageMask level = raw &&& lpageMask level
      else isGlobal raw = false := by
  rw [invalidateEntry, if_neg (by decide)] at hflush
  by_cases hglobal : isGlobal o.raw = true
  · rw [if_pos hglobal] at hflush
    rw [if_pos (isLarge_of_isGlobal hglobal)]
    refine iff_of_true ⟨_, hflush, fun tlb _ t ht _ => ?_⟩ (.inl hglobal)
    rw [execAll_all] at ht
    cases ht
  · rw [if_neg hglobal] at hflush
    by_cases hnew : isLarge o.raw = true
    · rw [if_pos hnew, getPage, hnew, isPresent_of_isLarge hnew] at hflush
      rw [if_pos hnew, Coherent, hflush, translate, if_pos hlarge]
      constructor
      · rintro ⟨instructions, hok, hcoherent⟩
        refine .inr ?_
        by_contra hmoved
        cases hok
        rw [lpageMask_eq] at hmoved hcoherent
        have hstale := HoldsOnly.of_survives hcoherent
          (mem_invalidateTlb (contains_moved (by cases level <;> decide) hmoved)) rfl
        rw [translate, if_pos hnew] at hstale
        cases hstale
        exact hmoved rfl
      · intro hkept
        refine ⟨_, rfl, fun tlb _ => ?_⟩
        rw [phyToLin, hkept.resolve_left hglobal]
        exact holdsOnly_invalidateTlb _
    · rw [if_neg hnew] at hflush
      rw [if_neg hnew]
      exact coherent_nonGlobal_iff hflush hlarge (Bool.eq_false_iff.mpr hnew)

theorem flush_call {invl : TlbInvalidation} (h : s.applies raw = true) :
    (call level raw invl s).flush = invalidateEntry level (call level raw invl s).raw invl := by
  have hupdate (clr set : BitVec 64) : (updateIf level raw (s.applies raw) clr set invl).flush =
      invalidateEntry level (updateIf level raw (s.applies raw) clr set invl).raw invl := by
    rw [updateIf, if_pos h]
  cases s <;> exact hupdate _ _

/-- All setters but the ones for an address leave the address of a page as it is. -/
theorem and_lpageMask_setBits (htable : ∀ addr, s ≠ .setTable addr)
    (hpage : ∀ addr, s ≠ .setPage addr) :
    setBits raw (s.field level) (s.value level) &&& lpageMask level = raw &&& lpageMask level := by
  cases s with
  | setTable addr => exact absurd rfl (htable addr)
  | setPage addr => exact absurd rfl (hpage addr)
  | setProtKey key =>
    refine setBits_and_of_disjoint ?_ ?_
    · cases level <;> simp only [Setter.field, lpageMask] <;> decide
    · rw [lpageMask_eq]
      exact keyBits_and_eq_zero (by cases level <;> decide) key
  | _ =>
    refine setBits_and_of_disjoint ?_ (times_and_eq_zero ?_)
    · cases level <;> simp only [Setter.field, lpageMask] <;> decide
    · cases level <;> simp only [Setter.field, lpageMask] <;> decide

/-- A large page stays one unless the present bit is cleared. -/
theorem isLarge_setBits (level : Level) (s : Setter) (hlarge : isLarge raw = true) :
    isLarge (setBits raw (s.field level) (s.value level)) = true ↔ s ≠ .setPresent false := by
  obtain ⟨hpr, hps⟩ : raw.getLsbD 0 = true ∧ raw.getLsbD 7 = true := by
    rwa [isLarge_eq, Bool.and_eq_true] at hlarge
  rw [isLarge_eq, getLsbD_setBits_of_raised hps s.field_ps, Bool.and_true, ← isPresent_eq]
  cases s with
  | setPresent pres =>
    rw [Setter.field, Setter.value, Setter.field, isPresent_setBits_times]
    cases pres <;> simp
  | setPage addr =>
    refine iff_of_true (isPresent_eq.trans (getLsbD_setBits_of_raised hpr ?_)) (by simp)
    exact getLsbD_lpageMask_below (by decide)
  | _ =>
    refine iff_of_true (isPresent_eq.trans (getLsbD_setBits_of_raised hpr ?_)) (by simp)
    exact getLsbD_maskBits_below (by decide) (by decide)

/-- A setter leaves the TLB coherent exactly under its condition. -/
theorem coherent_call_iff (hlarge : isLarge raw = true) :
    Coherent (translate level (raw &&& lpageMask level)) (raw &&& lpageMask level) raw
      (call level raw .yes s) ↔ s.KeepsTlb level raw := by
  by_cases happlies : s.applies raw = true
  · rw [coherent_iff (flush_call happlies) hlarge, raw_call, if_pos happlies]
    have hkeep := isLarge_setBits level s hlarge
    cases s with
    | setPresent pres =>
      rw [and_lpageMask_setBits (by simp) (by simp)]
      cases pres with
      | false =>
        rw [if_neg (by simp [hkeep])]
        simp [Setter.KeepsTlb]
      | true =>
        rw [if_pos (by simp [hkeep])]
        simp [Setter.KeepsTlb]
    | setPage addr =>
      have hlarge' : isLarge (setBits raw (lpageMask level) addr) = true := hkeep.mpr (by simp)
      have hglobal : isGlobal (setBits raw (lpageMask level) addr) =
          (raw.getLsbD 8 || addr.getLsbD 8) := by
        rw [isGlobal, hlarge', glMask, test_maskBits, getLsbD_setBits,
          getLsbD_lpageMask_below (by decide)]
        simp
      rw [Setter.field, Setter.value, if_pos hlarge', hglobal, setBits_and_clr, Setter.KeepsTlb,
        isGlobal, hlarge, glMask, test_maskBits, Bool.true_and, Bool.or_eq_true,
        or_assoc]
    | setTable addr =>
      rw [Setter.applies, hlarge] at happlies
      cases happlies
    | _ =>
      rw [and_lpageMask_setBits (by simp) (by simp), if_pos (hkeep.mpr (by simp))]
      simp [Setter.KeepsTlb]
  · cases s with
    | setTable addr =>
      have hnothing : call level raw .yes (.setTable addr) = ⟨raw, false, .ok []⟩ := by
        rw [call, updateIfSmallPs, updateIf, hlarge]
        rfl
      rw [hnothing]
      exact iff_of_true ⟨[], rfl, fun tlb hholds => hholds⟩ trivial
    | setDirty _ | setGlobal _ | setPat _ | setProtKey _ | setPage _ => exact absurd hlarge happlies
    | _ => exact absurd rfl happlies

end Directory

namespace EntrySetter

/-- Whether the entry is a leaf: present, and large in a directory. -/
def IsLeaf (raw : BitVec 64) : EntrySetter → Prop
  | pte _ => isPresent raw = true
  | directory _ _ => Directory.isLarge raw = true

/-- A call with invalidation dereferences no empty optional and leaves the TLB coherent for the
page of the entry, which is mapped identically: its linear address is the one in the entry. -/
def KeepsCoherent (raw : BitVec 64) : EntrySetter → Prop
  | s@(pte _) =>
    Coherent (Pte.translate (raw &&& addrMask)) (raw &&& addrMask) raw (s.call raw .yes)
  | s@(directory level _) =>
    Coherent (Directory.translate level (raw &&& Directory.lpageMask level))
      (raw &&& Directory.lpageMask level) raw (s.call raw .yes)

/-- The condition under which a setter invalidates enough. -/
def KeepsTlb (raw : BitVec 64) : EntrySetter → Prop
  | pte s => s.KeepsTlb raw
  | directory level s => s.KeepsTlb level raw

end EntrySetter

/-- For every leaf entry a call of a setter with invalidation leaves the TLB coherent, and
dereferences no empty optional, exactly under the condition of the setter. -/
theorem invalidation_coherent_iff (raw : BitVec 64) (s : EntrySetter) (h : s.IsLeaf raw) :
    s.KeepsCoherent raw ↔ s.KeepsTlb raw := by
  cases s with
  | pte s => exact Pte.coherent_call_iff h
  | directory level s => exact Directory.coherent_call_iff h

/-- Making a page read-only keeps the TLB coherent. -/
theorem invalidation_coherent_readonly :
    (EntrySetter.pte (.setWriteable false)).KeepsCoherent 0x1003#64 :=
  (invalidation_coherent_iff 0x1003#64 (.pte (.setWriteable false))
    (show isPresent 0x1003#64 = true by decide)).mpr trivial

/-- Clearing the present bit of a page-table entry dereferences an empty optional; moving a page
keeps the translation of the old place; clearing the present bit of a global large page keeps its
translation. -/
theorem stale_translations :
    ((EntrySetter.pte (.setPresent false)).call 0x1001#64 .yes).flush = .error .emptyOptional ∧
    ((EntrySetter.pte (.setPhysAddr 0x2000#64)).call 0x1001#64 .yes).flush =
      .ok [.invlpg 0x2000#64] ∧
    execAll [⟨0x1000#64, 12, 0x1001#64, false⟩] [.invlpg 0x2000#64] =
      [⟨0x1000#64, 12, 0x1001#64, false⟩] ∧
    ((EntrySetter.directory .pde (.setPresent false)).call 0x200181#64 .yes).flush =
      .ok [.setCr3] ∧
    execAll [⟨0x200000#64, 21, 0x200181#64, true⟩] [.setCr3] =
      [⟨0x200000#64, 21, 0x200181#64, true⟩] :=
  ⟨rfl, rfl, by decide, rfl, by decide⟩

end Toyos.Paging
