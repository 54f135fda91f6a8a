import Toyos.Core.Chain
import Toyos.Pci.Device

/-!
# Capabilities of a device

The capabilities of a function are linked through offsets that the device
supplies. The searches and the iterator follow the links until they meet the
end mark, so they come to an end exactly if the links do not run in a circle.
-/

namespace Toyos.Pci

open Toyos.Core

/-- A byte of the configuration space. -/
def ConfigSpace.byte (config : ConfigSpace) (address : ℕ) : BitVec 8 :=
  (config (wrap address / 4 * 4) >>> (8 * (wrap address % 4))).setWidth 8

/-- Head of a capability. -/
structure Capability where
  /-- The capability id. -/
  id : BitVec 8
  /-- Offset of the next capability. -/
  next : BitVec 8
  deriving DecidableEq, Repr

/-- Head of an extended capability. -/
structure ExtCapability where
  /-- The capability id. -/
  id : BitVec 16
  /-- Version, and from bit four on the offset of the next capability. -/
  versionAndNext : BitVec 16
  deriving DecidableEq, Repr

namespace PciDevice

/-- Offset of the register with the offset of the first capability. -/
def capPtr : ℕ := 0x34

/-- Id of the PCI Express capability. -/
def pcieCapabilityId : BitVec 16 := 0x10#16

/-- The offset behind the last capability. -/
def capOffsetInvalid : BitVec 8 := 0xff#8

/-- The end of the list of capabilities. -/
def isEnd (off : BitVec 8) : Bool := off == 0#8 || off == 0xff#8

/-- The end of the list of extended capabilities. -/
def isExtEnd (off : BitVec 16) : Bool := off == 0#16 || off == 0xfff#16

/-- What a search returns at an offset: zero at the end of the list, and the offset itself at a
capability with the id. -/
def result {w : ℕ} (isEnd hasId : BitVec w → Bool) (off : BitVec w) : Option ℕ :=
  if isEnd off then some 0
  else if hasId off then some off.toNat
  else none

section Searches

variable (config : ConfigSpace) (d : PciDevice)

/-- Offset of the first capability. -/
def capOffset : BitVec 8 := (d.read config capPtr 0).setWidth 8

/-- The capability at an offset. -/
def capability (off : BitVec 8) : Capability where
  id := config.byte (d.cfgBase + off.toNat)
  next := config.byte (d.cfgBase + off.toNat + 1)

/-- The extended capability at an offset. -/
def extCapability (off : BitVec 16) : ExtCapability where
  id := config.byte (d.cfgBase + off.toNat + 1) ++ config.byte (d.cfgBase + off.toNat)
  versionAndNext :=
    config.byte (d.cfgBase + off.toNat + 3) ++ config.byte (d.cfgBase + off.toNat + 2)

/-- The link of a capability. -/
def nextCap (off : BitVec 8) : BitVec 8 := (d.capability config off).next

/-- Whether the capability at an offset has an id. -/
def hasId (id : BitVec 16) (off : BitVec 8) : Bool :=
  (d.capability config off).id.setWidth 16 == id

/-- The link of an extended capability. -/
def nextExtCap (off : BitVec 16) : BitVec 16 := (d.extCapability config off).versionAndNext >>> 4

/-- Whether the extended capability at an offset has an id. -/
def hasExtId (id : BitVec 16) (off : BitVec 16) : Bool := (d.extCapability config off).id == id

/-- Offset of the capability with an id, or zero. -/
def findCap (bound : ℕ) (id : BitVec 16) : Except Fault ℕ :=
  chase (d.nextCap config) (result isEnd (d.hasId config id)) .unfinished bound
    (d.capOffset config)

/-- Offset of the extended capability with an id, or zero. -/
def findExtCap (bound : ℕ) (id : BitVec 16) : Except Fault ℕ := do
  if (← d.findCap config bound pcieCapabilityId) = 0 then
    return 0
  else
    chase (d.nextExtCap config) (result isExtEnd (d.hasExtId config id)) .unfinished bound 256#16

/-- An offset, or the invalid one instead of zero. -/
def orInvalid (off : BitVec 8) : BitVec 8 := if off = 0 then capOffsetInvalid else off

/-- The offsets that a loop over the capabilities visits. -/
def getCapabilities (bound : ℕ) : Except Fault (List (BitVec 8)) :=
  collect (fun off => off == orInvalid 0) (fun off => .ok (orInvalid (d.nextCap config off)))
    .unfinished bound (orInvalid (d.capOffset config))

/-- There is a capability with the id on the chain. -/
def HasCap (id : BitVec 16) : Prop :=
  ∃ k, d.hasId config id ((d.nextCap config)^[k] (d.capOffset config)) = true ∧
    ∀ m ≤ k, isEnd ((d.nextCap config)^[m] (d.capOffset config)) = false

/-- The offset is the one of the first capability with the id on the chain. -/
def IsFirstCap (id : BitVec 16) (off : ℕ) : Prop :=
  ∃ k, off = ((d.nextCap config)^[k] (d.capOffset config)).toNat ∧
    d.hasId config id ((d.nextCap config)^[k] (d.capOffset config)) = true ∧
    (∀ m ≤ k, isEnd ((d.nextCap config)^[m] (d.capOffset config)) = false) ∧
    ∀ m < k, d.hasId config id ((d.nextCap config)^[m] (d.capOffset config)) = false

/-- All searches come to an end, and the offset found is the one of the first capability with
the id. -/
structure Searches (id : BitVec 16) : Prop where
  /-- The search among the capabilities comes to an end. -/
  findCap : ∃ bound off, d.findCap config bound id = .ok off
  /-- The search among the extended capabilities comes to an end. -/
  findExtCap : ∃ bound off, d.findExtCap config bound id = .ok off
  /-- The loop over the capabilities comes to an end. -/
  getCapabilities : ∃ bound offs, d.getCapabilities config bound = .ok offs
  /-- An offset found is the one of the first capability with the id. -/
  first : ∀ bound off, d.findCap config bound id = .ok off → off ≠ 0 → d.IsFirstCap config id off

end Searches

variable {config : ConfigSpace} {d : PciDevice} {id : BitVec 16} {bound off : ℕ}

section Result

variable {w : ℕ} {isEnd hasId : BitVec w → Bool} {node : BitVec w}

theorem result_eq_none :
    result isEnd hasId node = none ↔ isEnd node = false ∧ hasId node = false := by
  unfold result
  cases isEnd node <;> cases hasId node <;> simp

theorem result_eq_some : result isEnd hasId node = some off ↔ isEnd node = true ∧ off = 0 ∨
    isEnd node = false ∧ hasId node = true ∧ off = node.toNat := by
  unfold result
  cases isEnd node <;> cases hasId node <;> simp [eq_comm]

theorem isSome_result : (result isEnd hasId node).isSome = (isEnd node || hasId node) := by
  unfold result
  cases isEnd node <;> cases hasId node <;> rfl

end Result

/-- The search leaves at the end of the list and at a capability with the id. -/
theorem findCap_eq_ok : d.findCap config bound id = .ok off ↔
    ∃ k < bound,
      (isEnd ((d.nextCap config)^[k] (d.capOffset config)) = true ∧ off = 0 ∨
        isEnd ((d.nextCap config)^[k] (d.capOffset config)) = false ∧
          d.hasId config id ((d.nextCap config)^[k] (d.capOffset config)) = true ∧
          off = ((d.nextCap config)^[k] (d.capOffset config)).toNat) ∧
      ∀ m < k, isEnd ((d.nextCap config)^[m] (d.capOffset config)) = false ∧
        d.hasId config id ((d.nextCap config)^[m] (d.capOffset config)) = false := by
  rw [findCap, chase_eq_ok]
  simp only [result_eq_none, result_eq_some]

/-- A non-zero offset found is the one of the first capability with the id. -/
theorem isFirstCap_of_findCap (h : d.findCap config bound id = .ok off) (hoff : off ≠ 0) :
    d.IsFirstCap config id off := by
  obtain ⟨k, -, ⟨-, hzero⟩ | ⟨hend, hid, rfl⟩, hbefore⟩ := findCap_eq_ok.mp h
  · exact absurd hzero hoff
  · refine ⟨k, rfl, hid, fun m hm => ?_, fun m hm => (hbefore m hm).2⟩
    rcases Nat.lt_or_eq_of_le hm with hlt | rfl
    · exact (hbefore m hlt).1
    · exact hend

/-- The search finds a capability exactly if there is one on the chain. -/
theorem findCap_ne_zero_iff (h : d.findCap config bound id = .ok off) :
    off ≠ 0 ↔ d.HasCap config id := by
  constructor
  · intro hoff
    obtain ⟨k, -, hid, hend, -⟩ := isFirstCap_of_findCap h hoff
    exact ⟨k, hid, hend⟩
  · rintro ⟨k, hid, hend⟩ rfl
    obtain ⟨j, -, hleave, hbefore⟩ := findCap_eq_ok.mp h
    have hjk : j ≤ k := by
      by_contra hlt
      rw [(hbefore k (by omega)).2] at hid
      cases hid
    rcases hleave with ⟨hstop, -⟩ | ⟨hgo, -, hzero⟩
    · rw [hend j hjk] at hstop
      cases hstop
    · have hnode : (d.nextCap config)^[j] (d.capOffset config) = 0 :=
        BitVec.eq_of_toNat_eq hzero.symm
      rw [hnode] at hgo
      cases hgo

/-- The search comes to an end on a chain with an end. -/
theorem exists_findCap (id : BitVec 16) (h : Ends (d.nextCap config) isEnd (d.capOffset config)) :
    ∃ bound off, d.findCap config bound id = .ok off := by
  obtain ⟨k, hend⟩ := h
  refine (exists_chase_iff _ Fault.unfinished).mpr ⟨k, ?_⟩
  simp only [isSome_result, hend, Bool.true_or]

/-- The iterator is at the offset of the chain, or at the invalid one instead of zero. -/
theorem iterate_orInvalid {k : ℕ}
    (h : ∀ m < k, isEnd ((d.nextCap config)^[m] (d.capOffset config)) = false) :
    (fun off => orInvalid (d.nextCap config off))^[k] (orInvalid (d.capOffset config)) =
      orInvalid ((d.nextCap config)^[k] (d.capOffset config)) := by
  induction k with
  | zero => rfl
  | succ k ih =>
    have hnode : orInvalid ((d.nextCap config)^[k] (d.capOffset config)) =
        (d.nextCap config)^[k] (d.capOffset config) := by
      have hgo := h k (Nat.lt_succ_self k)
      simp only [isEnd, Bool.or_eq_false_iff, beq_eq_false_iff_ne] at hgo
      exact if_neg hgo.1
    rw [Function.iterate_succ_apply', Function.iterate_succ_apply', ih fun m hm => h m (by omega),
      hnode]

/-- The iterator is done exactly at the ends of the list. -/
theorem orInvalid_eq_iff (off : BitVec 8) : (orInvalid off == orInvalid 0) = isEnd off := by
  revert off
  decide

/-- The loop over the capabilities comes to an end exactly if the chain does. -/
theorem exists_getCapabilities_iff : (∃ bound offs, d.getCapabilities config bound = .ok offs) ↔
    Ends (d.nextCap config) isEnd (d.capOffset config) := by
  refine (exists_collect_iff Fault.unfinished).trans ⟨fun h => ?_, fun h => ?_⟩
  · obtain ⟨k, hdone⟩ := h
    dsimp only at hdone
    by_contra hnever
    have hgo (m : ℕ) : isEnd ((d.nextCap config)^[m] (d.capOffset config)) = false :=
      Bool.eq_false_iff.mpr fun hend => hnever ⟨m, hend⟩
    rw [iterate_orInvalid fun m _ => hgo m, orInvalid_eq_iff, hgo k] at hdone
    cases hdone
  · obtain ⟨k, hend, hfirst⟩ := h.exists_first
    refine ⟨k, ?_⟩
    dsimp only
    rw [iterate_orInvalid hfirst, orInvalid_eq_iff, hend]

/-- Without a PCI Express capability the extended search returns at once; with one it comes to
an end exactly if the extended chain meets a capability with the id or the end of the list. -/
theorem exists_findExtCap_iff (h : Ends (d.nextCap config) isEnd (d.capOffset config)) :
    (∃ bound off, d.findExtCap config bound id = .ok off) ↔
      (d.HasCap config pcieCapabilityId →
        Ends (d.nextExtCap config) (fun off => isExtEnd off || d.hasExtId config id off)
          256#16) := by
  have hchase : (∃ bound off, chase (d.nextExtCap config)
      (result isExtEnd (d.hasExtId config id)) Fault.unfinished bound 256#16 = .ok off) ↔
        Ends (d.nextExtCap config) (fun off => isExtEnd off || d.hasExtId config id off) 256#16 :=
    (exists_chase_iff _ _).trans (by simp only [isSome_result])
  constructor
  · rintro ⟨bound, off, hfind⟩ hcap
    obtain ⟨pcie, hpcie, hrest⟩ := bind_eq_ok.mp hfind
    rw [if_neg ((findCap_ne_zero_iff hpcie).mpr hcap)] at hrest
    exact hchase.mp ⟨bound, off, hrest⟩
  · intro hext
    obtain ⟨bound, pcie, hpcie⟩ := exists_findCap pcieCapabilityId h
    by_cases hcap : d.HasCap config pcieCapabilityId
    · obtain ⟨bound', off, hoff⟩ := hchase.mpr (hext hcap)
      refine ⟨max bound bound', off, bind_eq_ok.mpr ⟨pcie, ?_, ?_⟩⟩
      · exact chase_mono hpcie (Nat.le_max_left _ _)
      · rw [if_neg ((findCap_ne_zero_iff hpcie).mpr hcap)]
        exact chase_mono hoff (Nat.le_max_right _ _)
    · have hzero : pcie = 0 := by
        by_contra hne
        exact hcap ((findCap_ne_zero_iff hpcie).mp hne)
      exact ⟨bound, 0, bind_eq_ok.mpr ⟨pcie, hpcie, if_pos hzero⟩⟩

instance finite_offset {w : ℕ} : Finite (BitVec w) := Finite.of_equiv _ BitVec.equivFin.symm.toEquiv

/-- All searches come to an end when, and only when, the chain of capabilities does not run in a
circle and, if it contains the PCI Express capability, the extended chain does not run in a
circle in front of the wanted capability. What is found is always the first capability. -/
theorem searches_iff (config : ConfigSpace) (d : PciDevice) (id : BitVec 16) :
    d.Searches config id ↔
      Acyclic (d.nextCap config) isEnd (d.capOffset config) ∧
        (d.HasCap config pcieCapabilityId →
          Acyclic (d.nextExtCap config) (fun off => isExtEnd off || d.hasExtId config id off)
            256#16) := by
  rw [← ends_iff_acyclic, ← ends_iff_acyclic]
  constructor
  · intro h
    have hends := exists_getCapabilities_iff.mp h.getCapabilities
    exact ⟨hends, (exists_findExtCap_iff hends).mp h.findExtCap⟩
  · rintro ⟨hends, hext⟩
    exact ⟨exists_findCap id hends, (exists_findExtCap_iff hends).mpr hext,
      exists_getCapabilities_iff.mpr hends, fun _ _ hfind hoff => isFirstCap_of_findCap hfind hoff⟩

/-- A function whose only capability, at offset 0x40, names itself as the next one. -/
def selfLinked : ConfigSpace := fun address =>
  if address = 0x34 then 0x00000040#32 else if address = 0x40 then 0x00004005#32 else 0#32

/-- Neither the search for another capability nor the loop over all of them comes to an end. -/
theorem self_link_never_ends :
    (¬∃ bound found,
      (PciDevice.mk 0 ⟨0, 0, 0⟩).findCap selfLinked bound 0x11#16 = .ok found) ∧
    ¬∃ bound caps, (PciDevice.mk 0 ⟨0, 0, 0⟩).getCapabilities selfLinked bound = .ok caps := by
  constructor
  · rintro ⟨bound, found, hfound⟩
    have hfault : (PciDevice.mk 0 ⟨0, 0, 0⟩).findCap selfLinked bound 0x11#16 =
        .error .unfinished := chase_of_fixed _ (by decide) (by decide) bound
    rw [hfault] at hfound
    cases hfound
  · rintro ⟨bound, caps, hcaps⟩
    have hfault : (PciDevice.mk 0 ⟨0, 0, 0⟩).getCapabilities selfLinked bound =
        .error .unfinished := collect_of_fixed _ (by decide) (by decide) bound
    rw [hfault] at hcaps
    cases hcaps

end PciDevice

end Toyos.Pci
