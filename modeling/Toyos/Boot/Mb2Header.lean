import Toyos.Boot.Mb2Reader
import Toyos.Core.Vec

/-!
# Locating the Multiboot2 header

`locate_header` looks for the magic bytes at an aligned offset and constructs a
reader there. The end of the search leaves eight bytes behind the magic, but the
reader copies twelve more: a magic in the last places the search allows makes the
reader copy bytes behind the vector.
-/

namespace Toyos.Boot

open Toyos.Core

/-- `MB2_HDR_MAX`. -/
def mb2HdrMax : ℕ := 32 * 1024

/-- `MB2_HDR_MAGIC`. -/
def mb2HdrMagic : List UInt8 := [0xD6, 0x50, 0x52, 0xE8]

/-- The part of a binary that may hold the header. -/
def headerLimit (binary : List UInt8) : ℕ := min mb2HdrMax binary.length

/-- `search_end`. -/
def searchEnd (binary : List UInt8) : ℕ := headerLimit binary - 8

/-- One round of the search: the offset of the header, or where to go on. -/
def locateRound (binary : List UInt8) (searchBegin : ℕ) :
    Except ReadFault (ℕ ⊕ Option ℕ) := do
  if searchBegin < searchEnd binary then
    let found ← Vec.searchSeq .outside binary searchBegin (searchEnd binary) mb2HdrMagic
    if found = searchEnd binary then
      return .inr none
    else if found % 8 = 0 then
      return .inr (some found)
    else return .inl (found + 1)
  else return .inr none

/-- `locate_header`. -/
def locateHeader (binary : List UInt8) :
    Except ReadFault (Option (Mb2Reader mb2HeaderLayout)) := do
  if binary.length < mb2HeaderLayout.fixedSize then
    return none
  match ← loop (locateRound binary) .endless (binary.length + 1) 0 with
  | none => return none
  | some offset =>
    let reader ← Mb2Reader.new mb2HeaderLayout binary offset
    return some reader

/-- An aligned offset with the magic bytes. -/
def MagicAt (binary : List UInt8) (o : ℕ) : Prop := 8 ∣ o ∧ mb2HdrMagic <+: binary.drop o

/-- An aligned offset with the magic bytes and the whole fixed part inside. -/
def HeaderAt (binary : List UInt8) (o : ℕ) : Prop :=
  MagicAt binary o ∧ o + mb2HeaderLayout.fixedSize ≤ headerLimit binary

/-- The result is a reader at the first header, or nothing because there is no header. -/
def Located (binary : List UInt8) : Option (Mb2Reader mb2HeaderLayout) → Prop
  | none => ∀ o, ¬HeaderAt binary o
  | some r => r.mem = binary ∧ HeaderAt binary r.raw ∧ ∀ o < r.raw, ¬HeaderAt binary o

variable {binary : List UInt8}

/-- An offset the search can return. -/
def Candidate (binary : List UInt8) (o : ℕ) : Prop :=
  MagicAt binary o ∧ o + mb2HdrMagic.length ≤ searchEnd binary

/-- The offset is the first candidate, or there is no candidate. -/
def FirstCandidate (binary : List UInt8) : Option ℕ → Prop
  | none => ∀ o, ¬Candidate binary o
  | some o => Candidate binary o ∧ ∀ o' < o, ¬Candidate binary o'

theorem Candidate.lt_searchEnd {o : ℕ} (h : Candidate binary o) : o < searchEnd binary := by
  have hlen : mb2HdrMagic.length = 4 := rfl
  have hfit := h.2
  omega

/-- A round that starts behind no candidate leaves with the first one, or goes on behind an
offset that is not aligned. -/
theorem locateRound_spec {b : ℕ} (hle : b ≤ searchEnd binary)
    (hnone : ∀ o < b, ¬Candidate binary o) :
    (∃ r, locateRound binary b = .ok (.inr r) ∧ FirstCandidate binary r) ∨
      ∃ b', locateRound binary b = .ok (.inl b') ∧
        (b' ≤ searchEnd binary ∧ ∀ o < b', ¬Candidate binary o) ∧ b < b' := by
  have hend : searchEnd binary ≤ binary.length := by
    unfold searchEnd headerLimit
    omega
  have hmagic : mb2HdrMagic ≠ [] := by simp [mb2HdrMagic]
  by_cases hlt : b < searchEnd binary
  · rcases Vec.searchSeq_spec ReadFault.outside hmagic ⟨hle, hend⟩ with
      ⟨i, hfound, hbi, hfit, hstands, hbefore⟩ | ⟨hfound, hnowhere⟩
    · have hpos := List.length_pos_iff.mpr hmagic
      have hne : i ≠ searchEnd binary := by omega
      have hless : ∀ o < i, ¬Candidate binary o := by
        intro o ho hc
        by_cases hob : o < b
        · exact hnone o hob hc
        · exact hbefore o (not_lt.mp hob) ho hc.1.2
      by_cases haligned : i % 8 = 0
      · refine .inl ⟨some i, by simp [locateRound, hlt, hfound, hne, haligned], ?_, hless⟩
        exact ⟨⟨Nat.dvd_of_mod_eq_zero haligned, hstands⟩, hfit⟩
      · refine .inr ⟨i + 1, by simp [locateRound, hlt, hfound, hne, haligned], ?_, by omega⟩
        refine ⟨by omega, fun o ho hc => ?_⟩
        rcases Nat.lt_succ_iff_lt_or_eq.mp ho with hbelow | rfl
        · exact hless o hbelow hc
        · exact haligned (Nat.mod_eq_zero_of_dvd hc.1.1)
    · refine .inl ⟨none, by simp [locateRound, hlt, hfound], fun o hc => ?_⟩
      by_cases hob : o < b
      · exact hnone o hob hc
      · exact hnowhere o (not_lt.mp hob) hc.2 hc.1.2
  · refine .inl ⟨none, by simp [locateRound, hlt], fun o hc => ?_⟩
    exact hnone o (hc.lt_searchEnd.trans_le (not_lt.mp hlt)) hc

/-- The loop ends at the first candidate. -/
theorem locate_loop (binary : List UInt8) :
    ∃ r, loop (locateRound binary) .endless (binary.length + 1) 0 = .ok r ∧
      FirstCandidate binary r := by
  apply loop_spec (fun b => b ≤ searchEnd binary ∧ ∀ o < b, ¬Candidate binary o) _
    (fun b => searchEnd binary - b)
  · rintro b ⟨hle, hnone⟩
    rcases locateRound_spec hle hnone with hleave | ⟨b', hround, hnext, hlt⟩
    · exact .inl hleave
    · have hle' := hnext.1
      exact .inr ⟨b', hround, hnext, by omega⟩
  · exact ⟨Nat.zero_le _, by simp⟩
  · unfold searchEnd headerLimit
    omega

/-- An offset can be returned when eight bytes follow the magic. -/
theorem candidate_iff {o : ℕ} :
    Candidate binary o ↔ MagicAt binary o ∧ o + 12 ≤ headerLimit binary := by
  have hlen : mb2HdrMagic.length = 4 := rfl
  unfold Candidate searchEnd
  rw [hlen]
  refine and_congr_right fun _ => ?_
  omega

/-- Every header can be returned. -/
theorem HeaderAt.candidate {o : ℕ} (h : HeaderAt binary o) : Candidate binary o := by
  have hfit : o + 16 ≤ headerLimit binary := h.2
  exact candidate_iff.mpr ⟨h.1, by omega⟩

/-- The reader is constructed where the fixed part lies inside the binary. -/
theorem new_header_ok {o : ℕ} (h : o + 16 ≤ binary.length) :
    ∃ r, Mb2Reader.new mb2HeaderLayout binary o = .ok r := by
  rw [Mb2Reader.new, readBytes, ensure_of _ (show o + mb2HeaderLayout.fixedSize ≤ _ from h)]
  exact ⟨_, rfl⟩

/-- Elsewhere its constructor reads outside the binary. -/
theorem new_header_outside {o : ℕ} (h : ¬o + 16 ≤ binary.length) :
    Mb2Reader.new mb2HeaderLayout binary o = .error .outside := by
  rw [Mb2Reader.new, readBytes,
    ensure_not _ (show ¬o + mb2HeaderLayout.fixedSize ≤ _ from h)]
  rfl

/-- A candidate that is no header has its fixed part reach behind the binary. -/
theorem Candidate.outside {o : ℕ} (h : Candidate binary o) (hnot : ¬HeaderAt binary o) :
    ¬o + 16 ≤ binary.length := by
  obtain ⟨hmagic, hfit⟩ := candidate_iff.mp h
  have haligned := hmagic.1
  have hout : ¬o + 16 ≤ headerLimit binary := fun hin => hnot ⟨hmagic, hin⟩
  unfold headerLimit mb2HdrMax at hfit hout
  omega

/-- The result of a binary that is long enough, by the first candidate. -/
theorem locateHeader_eq (hlong : 16 ≤ binary.length) :
    (locateHeader binary = .ok none ∧ ∀ o, ¬Candidate binary o) ∨
      ∃ o, locateHeader binary = some <$> Mb2Reader.new mb2HeaderLayout binary o ∧
        Candidate binary o ∧ ∀ o' < o, ¬Candidate binary o' := by
  have hlen : ¬binary.length < mb2HeaderLayout.fixedSize := not_lt.mpr hlong
  obtain ⟨r, hloop, hr⟩ := locate_loop binary
  cases r with
  | none => exact .inl ⟨by simp [locateHeader, hlen, hloop], hr⟩
  | some o =>
    refine .inr ⟨o, ?_, hr⟩
    simp only [locateHeader, hlen, if_false, hloop, ok_bind]
    rfl

/-- The header is located exactly unless an aligned magic without room for the whole fixed part
stands in a binary that has no header. -/
theorem locateHeader_exact_iff (binary : List UInt8) :
    (∃ result, locateHeader binary = .ok result ∧ Located binary result) ↔
      binary.length < 16 ∨
        ∀ o, MagicAt binary o → o + 12 ≤ headerLimit binary → ∃ o', HeaderAt binary o' := by
  by_cases hlong : 16 ≤ binary.length
  · have hshort : ¬binary.length < 16 := by omega
    rw [or_iff_right hshort]
    rcases locateHeader_eq hlong with ⟨hcall, hnone⟩ | ⟨o, hcall, hcand, hfirst⟩
    · constructor
      · exact fun _ o hmagic hfit => absurd (candidate_iff.mpr ⟨hmagic, hfit⟩) (hnone o)
      · exact fun _ => ⟨none, hcall, fun o hheader => hnone o hheader.candidate⟩
    · by_cases hheader : HeaderAt binary o
      · obtain ⟨r, hr⟩ := new_header_ok (hheader.2.trans (Nat.min_le_right _ _))
        obtain ⟨hmem, hraw⟩ := Mb2Reader.new_eq_ok hr
        refine iff_of_true ⟨some r, by rw [hcall, hr]; rfl, hmem, hraw ▸ hheader, ?_⟩
          fun _ _ _ => ⟨o, hheader⟩
        rw [hraw]
        exact fun o' hlt hearlier => hfirst o' hlt hearlier.candidate
      · refine iff_of_false ?_ fun h => ?_
        · rintro ⟨result, hok, -⟩
          rw [hcall, new_header_outside (hcand.outside hheader)] at hok
          cases hok
        · obtain ⟨hmagic, hfit⟩ := candidate_iff.mp hcand
          obtain ⟨o', ho'⟩ := h o hmagic hfit
          have hge : o ≤ o' := not_lt.mp fun hlt => hfirst o' hlt ho'.candidate
          have hroom : o' + 16 ≤ headerLimit binary := ho'.2
          exact hheader ⟨hmagic, show o + 16 ≤ headerLimit binary by omega⟩
  · refine iff_of_true ⟨none, ?_, fun o hheader => ?_⟩ (.inl (by omega))
    · simp [locateHeader, show binary.length < mb2HeaderLayout.fixedSize from not_le.mp hlong]
    · have hroom : o + 16 ≤ min mb2HdrMax binary.length := hheader.2
      omega

/-- Eight bytes, the magic, and eight bytes more. -/
def lateMagic : List UInt8 := List.replicate 8 0 ++ mb2HdrMagic ++ List.replicate 8 0

/-- A magic with only eight bytes behind it makes the reader copy bytes behind the vector. -/
theorem late_magic_read_outside :
    ¬∀ binary, ∃ result, locateHeader binary = .ok result ∧ Located binary result := by
  intro h
  obtain ⟨result, hok, -⟩ := h lateMagic
  have hfault : locateHeader lateMagic = .error .outside := by decide +kernel
  simp [hfault] at hok

end Toyos.Boot
