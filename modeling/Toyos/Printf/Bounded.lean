import Toyos.Core.Memory
import Toyos.Core.Word
import Toyos.Printf.Xprintf

/-!
# Formatted output to a buffer

The output pointer runs on behind the limit of the buffer, where nothing is stored.
It is not kept from running over the end of the address space: then it is below the
limit again, and what is left of the output is stored in front of the buffer.
-/

namespace Toyos.Printf

open Toyos.Core

/-- The memory and the output pointer. -/
structure Out where
  /-- The memory. -/
  memory : Memory
  /-- The output pointer. -/
  outptr : ℕ

/-- A character behind the output pointer; nothing is stored at null or from the limit on. -/
def emitTo (limit : ℕ) (o : Out) (c : UInt8) : Out where
  memory := if o.outptr ≠ 0 ∧ o.outptr < limit then o.memory.store o.outptr [c] else o.memory
  outptr := wrap (o.outptr + 1)

/-- The difference of two pointers as an `int`. -/
def distance (outptr buff : ℕ) : ℤ := (BitVec.ofNat 32 (wsub outptr buff)).toInt

/-- `max_ptr`. -/
def maxPtr : ℕ := 2 ^ 64 - 1

/-- Formatted output to a buffer of any size. -/
def sprintf (m : Memory) (buff : ℕ) (fmt : List UInt8) (arp : List Arg) :
    Except Fault (ℤ × Memory) := do
  let o ← xvprintfInternal (emitTo maxPtr) fmt arp ⟨m, buff⟩
  return (distance o.outptr buff, o.memory.store o.outptr [0])

/-- Formatted output to a buffer of `n` bytes. -/
def vsnprintf (m : Memory) (buff n : ℕ) (fmt : List UInt8) (arp : List Arg) :
    Except Fault (ℤ × Memory) := do
  let snprintfLimit := wsub (wrap (buff + n)) (if n ≠ 0 then 1 else 0)
  ensure (¬((buff = 0 ∧ n ≠ 0) ∨ buff > snprintfLimit)) Fault.trap
  let o ← xvprintfInternal (emitTo snprintfLimit) fmt arp ⟨m, buff⟩
  if n = 0 then return (distance o.outptr buff, o.memory)
  else if o.outptr > wsub snprintfLimit 1 then
    return (distance o.outptr buff, o.memory.store snprintfLimit [0])
  else return (distance o.outptr buff, o.memory.store o.outptr [0])

section Emit

variable {limit : ℕ} {o : Out} {c : UInt8} {text : List UInt8}

theorem outptr_emitTo (o : Out) (c : UInt8) : (emitTo limit o c).outptr = wrap (o.outptr + 1) :=
  rfl

theorem memory_emitTo_of_lt (hnull : o.outptr ≠ 0) (hlimit : o.outptr < limit) :
    (emitTo limit o c).memory = o.memory.store o.outptr [c] :=
  if_pos ⟨hnull, hlimit⟩

theorem memory_emitTo_of_not (h : o.outptr = 0 ∨ limit ≤ o.outptr) :
    (emitTo limit o c).memory = o.memory :=
  if_neg (by omega)

/-- The output pointer counts the characters. -/
theorem outptr_foldl (limit : ℕ) (text : List UInt8) (o : Out) (h : o.outptr < 2 ^ 64) :
    (text.foldl (emitTo limit) o).outptr = wrap (o.outptr + text.length) := by
  induction text generalizing o with
  | nil => exact (wrap_of_lt h).symm
  | cons c cs ih =>
    rw [List.foldl_cons, ih _ (wrap_lt _), outptr_emitTo, List.length_cons, wrap, wrap, wrap]
    omega

/-- Characters are stored up to the limit as long as the output pointer does not wrap. -/
theorem memory_foldl (hnull : o.outptr ≠ 0) (h : o.outptr + text.length ≤ 2 ^ 64) :
    (text.foldl (emitTo limit) o).memory =
      o.memory.store o.outptr (text.take (limit - o.outptr)) := by
  induction text generalizing o with
  | nil => rw [List.take_nil, Memory.store_nil, List.foldl_nil]
  | cons c cs ih =>
    rw [List.length_cons] at h
    have hnext : (cs.foldl (emitTo limit) (emitTo limit o c)).memory =
        (emitTo limit o c).memory.store (o.outptr + 1)
          (cs.take (limit - (o.outptr + 1))) := by
      cases cs with
      | nil => rw [List.take_nil, Memory.store_nil, List.foldl_nil]
      | cons c' cs =>
        rw [List.length_cons] at h
        have hptr : (emitTo limit o c).outptr = o.outptr + 1 := wrap_of_lt (by omega)
        rw [ih (by omega) (by rw [List.length_cons]; omega), hptr]
    rw [List.foldl_cons, hnext]
    rcases Nat.lt_or_ge o.outptr limit with hlt | hge
    · obtain ⟨k, hk⟩ : ∃ k, limit - o.outptr = k + 1 := ⟨limit - o.outptr - 1, by omega⟩
      rw [memory_emitTo_of_lt hnull hlt, hk, List.take_succ_cons,
        show limit - (o.outptr + 1) = k by omega]
      exact Memory.store_cons.symm
    · rw [memory_emitTo_of_not (.inr hge), show limit - (o.outptr + 1) = 0 by omega,
        show limit - o.outptr = 0 by omega, List.take_zero, List.take_zero, Memory.store_nil,
        Memory.store_nil]

/-- Nothing is stored without a limit. -/
theorem memory_foldl_zero (text : List UInt8) (o : Out) :
    (text.foldl (emitTo 0) o).memory = o.memory := by
  induction text generalizing o with
  | nil => rfl
  | cons c cs ih => rw [List.foldl_cons, ih, memory_emitTo_of_not (.inr (Nat.zero_le _))]

end Emit

section Calls

variable {buff n : ℕ} {m : Memory} {fmt : List UInt8} {arp : List Arg} {text : List UInt8}

theorem distance_eq {k : ℕ} (hk : k < 2 ^ 31) :
    distance (wrap (buff + k)) buff = k := by
  have hsub : wsub (wrap (buff + k)) buff = k := by
    rw [wsub, wrap]
    omega
  have hnat : (BitVec.ofNat 32 k).toNat = k := by
    rw [BitVec.toNat_ofNat]
    omega
  rw [distance, hsub, BitVec.toInt_eq_toNat_of_lt (by omega), hnat]

/-- The limit is the last byte of the buffer. -/
theorem snprintfLimit_eq (hbuff : buff < 2 ^ 64) (hn : buff + n ≤ 2 ^ 64) :
    wsub (wrap (buff + n)) (if n ≠ 0 then 1 else 0) = buff + (n - 1) := by
  by_cases hzero : n = 0
  · rw [if_neg (not_not_intro hzero), hzero, Nat.add_zero, wrap_of_lt hbuff]
    exact wsub_of_le hbuff (Nat.zero_le _)
  · rw [if_pos hzero, wsub, wrap]
    omega

variable (hbuff : buff < 2 ^ 64) (houtput : output fmt arp = .ok text)
  (hlength : text.length < 2 ^ 31)

include hbuff houtput hlength

/-- `sprintf` stores its output and a zero behind it. -/
theorem sprintf_eq_ok (hnull : buff ≠ 0) (hfits : buff + text.length < 2 ^ 64) :
    sprintf m buff fmt arp = .ok (text.length,
      (m.store buff text).store (buff + text.length) [0]) := by
  have hall : text.take (maxPtr - buff) = text := List.take_of_length_le (by rw [maxPtr]; omega)
  rw [sprintf, xvprintfInternal_eq_output, houtput]
  dsimp only [Except.map, ok_bind, pure_eq_ok]
  rw [outptr_foldl _ _ _ hbuff, memory_foldl hnull hfits.le, distance_eq hlength, hall,
    wrap_of_lt hfits]

/-- Without a buffer only the length is of interest. -/
theorem vsnprintf_empty :
    vsnprintf m buff 0 fmt arp = .ok (text.length,
      (text.foldl (emitTo buff) ⟨m, buff⟩).memory) := by
  have hlimit : wsub (wrap (buff + 0)) (if 0 ≠ 0 then 1 else 0) = buff :=
    snprintfLimit_eq hbuff hbuff.le
  rw [vsnprintf, hlimit, ensure_of _ (by omega), xvprintfInternal_eq_output, houtput]
  dsimp only [Except.map, ok_bind, pure_eq_ok]
  rw [if_pos rfl, outptr_foldl _ _ _ hbuff, distance_eq hlength]

/-- Where a buffer is closed by a zero. -/
def zeroAt (buff n length : ℕ) : ℕ :=
  if wrap (buff + length) > buff + (n - 1) - 1 then buff + (n - 1) else wrap (buff + length)

theorem vsnprintf_buffer (hnull : buff ≠ 0) (hn : buff + n ≤ 2 ^ 64) (hpos : n ≠ 0) :
    vsnprintf m buff n fmt arp = .ok (text.length,
      (text.foldl (emitTo (buff + (n - 1))) ⟨m, buff⟩).memory.store
        (zeroAt buff n text.length) [0]) := by
  have hprev : wsub (buff + (n - 1)) 1 = buff + (n - 1) - 1 := wsub_of_le (by omega) (by omega)
  rw [vsnprintf, snprintfLimit_eq hbuff hn, ensure_of _ (by omega), xvprintfInternal_eq_output,
    houtput]
  dsimp only [Except.map, ok_bind, pure_eq_ok]
  rw [if_neg hpos, hprev, outptr_foldl _ _ _ hbuff, distance_eq hlength, zeroAt]
  split_ifs
  · rfl
  · rfl

end Calls

/-- Formatted output to a buffer is the beginning of the output of `sprintf`, closed by a zero;
nothing is stored outside of the buffer, and the result is the length of the output. -/
def Truncates (buff n : ℕ) (fmt : List UInt8) (arp : List Arg) (length : ℕ) : Prop :=
  ∀ m : Memory, ∃ m' : Memory, vsnprintf m buff n fmt arp = .ok (length, m') ∧
    (∀ a, a < buff ∨ buff + n ≤ a → m' a = m a) ∧
    (n ≠ 0 → m' (buff + min length (n - 1)) = 0 ∧
      ∀ (mem : Memory) (b : ℕ), b ≠ 0 → b + length < 2 ^ 64 →
        ∃ mem' : Memory, sprintf mem b fmt arp = .ok (length, mem') ∧
          ∀ i < min length (n - 1), m' (buff + i) = mem' (b + i))

section Wrap

variable {buff n : ℕ} {m : Memory} {text : List UInt8}

/-- Nothing is stored without a buffer if the output pointer comes no further than to the byte
behind null. -/
theorem memory_empty (hbuff : buff < 2 ^ 64) (h : buff + text.length ≤ 2 ^ 64 + 1) :
    (text.foldl (emitTo buff) ⟨m, buff⟩).memory = m := by
  by_cases hnull : buff = 0
  · subst hnull
    exact memory_foldl_zero text _
  · have hnowrap : ∀ text : List UInt8, buff + text.length ≤ 2 ^ 64 →
        (text.foldl (emitTo buff) ⟨m, buff⟩).memory = m := by
      intro text hfits
      rw [memory_foldl hnull hfits, Nat.sub_self, List.take_zero, Memory.store_nil]
    rcases Nat.lt_or_ge (2 ^ 64) (buff + text.length) with hwrap | hfits
    · rcases List.eq_nil_or_concat text with rfl | ⟨front, c, rfl⟩
      · rw [List.length_nil] at hwrap
        omega
      · rw [List.concat_eq_append, List.length_append, List.length_singleton] at h hwrap
        have hzero : (front.foldl (emitTo buff) ⟨m, buff⟩).outptr = 0 := by
          rw [outptr_foldl _ _ _ hbuff, show buff + front.length = 2 ^ 64 by omega]
          rfl
        rw [List.concat_eq_append, List.foldl_append, List.foldl_cons, List.foldl_nil,
          memory_emitTo_of_not (.inl hzero), hnowrap front (by omega)]
    · exact hnowrap text hfits

/-- An output pointer that comes further has stored a character behind null. -/
theorem memory_empty_wrapped (hbuff : buff < 2 ^ 64) (hlength : text.length < 2 ^ 31)
    (h : 2 ^ 64 + 1 < buff + text.length) :
    ∃ c, ∀ m : Memory, (text.foldl (emitTo buff) ⟨m, buff⟩).memory 1 = c := by
  obtain ⟨front, back, rfl, hfront⟩ : ∃ front back, text = front ++ back ∧
      buff + front.length = 2 ^ 64 :=
    ⟨text.take (2 ^ 64 - buff), text.drop (2 ^ 64 - buff), (List.take_append_drop _ _).symm,
      by rw [List.length_take]; omega⟩
  rw [List.length_append] at h hlength
  obtain ⟨c₀, c₁, rest, rfl⟩ : ∃ c₀ c₁ rest, back = c₀ :: c₁ :: rest := by
    match back with
    | [] => simp at h; omega
    | [c] => simp at h; omega
    | c₀ :: c₁ :: rest => exact ⟨c₀, c₁, rest, rfl⟩
  refine ⟨c₁, fun m => ?_⟩
  rw [List.length_cons, List.length_cons] at hlength
  rw [List.foldl_append, List.foldl_cons, List.foldl_cons]
  have hzero : (front.foldl (emitTo buff) ⟨m, buff⟩).outptr = 0 := by
    rw [outptr_foldl _ _ _ hbuff, hfront]
    rfl
  generalize front.foldl (emitTo buff) ⟨m, buff⟩ = o at hzero
  have hone : (emitTo buff o c₀).outptr = 1 := by
    rw [outptr_emitTo, hzero]
    rfl
  generalize emitTo buff o c₀ = o' at hone
  have htwo : (emitTo buff o' c₁).outptr = 2 := by
    rw [outptr_emitTo, hone]
    rfl
  rw [memory_foldl (by omega) (by omega), htwo, Memory.store_of_outside (.inl (by decide)),
    memory_emitTo_of_lt (by omega) (by omega), hone, Memory.store_singleton_self]

theorem zeroAt_of_lt (h : buff + text.length < 2 ^ 64) :
    zeroAt buff n text.length = buff + min text.length (n - 1) := by
  rw [zeroAt, wrap_of_lt h]
  split_ifs
  · omega
  · omega

/-- An output pointer that wraps leaves the zero in front of the buffer. -/
theorem zeroAt_wrapped (hbuff : buff < 2 ^ 64) (hlength : text.length < 2 ^ 31)
    (h : 2 ^ 64 ≤ buff + text.length) : zeroAt buff n text.length < buff := by
  have hwrap : wrap (buff + text.length) = buff + text.length - 2 ^ 64 := by
    rw [wrap]
    omega
  rw [zeroAt, hwrap, if_neg (by omega)]
  omega

end Wrap

section Main

variable {buff n : ℕ} {fmt : List UInt8} {arp : List Arg} {text : List UInt8}

theorem truncates_of_fits (hbuff : buff < 2 ^ 64) (hn : buff + n ≤ 2 ^ 64) (hnull : buff ≠ 0)
    (hpos : n ≠ 0) (houtput : output fmt arp = .ok text) (hlength : text.length < 2 ^ 31)
    (h : buff + text.length < 2 ^ 64) : Truncates buff n fmt arp text.length := by
  intro m
  have hmemory : (text.foldl (emitTo (buff + (n - 1))) ⟨m, buff⟩).memory =
      m.store buff (text.take (n - 1)) := by
    rw [memory_foldl hnull h.le]
    dsimp only
    rw [Nat.add_sub_cancel_left]
  refine ⟨_, vsnprintf_buffer hbuff houtput hlength hnull hn hpos, ?_⟩
  rw [hmemory, zeroAt_of_lt h]
  have htake : (text.take (n - 1)).length = min text.length (n - 1) := by
    rw [List.length_take, Nat.min_comm]
  refine ⟨fun a ha => ?_, fun _ => ⟨Memory.store_singleton_self, fun mem b hb hfits => ?_⟩⟩
  · rw [Memory.store_of_outside (by rw [List.length_singleton]; omega),
      Memory.store_of_outside (by rw [htake]; omega)]
  · refine ⟨_, sprintf_eq_ok (by omega) houtput hlength hb hfits, fun i hi => ?_⟩
    have hshort : i < (text.take (n - 1)).length := htake ▸ hi
    have hlong : i < text.length := by omega
    rw [Memory.store_of_outside (.inl (by omega)), Memory.store_of_lt hshort,
      Memory.store_of_outside (.inl (by omega)), Memory.store_of_lt hlong]
    exact List.getElem_take

end Main

/-- Formatted output is truncated exactly if the output pointer does not run over the end of the
address space, or not further than to the byte behind null if there is no buffer. -/
theorem truncates_iff (buff n : ℕ) (fmt : List UInt8) (arp : List Arg) (text : List UInt8)
    (hbuff : buff < 2 ^ 64) (hn : buff + n ≤ 2 ^ 64) (hnull : n ≠ 0 → buff ≠ 0)
    (houtput : output fmt arp = .ok text) (hlength : text.length < 2 ^ 31) :
    Truncates buff n fmt arp text.length ↔
      if n = 0 then buff + text.length ≤ 2 ^ 64 + 1 else buff + text.length < 2 ^ 64 := by
  by_cases hpos : n = 0
  · subst hpos
    rw [if_pos rfl]
    constructor
    · intro htruncates
      by_contra hwrapped
      obtain ⟨c, hc⟩ := memory_empty_wrapped hbuff hlength (Nat.lt_of_not_le hwrapped)
      obtain ⟨m', hm', hframe, -⟩ := htruncates fun _ => c + 1
      rw [vsnprintf_empty hbuff houtput hlength] at hm'
      have hstored := hc fun _ => c + 1
      rw [(Prod.mk.inj (Except.ok.inj hm')).2, hframe 1 (by omega)] at hstored
      simp at hstored
    · intro hfits m
      refine ⟨_, vsnprintf_empty hbuff houtput hlength, fun a _ => ?_, fun h => absurd rfl h⟩
      rw [memory_empty hbuff hfits]
  · rw [if_neg hpos]
    constructor
    · intro htruncates
      by_contra hwrapped
      have hfront := zeroAt_wrapped (n := n) hbuff hlength (Nat.le_of_not_lt hwrapped)
      obtain ⟨m', hm', hframe, -⟩ := htruncates fun _ => 1
      rw [vsnprintf_buffer hbuff houtput hlength (hnull hpos) hn hpos] at hm'
      have hzero := hframe _ (.inl hfront)
      rw [← (Prod.mk.inj (Except.ok.inj hm')).2, Memory.store_singleton_self] at hzero
      exact absurd hzero (by decide)
    · exact truncates_of_fits hbuff hn (hnull hpos) hpos houtput hlength

/-- Three characters for a buffer of two bytes. -/
theorem truncates_abc : Truncates 16 2 (("abc".toList).map ascii) [] 3 :=
  (truncates_iff 16 2 (("abc".toList).map ascii) [] (("abc".toList).map ascii) (by decide)
    (by decide) (by decide) (by decide) (by decide)).mpr (by decide)

/-- Without a buffer, but with a pointer to the last byte of the address space, the third character
is stored at address one. -/
theorem truncates_without_buffer :
    output (("abc".toList).map ascii) [] = .ok (("abc".toList).map ascii) ∧
      (vsnprintf (fun _ => 0) (2 ^ 64 - 1) 0 (("abc".toList).map ascii) []).toOption.map
        (fun r => (r.1, r.2 1)) = some (3, ascii 'c') ∧
      ¬Truncates (2 ^ 64 - 1) 0 (("abc".toList).map ascii) [] 3 := by
  have hstored : (vsnprintf (fun _ => 0) (2 ^ 64 - 1) 0 (("abc".toList).map ascii) []).toOption.map
      (fun r => (r.1, r.2 1)) = some (3, ascii 'c') := by decide
  refine ⟨by decide, hstored, fun h => ?_⟩
  obtain ⟨m', hrun, hframe, -⟩ := h fun _ => 0
  rw [hrun] at hstored
  have hbyte : m' 1 = ascii 'c' := (Prod.mk.inj (Option.some.inj hstored)).2
  exact absurd (hbyte.symm.trans (hframe 1 (.inl (by decide)))) (by decide)

end Toyos.Printf
