import Toyos.Core.Checked
import Toyos.Core.Overwrite
import Toyos.Core.Word

/-!
# Shadow registers

A shadow register is written through buffers of one, two, four or eight bytes at an
offset, and is read back in the same way. The check in front of a read compares in
the wrong direction, and the shortcut for reads of the whole register goes on to the
ordinary read; what is left are reads of the whole register.
-/

namespace Toyos.Util

open Toyos.Core

namespace BufferView

/-- Reasons for stopping. -/
inductive Fault where
  /-- A failed assertion. -/
  | assertion
  /-- A size that is not supported. -/
  | panic
  /-- An access behind the end of a buffer. -/
  | outOfBounds
  deriving DecidableEq, Repr

variable {sz k : ℕ}

/-- The byte that a value stored at an offset has at a position. -/
def written (val : Vector UInt8 k) (offset i : ℕ) : Option UInt8 :=
  if offset ≤ i then val[i - offset]? else none

/-- The bytes of a buffer with a value stored at an offset. -/
def overlay (buf : Vector UInt8 sz) (val : Vector UInt8 k) (offset : ℕ) : Vector UInt8 sz :=
  buf.mapIdx fun i b => (written val offset i).getD b

/-- Read a value of `k` bytes. -/
def read (buf : Vector UInt8 sz) (k offset : ℕ) : Except Fault (Vector UInt8 k) := do
  ensure (wrap (k + offset) ≤ sz) Fault.assertion
  if h : offset + k ≤ sz then
    return .ofFn fun i => buf[offset + i]
  else throw .outOfBounds

/-- Write a value of `k` bytes. -/
def write (buf : Vector UInt8 sz) (val : Vector UInt8 k) (offset : ℕ) :
    Except Fault (Vector UInt8 sz) := do
  ensure (wrap (k + offset) ≤ sz) Fault.assertion
  if offset + k ≤ sz then return overlay buf val offset
  else throw .outOfBounds

theorem getElem_overlay (buf : Vector UInt8 sz) (val : Vector UInt8 k) (offset : ℕ) {i : ℕ}
    (hi : i < sz) : (overlay buf val offset)[i] = (written val offset i).getD buf[i] :=
  Vector.getElem_mapIdx ..

theorem written_of_outside {val : Vector UInt8 k} {offset i : ℕ}
    (h : i < offset ∨ offset + k ≤ i) : written val offset i = none := by
  rw [written]
  split_ifs with hle
  · exact Vector.getElem?_eq_none (by omega)
  · rfl

/-- A value that is as long as the buffer replaces it. -/
theorem overlay_whole (buf val : Vector UInt8 sz) : overlay buf val 0 = val := by
  ext i hi
  rw [getElem_overlay _ _ _ hi, written, if_pos (Nat.zero_le i), Nat.sub_zero,
    Vector.getElem?_eq_getElem hi, Option.getD_some]

/-- A read inside of a buffer. -/
theorem read_eq_ok {buf : Vector UInt8 sz} {offset : ℕ} (hsize : sz < 2 ^ 64)
    (h : offset + k ≤ sz) : read buf k offset = .ok (.ofFn fun i => buf[offset + i]) := by
  rw [read, ensure_of _ (by rw [wrap_of_lt (by omega)]; omega), ok_bind, dif_pos h]
  rfl

/-- A read of the whole buffer. -/
theorem read_whole {buf : Vector UInt8 sz} (hsize : sz < 2 ^ 64) : read buf sz 0 = .ok buf := by
  rw [read_eq_ok hsize (by omega)]
  congr 1
  ext i hi
  simp

/-- A write inside of a buffer. -/
theorem write_eq_ok {buf : Vector UInt8 sz} {val : Vector UInt8 k} {offset : ℕ}
    (hsize : sz < 2 ^ 64) (h : offset + k ≤ sz) :
    write buf val offset = .ok (overlay buf val offset) := by
  rw [write, ensure_of _ (by rw [wrap_of_lt (by omega)]; omega), ok_bind, if_pos h]
  rfl

/-- A value that is longer than the buffer is refused. -/
theorem write_of_lt {buf : Vector UInt8 sz} {val : Vector UInt8 k} (hk : k < 2 ^ 64)
    (h : sz < k) : write buf val 0 = .error .assertion := by
  rw [write, ensure_not _ (by rw [Nat.add_zero, wrap_of_lt hk]; omega)]
  rfl

end BufferView

open BufferView

/-- The sizes of accesses and of registers. -/
def accessSizes : List ℕ := [1, 2, 4, 8]

/-- A shadow register of `w` bytes. -/
structure ShadowReg (w : ℕ) where
  /-- The bytes of the register. -/
  shadow : Vector UInt8 w
  deriving DecidableEq

namespace ShadowReg

variable {w n : ℕ}

/-- A new shadow register. -/
def init (w : ℕ) : ShadowReg w := ⟨.replicate w 0⟩

/-- Read from the shadow into a buffer. -/
def read (s : ShadowReg w) (buf : Vector UInt8 n) (offset : ℕ) :
    Except Fault (Vector UInt8 n) := do
  ensure (w ≤ wrap (n + offset)) Fault.assertion
  let buf ← if w = wrap (n + offset) then write buf s.shadow 0 else pure buf
  ensure (n ∈ accessSizes) Fault.panic
  write buf (← BufferView.read s.shadow n offset) 0

/-- Write from a buffer to the shadow. -/
def setShadow (s : ShadowReg w) (buf : Vector UInt8 n) (offset : ℕ) :
    Except Fault (ShadowReg w) := do
  ensure (w ≥ wrap (n + offset)) Fault.assertion
  if w = n then return ⟨← BufferView.read buf w 0⟩
  else
    ensure (n ∈ accessSizes) Fault.panic
    return ⟨← write s.shadow (← BufferView.read buf n 0) offset⟩

/-- An access of a supported size inside of a register. -/
structure Access (w : ℕ) where
  /-- The number of bytes. -/
  size : ℕ
  /-- The buffer. -/
  buf : Vector UInt8 size
  /-- Where the access begins. -/
  offset : ℕ
  /-- The size is supported. -/
  size_mem : size ∈ accessSizes
  /-- The access ends inside of the register. -/
  fits : offset + size ≤ w

/-- A write with the bytes of an access. -/
def store (s : ShadowReg w) (a : Access w) : ShadowReg w := ⟨overlay s.shadow a.buf a.offset⟩

/-- A sequence of writes. -/
def setShadows (s : ShadowReg w) (as : List (Access w)) : Except Fault (ShadowReg w) :=
  as.foldlM (fun s a => s.setShadow a.buf a.offset) s

/-- The byte last written at a position; bytes are zero initially. -/
def lastByte (as : List (Access w)) (i : ℕ) : UInt8 :=
  (lastWrite (fun a => written a.buf a.offset i) as).getD 0

theorem lt_of_mem_accessSizes (h : n ∈ accessSizes) : n < 2 ^ 64 := by
  have hall : ∀ n ∈ accessSizes, n < 2 ^ 64 := by decide
  exact hall n h

variable {s : ShadowReg w} {a : Access w} {as : List (Access w)}

/-- A write inside of the register stores its bytes. -/
theorem setShadow_eq_ok (hw : w ∈ accessSizes) :
    s.setShadow a.buf a.offset = .ok (s.store a) := by
  obtain ⟨size, buf, offset, hsize, hfits⟩ := a
  have hlt := lt_of_mem_accessSizes hw
  dsimp only at hfits hsize ⊢
  rw [setShadow, ensure_of _ (by rw [wrap_of_lt (by omega)]; omega), ok_bind]
  by_cases hwhole : w = size
  · subst hwhole
    obtain rfl : offset = 0 := by omega
    rw [if_pos rfl, read_whole hlt, store, overlay_whole]
    rfl
  · rw [if_neg hwhole, ensure_of _ hsize, ok_bind, read_whole (by omega), ok_bind,
      write_eq_ok hlt hfits]
    rfl

/-- All writes succeed. -/
theorem setShadows_eq_ok (hw : w ∈ accessSizes) (s : ShadowReg w) (as : List (Access w)) :
    s.setShadows as = .ok (as.foldl store s) := by
  have hstep : ∀ (r s : ShadowReg w) (a : Access w), r = s →
      ∃ s', s.setShadow a.buf a.offset = .ok s' ∧ r.store a = s' := by
    rintro r _ a rfl
    exact ⟨_, setShadow_eq_ok hw, rfl⟩
  obtain ⟨s', hs', rfl⟩ := foldlM_refines (· = ·) hstep as (rfl : s = s)
  exact hs'

/-- A write changes only its own bytes. -/
theorem getElem_store {i : ℕ} (hi : i < w) :
    (s.store a).shadow[i] = (written a.buf a.offset i).getD s.shadow[i] :=
  getElem_overlay s.shadow a.buf a.offset hi

theorem store_overwrites {i : ℕ} (hi : i < w) :
    Overwrites store (fun s : ShadowReg w => s.shadow[i])
      (fun a => written a.buf a.offset i) :=
  fun _ _ => getElem_store hi

/-- After any writes the register holds the bytes last written. -/
theorem getElem_foldl_store {i : ℕ} (hi : i < w) :
    (as.foldl store (init w)).shadow[i] = lastByte as i := by
  rw [(store_overwrites hi).foldl_eq, lastByte, init, Vector.getElem_replicate]

/-- A read of the whole register gives its bytes. -/
theorem read_whole_eq_ok (hw : w ∈ accessSizes) (s : ShadowReg w) (buf : Vector UInt8 w) :
    s.read buf 0 = .ok s.shadow := by
  have hlt := lt_of_mem_accessSizes hw
  rw [read, Nat.add_zero, wrap_of_lt hlt, ensure_of _ (Nat.le_refl w), ok_bind, if_pos rfl,
    write_eq_ok hlt (by omega), ensure_of _ hw]
  dsimp only [ok_bind]
  rw [BufferView.read_whole hlt, ok_bind, write_eq_ok hlt (by omega), overlay_whole]

/-- A read of a part of the register fails at an assertion: in front of the last byte at the one
of the read, else at the one of the buffer. -/
theorem read_part_eq_error (hw : w ∈ accessSizes) (s : ShadowReg w) (buf : Vector UInt8 n)
    {offset : ℕ} (hfits : offset + n ≤ w) (hpart : n < w) :
    s.read buf offset = .error .assertion := by
  have hlt := lt_of_mem_accessSizes hw
  rw [read, wrap_of_lt (by omega)]
  by_cases hlast : w = n + offset
  · rw [ensure_of _ (Nat.le_of_eq hlast), ok_bind, if_pos hlast, write_of_lt hlt hpart]
    rfl
  · rw [ensure_not _ (by omega)]
    rfl

end ShadowReg

open ShadowReg

/-- Writes inside of a register succeed and change their own bytes only, and a read inside of the
register gives the bytes last written exactly if it reads the whole register. -/
theorem shadow_storage_iff {w : ℕ} (hw : w ∈ accessSizes) (as : List (Access w)) (a : Access w) :
    (∀ before b after, as = before ++ b :: after → ∃ s s', (init w).setShadows before = .ok s ∧
      s.setShadow b.buf b.offset = .ok s' ∧ ∀ i (_ : i < w),
        i < b.offset ∨ b.offset + b.size ≤ i → s'.shadow[i] = s.shadow[i]) ∧
    ((∃ s, (init w).setShadows as = .ok s ∧
      s.read a.buf a.offset = .ok (.ofFn fun i => lastByte as (a.offset + i))) ↔ a.size = w) := by
  constructor
  · intro before b after _
    refine ⟨_, _, setShadows_eq_ok hw _ before, setShadow_eq_ok hw, fun i hi houtside => ?_⟩
    rw [getElem_store hi, written_of_outside houtside, Option.getD_none]
  · rw [setShadows_eq_ok hw]
    obtain ⟨size, buf, offset, hsize, hfits⟩ := a
    dsimp only at hfits ⊢
    constructor
    · rintro ⟨s, -, hread⟩
      by_contra hpart
      rw [read_part_eq_error hw s buf hfits (by omega)] at hread
      cases hread
    · rintro rfl
      obtain rfl : offset = 0 := by omega
      refine ⟨_, rfl, ?_⟩
      rw [read_whole_eq_ok hw]
      congr 1
      ext i hi
      rw [getElem_foldl_store hi, Vector.getElem_ofFn, Nat.zero_add]

/-- A register of four bytes, read after a write of its second byte. -/
theorem shadow_storage_four :
    ∃ s, (init 4).setShadows [⟨1, #v[7], 1, by decide, by decide⟩] = .ok s ∧
      s.read (.replicate 4 0) 0 = .ok #v[0, 7, 0, 0] := by
  have h := shadow_storage_iff (w := 4) (by decide) [⟨1, #v[7], 1, by decide, by decide⟩]
    ⟨4, .replicate 4 0, 0, by decide, by decide⟩
  exact h.2.mpr rfl

/-- The first byte of a register of four bytes cannot be read. -/
theorem shadow_byte_unreadable :
    (init 4).read (.replicate 1 0 : Vector UInt8 1) 0 = .error .assertion := by decide

end Toyos.Util
