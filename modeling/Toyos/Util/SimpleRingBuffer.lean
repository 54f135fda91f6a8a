import Toyos.Core.Vec
import Toyos.Core.Word
import Mathlib.Data.List.DropRight
import Mathlib.Data.List.Rotate

/-!
# A simple ring buffer

Elements are added until the buffer is full, and from then on each one replaces the
oldest. Read from the oldest element on, the buffer holds the newest elements that
fit, followed by default elements.
-/

namespace Toyos.Util

open Toyos.Core

/-- A ring buffer. -/
structure SimpleRingBuffer (T : Type) where
  /-- The number of places. -/
  maxEntries : ℕ
  /-- The places. -/
  queue : List T
  /-- The number of elements added, up to the number of places. -/
  numElems : ℕ
  /-- The place of the oldest element. -/
  start : ℕ
  deriving DecidableEq, Repr

namespace SimpleRingBuffer

/-- Reasons for stopping. -/
inductive Fault where
  /-- A failed assertion. -/
  | assertion
  /-- An index outside the vector. -/
  | outOfRange
  deriving DecidableEq, Repr

variable {T : Type}

/-- A buffer with a number of places. -/
def construct [Inhabited T] (maxEntries : ℕ) : Except Fault (SimpleRingBuffer T) := do
  ensure (0 < maxEntries) Fault.assertion
  return ⟨maxEntries, List.replicate maxEntries default, 0, 0⟩

/-- Add an element. -/
def add (b : SimpleRingBuffer T) (msg : T) : Except Fault (SimpleRingBuffer T) := do
  if b.numElems = b.maxEntries then
    let queue ← Vec.modify Fault.outOfRange b.queue b.start fun _ => msg
    return { b with queue := queue, start := wrap (b.start + 1) % b.maxEntries }
  else
    let pos := wrap (b.start + b.numElems) % b.maxEntries
    let queue ← Vec.modify Fault.outOfRange b.queue pos fun _ => msg
    return { b with queue := queue, numElems := wrap (b.numElems + 1) }

/-- The element at an index, counted from the oldest one. -/
def «at» (b : SimpleRingBuffer T) (i : ℕ) : Except Fault T :=
  let realIdx := wrap (b.start + i) % b.maxEntries
  Vec.deref Fault.outOfRange b.queue realIdx

/-- Remove all elements. -/
def flush [Inhabited T] (b : SimpleRingBuffer T) : SimpleRingBuffer T :=
  { b with queue := b.queue.map fun _ => default, numElems := 0, start := 0 }

/-- The calls that change a buffer. -/
inductive Call (T : Type) where
  | add (msg : T)
  | flush
  deriving DecidableEq, Repr

/-- A call. -/
def exec [Inhabited T] (b : SimpleRingBuffer T) : Call T → Except Fault (SimpleRingBuffer T)
  | .add msg => b.add msg
  | .flush => .ok b.flush

/-- The elements added since the last flush, after one more call. -/
def Call.addTo (xs : List T) : Call T → List T
  | .add msg => xs ++ [msg]
  | .flush => []

/-- The elements added since the last flush of a sequence of calls. -/
def added (calls : List (Call T)) : List T := calls.foldl Call.addTo []

/-- The places from the oldest element on. -/
def contents (b : SimpleRingBuffer T) : List T := b.queue.rotate b.start

/-- A buffer holds the newest of some elements, as many as there is room for. -/
structure Holds [Inhabited T] (n : ℕ) (xs : List T) (b : SimpleRingBuffer T) : Prop where
  /-- The number of places. -/
  maxEntries_eq : b.maxEntries = n
  /-- There are as many places as there should be. -/
  length_queue : b.queue.length = n
  /-- The number of elements. -/
  numElems_eq : b.numElems = min xs.length n
  /-- The oldest element is in one of the places. -/
  start_lt : b.start < n
  /-- The oldest element is in the first place until the buffer is full. -/
  start_eq : b.numElems < n → b.start = 0
  /-- The newest elements come first, and default elements fill the rest. -/
  contents_eq : b.contents = xs.rtake n ++ List.replicate (n - xs.length) default

section Places

variable {n k : ℕ} {l : List T} {msg : T}

theorem modify_natCast (h : k < l.length) :
    Vec.modify Fault.outOfRange l (k : ℤ) (fun _ => msg) = .ok (l.set k msg) := by
  rw [Vec.modify, Vec.deref_natCast _ h, ok_bind, Int.toNat_natCast]
  rfl

/-- Replacing the first element of a rotated list and rotating further puts the new element
last. -/
theorem rotate_set_succ (h : k < l.length) :
    (l.set k msg).rotate (k + 1) = (l.rotate k).tail ++ [msg] := by
  have hlength : k + 1 ≤ (l.set k msg).length := by
    rw [List.length_set]
    exact h
  rw [List.rotate_eq_drop_append_take hlength, List.rotate_eq_drop_append_take h.le,
    List.drop_set_of_lt (Nat.lt_succ_self k), List.take_add_one, List.take_set_of_le le_rfl,
    List.drop_eq_getElem_cons h]
  simp [h]

/-- One more element displaces the oldest of the newest ones. -/
theorem rtake_concat {xs : List T} (hn : 0 < n) (h : n ≤ xs.length) :
    (xs ++ [msg]).rtake n = (xs.rtake n).tail ++ [msg] := by
  rw [List.rtake, List.rtake, List.length_append, List.length_singleton, List.tail_drop,
    show xs.length + 1 - n = xs.length - n + 1 by omega, List.drop_append_of_le_length (by omega)]

theorem rtake_of_le {xs : List T} (h : xs.length ≤ n) : xs.rtake n = xs := by
  rw [List.rtake, Nat.sub_eq_zero_of_le h, List.drop_zero]

end Places

section Steps

variable [Inhabited T] {n i : ℕ} {xs : List T} {b : SimpleRingBuffer T} {msg : T}

/-- Indexes are counted from the oldest element on. -/
theorem Holds.at_eq (h : Holds n xs b) (hi : i < b.contents.length)
    (hfits : b.start + i < 2 ^ 64) : b.at i = .ok b.contents[i] := by
  have hlt : (b.start + i) % b.maxEntries < b.queue.length := by
    rw [h.length_queue, h.maxEntries_eq]
    exact Nat.mod_lt _ (Nat.zero_lt_of_lt h.start_lt)
  rw [SimpleRingBuffer.at, wrap_of_lt hfits, Vec.deref_natCast _ hlt]
  simp only [contents, List.getElem_rotate, Nat.add_comm i, h.length_queue, h.maxEntries_eq]

/-- An element that is added to a full buffer replaces the oldest one. -/
theorem Holds.add_full (h : Holds n xs b) (hn : n < 2 ^ 64) (hfull : n ≤ xs.length) :
    ∃ b', b.add msg = .ok b' ∧ Holds n (xs ++ [msg]) b' := by
  have hpos : 0 < n := Nat.zero_lt_of_lt h.start_lt
  have hnum : b.numElems = b.maxEntries := by
    rw [h.numElems_eq, h.maxEntries_eq, Nat.min_eq_right hfull]
  have hstart : b.start < b.queue.length := by
    rw [h.length_queue]
    exact h.start_lt
  have hlt := h.start_lt
  rw [add, if_pos hnum, modify_natCast hstart, ok_bind]
  refine ⟨_, rfl, h.maxEntries_eq, ?_, ?_, ?_, ?_, ?_⟩
  · rw [List.length_set, h.length_queue]
  · dsimp only
    rw [h.numElems_eq, List.length_append, List.length_singleton]
    omega
  · dsimp only
    rw [h.maxEntries_eq]
    exact Nat.mod_lt _ hpos
  · intro hroom
    dsimp only at hroom
    rw [h.numElems_eq] at hroom
    omega
  · have hcontents := h.contents_eq
    rw [show n - xs.length = 0 by omega, List.replicate_zero, List.append_nil] at hcontents
    rw [contents, wrap_of_lt (by omega), h.maxEntries_eq, ← h.length_queue,
      ← List.length_set (i := b.start) (a := msg), List.rotate_mod, rotate_set_succ hstart,
      List.length_set, h.length_queue, rtake_concat hpos hfull, ← hcontents, contents]
    simp [Nat.sub_eq_zero_of_le (hfull.trans (Nat.le_succ _))]

/-- An element that is added to a buffer with room takes the first free place. -/
theorem Holds.add_room (h : Holds n xs b) (hn : n < 2 ^ 64) (hroom : xs.length < n) :
    ∃ b', b.add msg = .ok b' ∧ Holds n (xs ++ [msg]) b' := by
  have hnum : b.numElems = xs.length := by
    rw [h.numElems_eq, Nat.min_eq_left hroom.le]
  have hstart : b.start = 0 := h.start_eq (by rw [hnum]; exact hroom)
  have hpos : xs.length < b.queue.length := by
    rw [h.length_queue]
    exact hroom
  have hplace : wrap (b.start + b.numElems) % b.maxEntries = xs.length := by
    rw [hstart, hnum, Nat.zero_add, wrap_of_lt (by omega), h.maxEntries_eq, Nat.mod_eq_of_lt hroom]
  have hqueue : b.queue = xs ++ List.replicate (n - xs.length) default := by
    have hcontents := h.contents_eq
    rwa [contents, hstart, List.rotate_zero, rtake_of_le hroom.le] at hcontents
  rw [add, if_neg (by rw [hnum, h.maxEntries_eq]; exact hroom.ne)]
  dsimp only
  rw [hplace, modify_natCast hpos, ok_bind]
  refine ⟨_, rfl, h.maxEntries_eq, ?_, ?_, h.start_lt, fun _ => hstart, ?_⟩
  · rw [List.length_set, h.length_queue]
  · dsimp only
    rw [hnum, wrap_of_lt (by omega), List.length_append, List.length_singleton]
    omega
  · have hfree : List.replicate (n - xs.length) (default : T) =
        default :: List.replicate (n - (xs.length + 1)) default := by
      rw [show n - xs.length = n - (xs.length + 1) + 1 by omega, List.replicate_succ]
    have hlength : (xs ++ [msg]).length ≤ n := by
      rw [List.length_append, List.length_singleton]
      exact hroom
    rw [contents, hstart, List.rotate_zero, hqueue, hfree, rtake_of_le hlength]
    simp

/-- An element that is added displaces the oldest one if there is no room for it. -/
theorem Holds.add (h : Holds n xs b) (hn : n < 2 ^ 64) :
    ∃ b', b.add msg = .ok b' ∧ Holds n (xs ++ [msg]) b' := by
  rcases Nat.lt_or_ge xs.length n with hroom | hfull
  · exact h.add_room hn hroom
  · exact h.add_full hn hfull

theorem Holds.flush (h : Holds n xs b) : Holds n [] b.flush := by
  have hpos : 0 < n := Nat.zero_lt_of_lt h.start_lt
  refine ⟨h.maxEntries_eq, ?_, ?_, hpos, fun _ => rfl, ?_⟩
  · rw [SimpleRingBuffer.flush, List.length_map, h.length_queue]
  · simp [SimpleRingBuffer.flush]
  · simp [SimpleRingBuffer.flush, contents, h.length_queue, List.map_const', List.rtake]

/-- A call keeps the newest elements. -/
theorem Holds.exec (h : Holds n xs b) (hn : n < 2 ^ 64) (call : Call T) :
    ∃ b', b.exec call = .ok b' ∧ Holds n (call.addTo xs) b' := by
  cases call with
  | add msg => exact h.add hn
  | flush => exact ⟨_, rfl, h.flush⟩

theorem construct_holds (hn : 0 < n) :
    ∃ b : SimpleRingBuffer T, construct n = .ok b ∧ Holds n [] b := by
  rw [construct, ensure_of _ hn, ok_bind]
  refine ⟨_, rfl, rfl, List.length_replicate, ?_, hn, fun _ => rfl, ?_⟩
  · simp
  · simp [contents, List.rtake]

end Steps

/-- A buffer after a sequence of calls. -/
def run [Inhabited T] (n : ℕ) (calls : List (Call T)) : Except Fault (SimpleRingBuffer T) := do
  let b ← construct n
  calls.foldlM exec b

/-- After every sequence of calls the newest elements that fit are found in the order in which they
were added, and default elements at the other indexes. -/
theorem newest_in_order [Inhabited T] (n : ℕ) (hpos : 0 < n) (hn : n < 2 ^ 64)
    (calls : List (Call T)) :
    ∃ b, run n calls = .ok b ∧
      ((added calls).rtake n).length = min (added calls).length n ∧
      (∀ i x, ((added calls).rtake n)[i]? = some x → b.start + i < 2 ^ 64 → b.at i = .ok x) ∧
      ∀ i, min (added calls).length n ≤ i → i < n → b.start + i < 2 ^ 64 →
        b.at i = .ok default := by
  obtain ⟨b₀, hconstruct, h₀⟩ := construct_holds (T := T) hpos
  obtain ⟨b, hrun, h⟩ := foldlM_refines (Holds n) (fun _ _ c h => h.exec hn c) calls h₀
  rw [← added] at h
  have hlength : ((added calls).rtake n).length = min (added calls).length n := by
    rw [List.rtake, List.length_drop]
    omega
  have hat {i : ℕ} {x : T} (hx : b.contents[i]? = some x) (hfits : b.start + i < 2 ^ 64) :
      b.at i = .ok x := by
    obtain ⟨hi, rfl⟩ := List.getElem?_eq_some_iff.mp hx
    exact h.at_eq hi hfits
  rw [h.contents_eq] at hat
  refine ⟨b, ?_, hlength, ?_, ?_⟩
  · rw [run, hconstruct, ok_bind, hrun]
  · intro i x hx hfits
    refine hat ?_ hfits
    rw [List.getElem?_append_left (List.getElem?_eq_some_iff.mp hx).1, hx]
  · intro i hle hi hfits
    refine hat ?_ hfits
    rw [List.getElem?_append_right (hlength.trans_le hle), List.getElem?_replicate, hlength,
      if_pos (by omega)]

/-- Three elements in a buffer with two places. -/
theorem newest_in_order_two : ∃ b, run 2 [.add 1, .add 2, .add 3] = .ok b ∧
    b.at 0 = .ok 2 ∧ b.at 1 = .ok 3 := by
  obtain ⟨b, hrun, -, hnewest, -⟩ :=
    newest_in_order 2 (by decide) (by decide) [Call.add 1, .add 2, .add 3]
  have hb : run 2 [Call.add 1, .add 2, .add 3] = .ok ⟨2, [3, 2], 2, 1⟩ := rfl
  obtain rfl := ok_unique hrun hb
  exact ⟨_, hrun, hnewest 0 2 rfl (by decide), hnewest 1 3 rfl (by decide)⟩

end SimpleRingBuffer

end Toyos.Util
