import Toyos.Core.Memory
import Toyos.Core.LittleEndian
import Mathlib.Data.BitVec

/-!
# Words in byte memory

A word of 64 bits occupies eight bytes of memory, least significant byte first.
Words that do not overlap are independent of each other.
-/

namespace Toyos.Core.Memory

/-- The word at an address. -/
def word (m : Memory) (addr : ℕ) : BitVec 64 := BitVec.ofNat 64 (leNat (m.load addr 8))

/-- Store a word at an address. -/
def setWord (m : Memory) (addr : ℕ) (v : BitVec 64) : Memory := m.store addr (leBytes 8 v.toNat)

variable {m m' : Memory} {addr a : ℕ} {v : BitVec 64}

/-- A word depends on its eight bytes only. -/
theorem word_congr (h : ∀ a, addr ≤ a → a < addr + 8 → m' a = m a) :
    m'.word addr = m.word addr := by
  have hload : m'.load addr 8 = m.load addr 8 := by
    refine List.map_congr_left fun i hi => h _ (by omega) ?_
    have := List.mem_range.mp hi
    omega
  rw [word, hload, word]

@[simp] theorem word_setWord : (m.setWord addr v).word addr = v := by
  have hlt : v.toNat < 256 ^ 8 := v.isLt
  rw [word, setWord, load_store (by simp), List.take_of_length_le (by simp), leNat_leBytes,
    Nat.mod_eq_of_lt hlt, BitVec.ofNat_toNat, BitVec.setWidth_eq]

/-- Bytes outside a stored word are as before. -/
theorem setWord_of_outside (h : a < addr ∨ addr + 8 ≤ a) : m.setWord addr v a = m a :=
  store_of_outside (by simpa using h)

/-- Other words are as before. -/
theorem word_setWord_of_apart (h : a + 8 ≤ addr ∨ addr + 8 ≤ a) :
    (m.setWord addr v).word a = m.word a :=
  word_congr fun _ _ _ => setWord_of_outside (by omega)

/-- The memories agree outside a range. -/
def SameOutside (m m' : Memory) (lo hi : ℕ) : Prop := ∀ a, a < lo ∨ hi ≤ a → m' a = m a

namespace SameOutside

variable {m'' : Memory} {lo hi lo' hi' : ℕ}

theorem trans (h : SameOutside m m' lo hi) (h' : SameOutside m' m'' lo hi) :
    SameOutside m m'' lo hi := fun a ha => (h' a ha).trans (h a ha)

theorem mono (h : SameOutside m m' lo hi) (hlo : lo' ≤ lo) (hhi : hi ≤ hi') :
    SameOutside m m' lo' hi' := fun a ha => h a (by omega)

theorem setWord : SameOutside m (m.setWord addr v) addr (addr + 8) :=
  fun _ ha => setWord_of_outside ha

end SameOutside

end Toyos.Core.Memory
