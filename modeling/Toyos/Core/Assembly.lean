import Toyos.Core.Cell
import Mathlib.Logic.Function.Basic
import Mathlib.Data.List.Basic

/-!
# Saving registers on a stack

Instructions of an x86-64 processor that move words between registers and a stack
in memory. Registers that are pushed one after the other are found in memory in the
opposite order, and popping them in the opposite order brings them back.
-/

namespace Toyos.Core.Assembly

/-- The general registers. -/
inductive Reg
  | rax
  | rbx
  | rcx
  | rdx
  | rbp
  | rsi
  | rdi
  | r8
  | r9
  | r10
  | r11
  | r12
  | r13
  | r14
  | r15
  | rsp
  deriving DecidableEq, Repr

/-- The general registers and the memory of a processor. -/
@[ext]
structure Cpu where
  /-- The registers. -/
  reg : Reg → BitVec 64
  /-- The memory. -/
  mem : Memory

/-- Instructions. -/
inductive Instr
  /-- Push a register. -/
  | push (r : Reg)
  /-- Push a constant. -/
  | pushImm (v : BitVec 64)
  /-- Pop a register. -/
  | pop (r : Reg)
  /-- Copy a register. -/
  | mov (src dst : Reg)
  /-- Load a word at an offset from a base register. -/
  | load (offset : BitVec 64) (base dst : Reg)
  /-- Mask a register. -/
  | andImm (v : BitVec 64) (r : Reg)
  /-- Add to a register. -/
  | addImm (v : BitVec 64) (r : Reg)
  deriving DecidableEq, Repr

namespace Cpu

/-- Set a register. -/
def set (c : Cpu) (r : Reg) (v : BitVec 64) : Cpu := { c with reg := Function.update c.reg r v }

@[simp] theorem reg_set_self (c : Cpu) (r : Reg) (v : BitVec 64) : (c.set r v).reg r = v := by
  simp only [set, Function.update_self]

@[simp] theorem reg_set_of_ne (c : Cpu) {r r' : Reg} (h : r' ≠ r) (v : BitVec 64) :
    (c.set r v).reg r' = c.reg r' := by simp only [set, Function.update_of_ne h]

@[simp] theorem set_set (c : Cpu) (r : Reg) (v w : BitVec 64) :
    (c.set r v).set r w = c.set r w := by simp only [set, Function.update_idem]

@[simp] theorem mem_set (c : Cpu) (r : Reg) (v : BitVec 64) : (c.set r v).mem = c.mem := rfl

/-- The word at an address. -/
def word (c : Cpu) (addr : BitVec 64) : BitVec 64 := c.mem.word addr.toNat

@[simp] theorem word_set (c : Cpu) (r : Reg) (v : BitVec 64) (addr : BitVec 64) :
    (c.set r v).word addr = c.word addr := rfl

/-- Push a word. -/
def push (c : Cpu) (v : BitVec 64) : Cpu where
  reg := Function.update c.reg .rsp (c.reg .rsp - 8#64)
  mem := c.mem.setWord (c.reg .rsp - 8#64).toNat v

/-- Pop a register. -/
def pop (c : Cpu) (r : Reg) : Cpu :=
  (c.set .rsp (c.reg .rsp + 8#64)).set r (c.word (c.reg .rsp))

/-- The effect of an instruction. -/
def step (c : Cpu) : Instr → Cpu
  | .push r => c.push (c.reg r)
  | .pushImm v => c.push v
  | .pop r => c.pop r
  | .mov src dst => c.set dst (c.reg src)
  | .load offset base dst => c.set dst (c.word (c.reg base + offset))
  | .andImm v r => c.set r (c.reg r &&& v)
  | .addImm v r => c.set r (c.reg r + v)

/-- The effect of instructions one after the other. -/
def exec (c : Cpu) (is : List Instr) : Cpu := is.foldl step c

/-- Push words one after the other. -/
def pushAll (c : Cpu) (vs : List (BitVec 64)) : Cpu := vs.foldl push c

@[simp] theorem exec_nil (c : Cpu) : c.exec [] = c := rfl

theorem exec_cons (c : Cpu) (i : Instr) (is : List Instr) : c.exec (i :: is) = (c.step i).exec is :=
  rfl

theorem exec_append (c : Cpu) (is js : List Instr) : c.exec (is ++ js) = (c.exec is).exec js :=
  List.foldl_append

theorem pushAll_append (c : Cpu) (vs ws : List (BitVec 64)) :
    c.pushAll (vs ++ ws) = (c.pushAll vs).pushAll ws := List.foldl_append

end Cpu

/-- Some words in memory, from the lowest on. -/
def words (m : Memory) (addr : ℕ) : (count : ℕ) → List (BitVec 64)
  | 0 => []
  | count + 1 => m.word addr :: words m (addr + 8) count

theorem words_congr {m m' : Memory} {addr count : ℕ}
    (h : ∀ a, addr ≤ a → a < addr + 8 * count → m' a = m a) :
    words m' addr count = words m addr count := by
  induction count generalizing addr with
  | zero => rfl
  | succ count ih =>
    rw [words, words, Memory.word_congr fun a hlo hhi => h a hlo (by omega),
      ih fun a hlo hhi => h a (by omega) (by omega)]

/-- Words up to the last one. -/
theorem words_succ (m : Memory) (addr count : ℕ) :
    words m addr (count + 1) = words m addr count ++ [m.word (addr + 8 * count)] := by
  induction count generalizing addr with
  | zero => rfl
  | succ count ih =>
    rw [words, ih, words, List.cons_append,
      show addr + 8 + 8 * count = addr + 8 * (count + 1) by omega]

section Push

variable {c : Cpu} {vs : List (BitVec 64)}

theorem reg_pushAll : (c.pushAll vs).reg =
    Function.update c.reg .rsp (c.reg .rsp - BitVec.ofNat 64 (8 * vs.length)) := by
  induction vs generalizing c with
  | nil => simp [Cpu.pushAll]
  | cons v vs ih =>
    rw [Cpu.pushAll, List.foldl_cons, ← Cpu.pushAll, ih, Cpu.push]
    have hsub : c.reg .rsp - 8#64 - BitVec.ofNat 64 (8 * vs.length) =
        c.reg .rsp - BitVec.ofNat 64 (8 * (vs.length + 1)) := by
      apply BitVec.eq_of_toNat_eq
      simp only [BitVec.toNat_sub, BitVec.toNat_ofNat]
      omega
    simp only [Function.update_self, Function.update_idem, List.length_cons, hsub]

theorem rsp_pushAll (hroom : 8 * vs.length ≤ (c.reg .rsp).toNat) :
    ((c.pushAll vs).reg .rsp).toNat = (c.reg .rsp).toNat - 8 * vs.length := by
  have hlt := (c.reg .rsp).isLt
  rw [reg_pushAll, Function.update_self, BitVec.toNat_sub, BitVec.toNat_ofNat]
  omega

/-- Pushed words are in memory in the opposite order, and nothing else changes. -/
theorem mem_pushAll (hroom : 8 * vs.length ≤ (c.reg .rsp).toNat) :
    words (c.pushAll vs).mem ((c.reg .rsp).toNat - 8 * vs.length) vs.length = vs.reverse ∧
      c.mem.SameOutside (c.pushAll vs).mem ((c.reg .rsp).toNat - 8 * vs.length)
        (c.reg .rsp).toNat := by
  induction vs using List.reverseRecOn with
  | nil => exact ⟨rfl, fun _ _ => rfl⟩
  | append_singleton vs v ih =>
    rw [List.length_append, List.length_singleton] at hroom ⊢
    obtain ⟨hwords, hsame⟩ := ih (by omega)
    have hrsp : ((c.pushAll vs).reg .rsp).toNat = (c.reg .rsp).toNat - 8 * vs.length :=
      rsp_pushAll (by omega)
    have haddr : ((c.pushAll vs).reg .rsp - 8#64).toNat =
        (c.reg .rsp).toNat - 8 * (vs.length + 1) := by
      have hlt := (c.reg .rsp).isLt
      rw [BitVec.toNat_sub, BitVec.toNat_ofNat, hrsp]
      omega
    have hpush : (c.pushAll (vs ++ [v])).mem = (c.pushAll vs).mem.setWord
        ((c.reg .rsp).toNat - 8 * (vs.length + 1)) v := by
      rw [Cpu.pushAll_append, ← haddr]
      rfl
    rw [hpush, List.reverse_append, List.reverse_singleton, List.singleton_append, words,
      Memory.word_setWord]
    constructor
    · rw [show (c.reg .rsp).toNat - 8 * (vs.length + 1) + 8 = (c.reg .rsp).toNat - 8 * vs.length by
        omega, ← hwords]
      exact congrArg (v :: ·) (words_congr fun a hlo _ => Memory.setWord_of_outside (by omega))
    · refine (hsame.mono (by omega) le_rfl).trans (Memory.SameOutside.setWord.mono le_rfl ?_)
      omega

end Push

/-- A register that is pushed, changed and popped. -/
theorem pop_set_push {c : Cpu} {r : Reg} (hr : r ≠ .rsp) (v : BitVec 64) :
    ((c.push (c.reg r)).set r v).pop r =
      ⟨c.reg, c.mem.setWord (c.reg .rsp - 8#64).toNat (c.reg r)⟩ := by
  have hsp : ((c.push (c.reg r)).set r v).reg .rsp = c.reg .rsp - 8#64 := by
    rw [Cpu.reg_set_of_ne _ hr.symm]
    simp only [Cpu.push, Function.update_self]
  have hword : ((c.push (c.reg r)).set r v).word (c.reg .rsp - 8#64) = c.reg r :=
    Memory.word_setWord
  apply Cpu.ext
  · funext r'
    rw [Cpu.pop, hsp, hword, BitVec.sub_add_cancel]
    by_cases hself : r' = r
    · rw [hself, Cpu.reg_set_self]
    · rw [Cpu.reg_set_of_ne _ hself]
      by_cases hrsp : r' = .rsp
      · rw [hrsp, Cpu.reg_set_self]
      · rw [Cpu.reg_set_of_ne _ hrsp, Cpu.reg_set_of_ne _ hself]
        exact Function.update_of_ne hrsp _ _
  · rfl

section Registers

variable {c : Cpu} {rs : List Reg}

/-- Pushing registers pushes their values. -/
theorem exec_push (h : Reg.rsp ∉ rs) : c.exec (rs.map .push) = c.pushAll (rs.map c.reg) := by
  induction rs generalizing c with
  | nil => rfl
  | cons r rs ih =>
    rw [List.mem_cons, not_or] at h
    have hreg : rs.map (c.step (.push r)).reg = rs.map c.reg := by
      refine List.map_congr_left fun r' hr' => Function.update_of_ne ?_ _ _
      rintro rfl
      exact h.2 hr'
    rw [List.map_cons, Cpu.exec_cons, ih h.2, hreg]
    rfl

/-- Popping registers takes them from memory one after the other. -/
theorem exec_pop (hnodup : rs.Nodup) (h : Reg.rsp ∉ rs)
    (hroom : (c.reg .rsp).toNat + 8 * rs.length ≤ 2 ^ 64) :
    (c.exec (rs.map .pop)).mem = c.mem ∧
      (c.exec (rs.map .pop)).reg .rsp = c.reg .rsp + BitVec.ofNat 64 (8 * rs.length) ∧
      rs.map (c.exec (rs.map .pop)).reg = words c.mem (c.reg .rsp).toNat rs.length ∧
      ∀ r, r ∉ rs → r ≠ .rsp → (c.exec (rs.map .pop)).reg r = c.reg r := by
  induction rs generalizing c with
  | nil => simp [words]
  | cons r rs ih =>
    rw [List.nodup_cons] at hnodup
    rw [List.mem_cons, not_or] at h
    rw [List.length_cons] at hroom
    have hrsp : (c.pop r).reg .rsp = c.reg .rsp + 8#64 := by
      rw [Cpu.pop, Cpu.reg_set_of_ne _ h.1, Cpu.reg_set_self]
    have hother : ∀ r', r' ≠ r → r' ≠ .rsp → (c.pop r).reg r' = c.reg r' := fun r' hr hr' => by
      rw [Cpu.pop, Cpu.reg_set_of_ne _ hr, Cpu.reg_set_of_ne _ hr']
    have hself : (c.pop r).reg r = c.mem.word (c.reg .rsp).toNat := Cpu.reg_set_self _ _ _
    have hnext : (c.reg .rsp + 8#64).toNat = (c.reg .rsp).toNat + 8 ∨ rs = [] := by
      rcases List.eq_nil_or_concat rs with hnil | ⟨rs', r', rfl⟩
      · exact Or.inr hnil
      · rw [List.concat_eq_append, List.length_append, List.length_singleton] at hroom
        rw [BitVec.toNat_add, BitVec.toNat_ofNat]
        omega
    have hroom' : ((c.pop r).reg .rsp).toNat + 8 * rs.length ≤ 2 ^ 64 := by
      rw [hrsp]
      rcases hnext with hnext | rfl
      · omega
      · exact (c.reg .rsp + 8#64).isLt.le
    obtain ⟨hmem, hsp, hregs, hrest⟩ := ih hnodup.2 h.2 hroom'
    rw [List.map_cons, Cpu.exec_cons, List.length_cons]
    change ((c.pop r).exec (rs.map .pop)).mem = c.mem ∧ _
    refine ⟨hmem, ?_, ?_, fun r' hr' hne => ?_⟩
    · rw [Cpu.step, hsp, hrsp, BitVec.add_assoc, ← BitVec.ofNat_add,
        show 8 + 8 * rs.length = 8 * (rs.length + 1) by omega]
    · have htail : words (c.pop r).mem ((c.pop r).reg .rsp).toNat rs.length =
          words c.mem ((c.reg .rsp).toNat + 8) rs.length := by
        rw [hrsp]
        rcases hnext with hnext | rfl
        · rw [hnext]
          rfl
        · rfl
      rw [List.map_cons, words, ← hself, ← htail, ← hregs]
      exact congrArg (· :: _) (hrest r hnodup.1 (Ne.symm h.1))
    · rw [List.mem_cons, not_or] at hr'
      exact (hrest r' hr'.2 hne).trans (hother r' hr'.1 hne)

end Registers

end Toyos.Core.Assembly
