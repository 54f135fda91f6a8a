import Toyos.Core.Assembly
import Toyos.Core.BitField
import Toyos.Core.Run
import Toyos.Util.Math

/-!
# Entry and exit of interrupts

An interrupt goes through its gate in the IDT to a stub for its vector. The stub
completes the frame of the processor with a missing error code and the vector, and
the common part saves the general registers in front of it. The handler gets a
pointer to all that as `intr_regs`. Behind the handler, everything is loaded from
there again.
-/

namespace Toyos.Testhelper

open Toyos.Core Toyos.Core.Assembly Toyos.Util

/-- The general registers as they are saved, in the order of `intr_regs`. -/
structure SavedRegs where
  r15 : BitVec 64
  r14 : BitVec 64
  r13 : BitVec 64
  r12 : BitVec 64
  r11 : BitVec 64
  r10 : BitVec 64
  r9 : BitVec 64
  r8 : BitVec 64
  rdi : BitVec 64
  rsi : BitVec 64
  rbp : BitVec 64
  rdx : BitVec 64
  rcx : BitVec 64
  rbx : BitVec 64
  rax : BitVec 64
  deriving DecidableEq, Repr

namespace SavedRegs

/-- The saved registers at an address. -/
def read (m : Memory) (p : ℕ) : SavedRegs :=
  ⟨m.word p, m.word (p + 8), m.word (p + 16), m.word (p + 24), m.word (p + 32), m.word (p + 40),
    m.word (p + 48), m.word (p + 56), m.word (p + 64), m.word (p + 72), m.word (p + 80),
    m.word (p + 88), m.word (p + 96), m.word (p + 104), m.word (p + 112)⟩

/-- The registers to be saved. -/
def ofRegs (reg : Reg → BitVec 64) : SavedRegs :=
  ⟨reg .r15, reg .r14, reg .r13, reg .r12, reg .r11, reg .r10, reg .r9, reg .r8, reg .rdi, reg .rsi,
    reg .rbp, reg .rdx, reg .rcx, reg .rbx, reg .rax⟩

/-- The registers with a stack pointer. -/
def toRegs (s : SavedRegs) (rsp : BitVec 64) : Reg → BitVec 64
  | .rax => s.rax
  | .rbx => s.rbx
  | .rcx => s.rcx
  | .rdx => s.rdx
  | .rbp => s.rbp
  | .rsi => s.rsi
  | .rdi => s.rdi
  | .r8 => s.r8
  | .r9 => s.r9
  | .r10 => s.r10
  | .r11 => s.r11
  | .r12 => s.r12
  | .r13 => s.r13
  | .r14 => s.r14
  | .r15 => s.r15
  | .rsp => rsp

/-- The registers in the order in which they are pushed. -/
def pushed : List Reg :=
  [.rax, .rbx, .rcx, .rdx, .rbp, .rsi, .rdi, .r8, .r9, .r10, .r11, .r12, .r13, .r14, .r15]

/-- The registers in the order in which they are popped. -/
def popped : List Reg :=
  [.r15, .r14, .r13, .r12, .r11, .r10, .r9, .r8, .rdi, .rsi, .rbp, .rdx, .rcx, .rbx, .rax]

theorem words_eq_iff {m : Memory} {p : ℕ} {reg : Reg → BitVec 64} :
    words m p 15 = popped.map reg ↔ read m p = ofRegs reg := by
  simp only [words, popped, List.map_cons, List.map_nil, List.cons.injEq, read, ofRegs,
    SavedRegs.mk.injEq, and_true, Nat.add_assoc, Nat.reduceAdd]

theorem toRegs_ofRegs (reg : Reg → BitVec 64) (rsp : BitVec 64) :
    (ofRegs reg).toRegs rsp = Function.update reg .rsp rsp := by
  funext r
  cases r <;> rfl

end SavedRegs

/-- A processor with what an interrupt saves besides the general registers. -/
@[ext]
structure Processor where
  /-- The general registers and the memory. -/
  cpu : Cpu
  /-- The instruction pointer. -/
  rip : BitVec 64
  /-- The code segment. -/
  cs : BitVec 64
  /-- The flags. -/
  flags : BitVec 64
  /-- The stack segment. -/
  ss : BitVec 64

/-- `intr_regs`. -/
structure IntrRegs where
  /-- The general registers. -/
  regs : SavedRegs
  vector : BitVec 64
  errorCode : BitVec 64
  rip : BitVec 64
  cs : BitVec 64
  flags : BitVec 64
  rsp : BitVec 64
  ss : BitVec 64
  deriving DecidableEq, Repr

/-- The `intr_regs` at an address. -/
def IntrRegs.read (m : Memory) (p : ℕ) : IntrRegs :=
  ⟨.read m p, m.word (p + 120), m.word (p + 128), m.word (p + 136), m.word (p + 144),
    m.word (p + 152), m.word (p + 160), m.word (p + 168)⟩

namespace Idt

/-- An entry of the IDT. -/
structure Entry where
  offLo : BitVec 16
  cs : BitVec 16
  ar : BitVec 16
  offHi : BitVec 16
  off64b : BitVec 32
  reserved : BitVec 32
  deriving DecidableEq, Repr

/-- `entry::configure`. -/
def Entry.configure (e : Entry) (offset : BitVec 64) : Entry :=
  { e with
    offLo := offset.setWidth 16
    cs := 8
    ar := 0x8e00
    offHi := (offset >>> 16).setWidth 16
    off64b := (offset >>> 32).setWidth 32 }

/-- `entry::set_ist`. -/
def Entry.setIst (e : Entry) (ist : BitVec 8) : Entry :=
  let ar := (e.ar.setWidth 64 &&& ~~~maskBits 3 0).setWidth 16
  { e with ar := (ar.setWidth 64 ||| (ist.setWidth 64 &&& maskBits 3 0)).setWidth 16 }

/-- The address that a gate stands for. -/
def Entry.offset (e : Entry) : BitVec 64 := e.off64b ++ e.offHi ++ e.offLo

/-- The stack of the interrupt stack table that a gate asks for. -/
def Entry.ist (e : Entry) : BitVec 3 := e.ar.setWidth 3

end Idt

/-- The stack pointers for interrupts in the TSS. -/
structure Tss where
  /-- The stack for privilege level 0. -/
  rsp0 : BitVec 64
  /-- The interrupt stack table. -/
  ist : BitVec 3 → BitVec 64

/-- The flags that an interrupt gate clears. -/
def clearedFlags : BitVec 64 := 0x34300

/-- An interrupt and what the processor finds for it. -/
structure Interrupt where
  /-- The current TSS. -/
  tss : Tss
  /-- The gate in the IDT. -/
  gate : Idt.Entry
  /-- The vector. -/
  vec : Fin 256
  /-- The error code that the processor pushes, if it does. -/
  error : Option (BitVec 64)

/-- The vectors with `ERR` set in `INTR`. -/
def hasErrorCode (vec : Fin 256) : Bool := vec ∈ [8, 10, 11, 12, 13, 14, 17]

/-- `INTR VEC, ERR`, up to the jump. -/
def intr (vec : Fin 256) : List Instr :=
  (if hasErrorCode vec then [] else [.pushImm 0]) ++ [.pushImm (BitVec.ofNat 64 vec)]

/-- `irq_common`, up to the call of `irq_entry`. -/
def irqCommonEntry : List Instr := SavedRegs.pushed.map .push ++ [.mov .rsp .rdi]

/-- `irq_common` behind the call of `irq_entry`, up to `iretq`. -/
def irqCommonExit : List Instr := SavedRegs.popped.map .pop ++ [.addImm 16 .rsp]

/-- `iretq`. -/
def iretq (c : Cpu) : Processor where
  cpu := c.set .rsp (c.word (c.reg .rsp + 24#64))
  rip := c.word (c.reg .rsp)
  cs := c.word (c.reg .rsp + 8#64)
  flags := c.word (c.reg .rsp + 16#64)
  ss := c.word (c.reg .rsp + 32#64)

namespace Interrupt

variable (i : Interrupt) (p : Processor)

/-- The stack pointer from which on an interrupt pushes. -/
def stackTop : BitVec 64 :=
  (if i.gate.ist ≠ 0 then i.tss.ist i.gate.ist
    else if p.cs &&& 3 ≠ 0 then i.tss.rsp0
    else p.cpu.reg .rsp) &&& ~~~15#64

/-- What the processor does at an interrupt through a gate. -/
def deliver : Processor where
  cpu := (p.cpu.set .rsp (i.stackTop p)).pushAll
    ([p.ss, p.cpu.reg .rsp, p.flags, p.cs, p.rip] ++ i.error.toList)
  rip := i.gate.offset
  cs := i.gate.cs.setWidth 64
  flags := p.flags &&& ~~~clearedFlags
  ss := if p.cs &&& 3 ≠ 0 then 0 else p.ss

/-- From an interrupt up to the call of `irq_entry`. -/
def enter : Cpu := ((i.deliver p).cpu.exec (intr i.vec)).exec irqCommonEntry

end Interrupt

/-- From the return of `irq_entry` on. -/
def leave (c : Cpu) : Processor := iretq (c.exec irqCommonExit)

/-- What `intr_regs` has to be for an interrupted program. -/
def IntrRegs.ofProcessor (p : Processor) (i : Interrupt) : IntrRegs :=
  ⟨.ofRegs p.cpu.reg, BitVec.ofNat 64 i.vec, i.error.getD 0, p.rip, p.cs, p.flags, p.cpu.reg .rsp,
    p.ss⟩

/-- The program that `intr_regs` stands for. -/
def IntrRegs.toProcessor (r : IntrRegs) (mem : Memory) : Processor :=
  ⟨⟨r.regs.toRegs r.rsp, mem⟩, r.rip, r.cs, r.flags, r.ss⟩

theorem toProcessor_ofProcessor (p : Processor) (i : Interrupt) (mem : Memory) :
    (IntrRegs.ofProcessor p i).toProcessor mem = { p with cpu := { p.cpu with mem } } := by
  rw [IntrRegs.toProcessor, IntrRegs.ofProcessor, SavedRegs.toRegs_ofRegs, Function.update_eq_self]

section Gate

variable (e : Idt.Entry) (offset : BitVec 64) (ists : List (BitVec 8))

theorem offset_configure : (e.configure offset).offset = offset := by
  apply BitVec.eq_of_getLsbD_eq
  intro i hi
  simp only [Idt.Entry.offset, Idt.Entry.configure, BitVec.getLsbD_append, BitVec.getLsbD_setWidth,
    BitVec.getLsbD_ushiftRight]
  rcases Nat.lt_or_ge i 16 with hlow | hhigh
  · simp [hlow]
  rcases Nat.lt_or_ge i 32 with hmid | hup
  · simp [show ¬i < 16 by omega, show i - 16 < 16 by omega, show 16 + (i - 16) = i by omega]
  · simp [show ¬i < 16 by omega, show ¬i - 16 < 16 by omega, show i - 16 - 16 < 32 by omega,
      show 32 + (i - 16 - 16) = i by omega]

/-- Later changes of the stack keep where a gate leads. -/
theorem foldl_setIst : (ists.foldl Idt.Entry.setIst e).offset = e.offset ∧
    (ists.foldl Idt.Entry.setIst e).cs = e.cs := by
  induction ists generalizing e with
  | nil => exact ⟨rfl, rfl⟩
  | cons ist ists ih => exact ih (e.setIst ist)

end Gate

section Entry

variable (i : Interrupt) (p : Processor)

/-- What is pushed up to the call of `irq_entry`. -/
def allPushed : List (BitVec 64) :=
  [p.ss, p.cpu.reg .rsp, p.flags, p.cs, p.rip] ++ i.error.toList ++
    ((if hasErrorCode i.vec then [] else [0]) ++ [BitVec.ofNat 64 i.vec] ++
      SavedRegs.pushed.map p.cpu.reg)

theorem exec_intr (c : Cpu) (vec : Fin 256) : c.exec (intr vec) =
    c.pushAll ((if hasErrorCode vec then [] else [0]) ++ [BitVec.ofNat 64 vec]) := by
  rw [intr]
  cases hasErrorCode vec <;> rfl

/-- Pushing keeps the registers that are saved. -/
theorem map_pushed_pushAll (c : Cpu) (vs : List (BitVec 64)) :
    SavedRegs.pushed.map (c.pushAll vs).reg = SavedRegs.pushed.map c.reg := by
  rw [reg_pushAll]
  rfl

theorem enter_eq : i.enter p =
    let c := (p.cpu.set .rsp (i.stackTop p)).pushAll (allPushed i p)
    c.set .rdi (c.reg .rsp) := by
  have hsaved : SavedRegs.pushed.map (p.cpu.set .rsp (i.stackTop p)).reg =
      SavedRegs.pushed.map p.cpu.reg := rfl
  rw [Interrupt.enter, Interrupt.deliver, exec_intr, irqCommonEntry, Cpu.exec_append,
    exec_push (by decide), map_pushed_pushAll, map_pushed_pushAll, hsaved, ← Cpu.pushAll_append,
    ← Cpu.pushAll_append, allPushed]
  rfl

theorem stackTop_mod : (i.stackTop p).toNat % 16 = 0 := by
  rw [Interrupt.stackTop, show 15#64 = BitVec.ofNat 64 (2 ^ 4) - 1#64 by decide,
    toNat_and_not_low (by decide)]
  exact Nat.mul_mod_left _ _

variable {i p}

/-- What is left on the stack at the call of `irq_entry`. -/
theorem enter_stack {n : ℕ} (hn : (allPushed i p).length = n)
    (hroom : 8 * n ≤ (i.stackTop p).toNat) :
    (i.enter p).reg .rdi = (i.enter p).reg .rsp ∧
      ((i.enter p).reg .rsp).toNat = (i.stackTop p).toNat - 8 * n ∧
      words (i.enter p).mem ((i.stackTop p).toNat - 8 * n) n = (allPushed i p).reverse ∧
      p.cpu.mem.SameOutside (i.enter p).mem ((i.stackTop p).toNat - 8 * n)
        (i.stackTop p).toNat := by
  subst hn
  rw [enter_eq]
  generalize hc : p.cpu.set .rsp (i.stackTop p) = c
  have htop : c.reg .rsp = i.stackTop p := by rw [← hc, Cpu.reg_set_self]
  have hmem : c.mem = p.cpu.mem := by rw [← hc]; rfl
  rw [← htop] at hroom ⊢
  obtain ⟨hwords, hsame⟩ := mem_pushAll hroom
  dsimp only
  rw [Cpu.reg_set_self, Cpu.reg_set_of_ne _ (by decide)]
  exact ⟨rfl, rsp_pushAll hroom, hwords, hmem ▸ hsame⟩

theorem read_of_words {m : Memory} {a : ℕ} {reg : Reg → BitVec 64}
    {vector errorCode rip cs flags rsp ss : BitVec 64}
    (h : words m a 22 =
      SavedRegs.popped.map reg ++ [vector, errorCode, rip, cs, flags, rsp, ss]) :
    IntrRegs.read m a = ⟨.ofRegs reg, vector, errorCode, rip, cs, flags, rsp, ss⟩ := by
  simp only [words, SavedRegs.popped, List.map_cons, List.map_nil, List.cons_append,
    List.nil_append, List.cons.injEq, and_true, Nat.add_assoc, Nat.reduceAdd] at h
  simp only [IntrRegs.read, SavedRegs.read, SavedRegs.ofRegs, h]

end Entry

/-- Behind the handler, everything is loaded from `intr_regs`. -/
theorem leave_eq {c : Cpu} (hroom : (c.reg .rsp).toNat + 176 ≤ 2 ^ 64) :
    leave c = (IntrRegs.read c.mem (c.reg .rsp).toNat).toProcessor c.mem := by
  have hlength : SavedRegs.popped.length = 15 := rfl
  obtain ⟨hmem, hrsp, hregs, -⟩ :=
    exec_pop (c := c) (by decide : SavedRegs.popped.Nodup) (by decide) (by omega)
  have hread := SavedRegs.words_eq_iff.mp hregs.symm
  rw [hlength] at hrsp
  generalize hc' : c.exec (SavedRegs.popped.map .pop) = c' at *
  have hexit : c.exec irqCommonExit = c'.set .rsp (c.reg .rsp + 136#64) := by
    rw [irqCommonExit, Cpu.exec_append, hc']
    change c'.set .rsp (c'.reg .rsp + 16) = _
    rw [hrsp, BitVec.add_assoc]
    rfl
  have hword : ∀ k, 136 + k < 176 → c'.word (c.reg .rsp + 136#64 + BitVec.ofNat 64 k) =
      c.mem.word ((c.reg .rsp).toNat + (136 + k)) := by
    intro k hk
    rw [Cpu.word, hmem, BitVec.toNat_add, BitVec.toNat_add, BitVec.toNat_ofNat, BitVec.toNat_ofNat]
    congr 1
    omega
  have hrip := hword 0 (by decide)
  rw [BitVec.add_zero] at hrip
  rw [leave, hexit, iretq]
  simp only [Cpu.reg_set_self, Cpu.set_set, Cpu.word_set, hrip, hword 8 (by decide),
    hword 16 (by decide), hword 24 (by decide), hword 32 (by decide)]
  rw [IntrRegs.toProcessor, IntrRegs.read, hread, SavedRegs.toRegs_ofRegs, ← hmem]
  rfl

section RoundTrip

variable {i : Interrupt} {p : Processor}

/-- The address of `intr_regs`. -/
def Interrupt.regsAt (i : Interrupt) (p : Processor) : ℕ := (i.stackTop p).toNat - 176

/-- What `irq_entry` gets if the processor pushes an error code just where the stub counts on
one. -/
theorem enter_spec (herror : i.error.isSome = hasErrorCode i.vec)
    (hroom : 176 ≤ (i.stackTop p).toNat) :
    (i.enter p).reg .rdi = (i.enter p).reg .rsp ∧ ((i.enter p).reg .rsp).toNat = i.regsAt p ∧
      IntrRegs.read (i.enter p).mem (i.regsAt p) = .ofProcessor p i ∧
      p.cpu.mem.SameOutside (i.enter p).mem (i.regsAt p) (i.stackTop p).toNat := by
  have hlength : (allPushed i p).length = 22 := by
    rw [allPushed, ← herror]
    cases i.error <;> rfl
  have hreverse : (allPushed i p).reverse = SavedRegs.popped.map p.cpu.reg ++
      [BitVec.ofNat 64 i.vec, i.error.getD 0, p.rip, p.cs, p.flags, p.cpu.reg .rsp, p.ss] := by
    rw [allPushed, ← herror]
    cases i.error <;> rfl
  obtain ⟨hrdi, hrsp, hwords, hsame⟩ := enter_stack hlength hroom
  exact ⟨hrdi, hrsp, read_of_words (hwords.trans hreverse), hsame⟩

/-- An interrupt with the given vector and error code through a gate to a stub. -/
def sampleInterrupt (vec : Fin 256) (error : Option (BitVec 64)) : Interrupt :=
  ⟨⟨0x9000, fun _ => 0⟩, Idt.Entry.configure ⟨0, 0, 0, 0, 0, 0⟩ 0x401000, vec, error⟩

/-- A program in kernel mode. -/
def sampleProgram : Processor :=
  ⟨⟨fun r => if r = .rsp then 0x8008 else 7, fun _ => 0⟩, 0x400000, 8, 0x202, 0x10⟩

end RoundTrip

section Invisible

variable {R : ℕ → Prop} {p q r : Processor}

/-- The registers and some of the memory are the same. -/
structure Agree (R : ℕ → Prop) (p q : Processor) : Prop where
  reg : q.cpu.reg = p.cpu.reg
  rip : q.rip = p.rip
  cs : q.cs = p.cs
  flags : q.flags = p.flags
  ss : q.ss = p.ss
  mem : ∀ a, R a → q.cpu.mem a = p.cpu.mem a

theorem Agree.refl : Agree R p p := ⟨rfl, rfl, rfl, rfl, rfl, fun _ _ => rfl⟩

theorem Agree.trans (h : Agree R p q) (h' : Agree R q r) : Agree R p r :=
  ⟨h'.reg.trans h.reg, h'.rip.trans h.rip, h'.cs.trans h.cs, h'.flags.trans h.flags,
    h'.ss.trans h.ss, fun a ha => (h'.mem a ha).trans (h.mem a ha)⟩

/-- An interrupt with what its handler does. -/
structure Service where
  /-- The interrupt. -/
  interrupt : Interrupt
  /-- What happens from the call of `irq_entry` to its return. -/
  handler : Cpu → Cpu

/-- A program that is interrupted. -/
def Service.serve (s : Service) (p : Processor) : Processor :=
  leave (s.handler (s.interrupt.enter p))

/-- A handler that returns without having changed `intr_regs` or the memory of a program, which is
not where the interrupt puts its frame. -/
structure Service.Harmless (s : Service) (R : ℕ → Prop) (p : Processor) : Prop where
  error : s.interrupt.error.isSome = hasErrorCode s.interrupt.vec
  room : 176 ≤ (s.interrupt.stackTop p).toNat
  apart : ∀ a, R a → a < s.interrupt.regsAt p ∨ (s.interrupt.stackTop p).toNat ≤ a
  rsp : (s.handler (s.interrupt.enter p)).reg .rsp = (s.interrupt.enter p).reg .rsp
  regs : IntrRegs.read (s.handler (s.interrupt.enter p)).mem (s.interrupt.regsAt p) =
    IntrRegs.read (s.interrupt.enter p).mem (s.interrupt.regsAt p)
  mem : ∀ a, R a → (s.handler (s.interrupt.enter p)).mem a = (s.interrupt.enter p).mem a

theorem Service.Harmless.agree {s : Service} (h : s.Harmless R p) : Agree R p (s.serve p) := by
  obtain ⟨-, hrsp, hread, hsame⟩ := enter_spec h.error h.room
  have hlt := (s.interrupt.stackTop p).isLt
  have hat : s.interrupt.regsAt p = (s.interrupt.stackTop p).toNat - 176 := rfl
  have hroom := h.room
  rw [Service.serve, leave_eq (by rw [h.rsp, hrsp]; omega), h.rsp, hrsp, h.regs, hread,
    toProcessor_ofProcessor]
  exact ⟨rfl, rfl, rfl, rfl, rfl, fun a ha => (h.mem a ha).trans (hsame a (h.apart a ha))⟩

/-- What happens to a program. -/
inductive Event
  /-- It does a step. -/
  | step
  /-- It is interrupted. -/
  | interrupt (s : Service)

/-- Whether an event is a step of the program. -/
def Event.isStep : Event → Bool
  | .step => true
  | .interrupt _ => false

/-- A step of a program that may be interrupted. -/
inductive Step (next : Processor → Processor) (R : ℕ → Prop) :
    Processor → Event → Processor → Prop
  | step {p : Processor} : Step next R p .step (next p)
  | interrupt {p : Processor} {s : Service} (h : s.Harmless R p) :
    Step next R p (.interrupt s) (s.serve p)

/-- A program that counts in a register. -/
def counting (p : Processor) : Processor :=
  { p with cpu := p.cpu.set .rax (p.cpu.reg .rax + 1), rip := p.rip + 4 }

/-- A timer interrupt whose handler does nothing. -/
def timer : Service := ⟨sampleInterrupt 0x40 none, id⟩

theorem agree_counting {p q : Processor} (h : Agree R p q) : Agree R (counting p) (counting q) := by
  refine ⟨?_, ?_, h.cs, h.flags, h.ss, h.mem⟩
  · rw [counting, counting, Cpu.set, Cpu.set, h.reg]
  · rw [counting, counting, h.rip]

theorem timer_harmless : timer.Harmless (0x8000 ≤ ·) (counting sampleProgram) := by
  have htop : (timer.interrupt.stackTop (counting sampleProgram)).toNat = 0x8000 := by decide
  have hid : ∀ c, timer.handler c = c := fun _ => rfl
  refine ⟨by decide, ?_, fun a ha => Or.inr ?_, by rw [hid], by rw [hid],
    fun _ _ => by rw [hid]⟩
  · rw [htop]
    decide
  · rw [htop]
    exact ha

end Invisible

end Toyos.Testhelper
