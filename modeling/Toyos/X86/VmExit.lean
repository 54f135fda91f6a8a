import Toyos.Testhelper.Interrupts
import Toyos.X86.Tinivisor

/-!
# Entry and exit of VM exit handlers

At a VM exit the general registers still belong to the guest. The low-level entry
point saves them on a stack that starts anew with each exit, hands them over to the
handler for the exit as `guest_regs` and loads them from there again. Seen from
outside, an exit is nothing but a function on the registers of the guest.
-/

namespace Toyos.X86.Tinivisor

open Toyos.Core Toyos.Core.Assembly Toyos.Testhelper

/-- `exit_handler_low_level`, up to the call of `vmx_handler`. -/
def exitHandlerEntry : List Instr :=
  [.andImm (~~~0xf#64) .rsp, .push .rax] ++ (SavedRegs.pushed.map .push ++ [.mov .rsp .rdi])

/-- `exit_handler_low_level` behind the call of `vmx_handler`, up to `vmresume`. -/
def exitHandlerExit : List Instr := SavedRegs.popped.map .pop

/-- `HOST_STACK_SIZE`. -/
def hostStackSize : BitVec 64 := 4096#64

/-- The stack for VM exits, which has to be somewhere in memory. -/
structure HostStack where
  /-- `host_stack`. -/
  base : BitVec 64
  /-- It begins with a page. -/
  aligned : base.toNat % 4096 = 0
  /-- It does not wrap around. -/
  fits : base.toNat + 4096 < 2 ^ 64

namespace HostStack

variable (h : HostStack)

/-- The stack pointer with which an exit begins: `HOST_RSP`. -/
def top : BitVec 64 := h.base + hostStackSize

/-- Where `guest_regs` is during an exit. -/
def regsAt : ℕ := h.base.toNat + 3968

/-- From a VM exit up to the call of `vmx_handler`. -/
def enter (guest : Cpu) : Cpu := (guest.set .rsp h.top).exec exitHandlerEntry

end HostStack

/-- From the return of `vmx_handler` on; the stack pointer of the guest is in the VMCS. -/
def resume (c : Cpu) (guestRsp : BitVec 64) : Cpu := (c.exec exitHandlerExit).set .rsp guestRsp

section LowLevel

variable (h : HostStack) (guest : Cpu)

theorem toNat_top : h.top.toNat = h.base.toNat + 4096 := by
  have := h.fits
  rw [HostStack.top, hostStackSize, BitVec.toNat_add, BitVec.toNat_ofNat]
  omega

/-- The stack of an exit needs no alignment. -/
theorem top_and : h.top &&& ~~~0xf#64 = h.top := by
  apply BitVec.eq_of_toNat_eq
  rw [show 0xf#64 = BitVec.ofNat 64 (2 ^ 4) - 1#64 by decide, toNat_and_not_low (by decide),
    toNat_top]
  have := h.aligned
  omega

theorem enter_eq : h.enter guest =
    let c := (guest.set .rsp h.top).pushAll (guest.reg .rax :: SavedRegs.pushed.map guest.reg)
    c.set .rdi (c.reg .rsp) := by
  have hstart : (guest.set .rsp h.top).exec [.andImm (~~~0xf#64) .rsp, .push .rax] =
      (guest.set .rsp h.top).pushAll [guest.reg .rax] := by
    change (((guest.set .rsp h.top).set .rsp _).push _) = (guest.set .rsp h.top).push _
    rw [Cpu.reg_set_self, top_and, Cpu.set_set]
    rfl
  have hsaved : SavedRegs.pushed.map (guest.set .rsp h.top).reg =
      SavedRegs.pushed.map guest.reg := rfl
  rw [HostStack.enter, exitHandlerEntry, Cpu.exec_append, hstart, Cpu.exec_append,
    exec_push (by decide), map_pushed_pushAll, hsaved, ← Cpu.pushAll_append]
  rfl

/-- What `vmx_handler` gets. -/
theorem enter_spec :
    (h.enter guest).reg .rdi = (h.enter guest).reg .rsp ∧
      ((h.enter guest).reg .rsp).toNat = h.regsAt ∧
      SavedRegs.read (h.enter guest).mem h.regsAt = .ofRegs guest.reg ∧
      guest.mem.SameOutside (h.enter guest).mem h.regsAt (h.regsAt + 128) := by
  have htop := toNat_top h
  have hat : h.top.toNat - 8 * 16 = h.regsAt := by
    unfold HostStack.regsAt
    omega
  rw [enter_eq]
  generalize hc : guest.set .rsp h.top = c
  generalize hvs : guest.reg .rax :: SavedRegs.pushed.map guest.reg = vs
  have hlength : vs.length = 16 := by rw [← hvs]; rfl
  have hrsp : c.reg .rsp = h.top := by rw [← hc, Cpu.reg_set_self]
  have hroom : 8 * vs.length ≤ (c.reg .rsp).toNat := by
    rw [hlength, hrsp]
    omega
  have hreverse : vs.reverse = SavedRegs.popped.map guest.reg ++ [guest.reg .rax] := by
    rw [← hvs]
    rfl
  have hsp := rsp_pushAll hroom
  obtain ⟨hwords, hsame⟩ := mem_pushAll hroom
  rw [hlength, hrsp, hat] at hsp hwords hsame
  rw [words_succ, hreverse] at hwords
  have hfirst : words (c.pushAll vs).mem h.regsAt 15 = SavedRegs.popped.map guest.reg :=
    (List.append_inj' hwords (List.length_singleton.trans List.length_singleton.symm)).1
  have hsaved := SavedRegs.words_eq_iff.mp hfirst
  have hmem : c.mem = guest.mem := by rw [← hc]; rfl
  have hend : h.top.toNat = h.regsAt + 128 := by
    unfold HostStack.regsAt
    omega
  dsimp only
  rw [Cpu.reg_set_self, Cpu.reg_set_of_ne _ (by decide), Cpu.mem_set]
  rw [hmem, hend] at hsame
  exact ⟨rfl, hsp, hsaved, hsame⟩

/-- Behind the handler, the registers are loaded from `guest_regs`. -/
theorem resume_eq {c : Cpu} (hc : (c.reg .rsp).toNat = h.regsAt) (guestRsp : BitVec 64) :
    resume c guestRsp = ⟨(SavedRegs.read c.mem h.regsAt).toRegs guestRsp, c.mem⟩ := by
  have hfits := h.fits
  have hlength : SavedRegs.popped.length = 15 := rfl
  obtain ⟨hmem, -, hregs, -⟩ := exec_pop (c := c) (by decide : SavedRegs.popped.Nodup) (by decide)
    (by rw [hc, HostStack.regsAt]; omega)
  have hread := SavedRegs.words_eq_iff.mp hregs.symm
  rw [hc] at hread
  rw [hread, SavedRegs.toRegs_ofRegs, resume, exitHandlerExit, ← hmem]
  rfl

end LowLevel

section Runs

/-- The registers of a guest. -/
structure Guest where
  /-- `guest_regs`. -/
  regs : SavedRegs
  /-- `GUEST_RSP`. -/
  rsp : BitVec 64
  /-- `GUEST_RIP`. -/
  rip : BitVec 64
  deriving DecidableEq, Repr

variable {F : Type}

/-- A machine whose program runs as a guest. -/
structure Vm (F : Type) where
  /-- The exit handlers. -/
  handlers : Handlers F
  /-- The registers and the memory. -/
  cpu : Cpu
  /-- The instruction pointer. -/
  rip : BitVec 64

/-- The registers of the guest. -/
def Vm.guest (v : Vm F) : Guest := ⟨.ofRegs v.cpu.reg, v.cpu.reg .rsp, v.rip⟩

/-- What happens to a machine whose program runs as a guest. -/
inductive VmEvent (F : Type)
  /-- The guest runs on to other registers. -/
  | guest (g : Guest)
  /-- A registration. -/
  | register (reason : ExitReason) (handler : Option F)
  /-- A reset. -/
  | reset
  /-- An exit with the function that handles it. -/
  | exit (reason : ExitReason) (f : F)

variable (effect : F → Guest → Guest) (h : HostStack)

/-- What is left behind by `vmx_handler` with a function that does to `guest_regs` and to the VMCS
what it is there for. The other registers and the rest of the memory do not matter. -/
structure Handled (v : Vm F) (f : F) (c : Cpu) (rsp rip : BitVec 64) : Prop where
  stack : c.reg .rsp = (h.enter v.cpu).reg .rsp
  effect : effect f ⟨.read (h.enter v.cpu).mem ((h.enter v.cpu).reg .rdi).toNat, v.cpu.reg .rsp,
    v.rip⟩ = ⟨.read c.mem ((h.enter v.cpu).reg .rdi).toNat, rsp, rip⟩

/-- A step of a machine whose program runs as a guest. -/
inductive Vm.Step : Vm F → VmEvent F → Vm F → Prop
  | guest {v : Vm F} {cpu : Cpu} {rip : BitVec 64} :
    Step v (.guest ⟨.ofRegs cpu.reg, cpu.reg .rsp, rip⟩) ⟨v.handlers, cpu, rip⟩
  | register {v : Vm F} {t : Handlers F} {reason : ExitReason} {handler : Option F}
    (ht : registerHandler v.handlers reason handler = .ok t) :
    Step v (.register reason handler) ⟨t, v.cpu, v.rip⟩
  | reset {v : Vm F} : Step v .reset ⟨Tinivisor.reset, v.cpu, v.rip⟩
  | exit {v : Vm F} {reason : ExitReason} {f : F} {c : Cpu} {rsp rip : BitVec 64}
    (hf : exitHandler v.handlers reason = .ok (.registered f))
    (hc : Handled effect h v f c rsp rip) :
    Step v (.exit reason f) ⟨v.handlers, resume c rsp, rip⟩

/-- What a virtual machine is for: the handler of an exit is a function on the registers of the
guest. -/
inductive AbstractStep : Handlers F × Guest → VmEvent F → Handlers F × Guest → Prop
  | guest {t : Handlers F} {g g' : Guest} : AbstractStep (t, g) (.guest g') (t, g')
  | register {t t' : Handlers F} {g : Guest} {reason : ExitReason} {handler : Option F}
    (ht : registerHandler t reason handler = .ok t') :
    AbstractStep (t, g) (.register reason handler) (t', g)
  | reset {t : Handlers F} {g : Guest} : AbstractStep (t, g) .reset (Tinivisor.reset, g)
  | exit {t : Handlers F} {g : Guest} {reason : ExitReason} {f : F}
    (hf : exitHandler t reason = .ok (.registered f)) :
    AbstractStep (t, g) (.exit reason f) (t, effect f g)

variable {effect h}

/-- The path from an exit back to the guest does what the handler does. -/
theorem guest_resume {v : Vm F} {f : F} {c : Cpu} {rsp rip : BitVec 64}
    (hc : Handled effect h v f c rsp rip) :
    Vm.guest ⟨v.handlers, resume c rsp, rip⟩ = effect f v.guest := by
  obtain ⟨hrdi, hrsp, hread, -⟩ := enter_spec h v.cpu
  have heffect := hc.effect
  rw [hrdi, hrsp, hread] at heffect
  have hstack : (c.reg .rsp).toNat = h.regsAt := by rw [hc.stack, hrsp]
  rw [Vm.guest, Vm.guest, heffect, resume_eq h hstack]
  rfl

/-- Exits keep up the appearance: however often a guest is left and entered again, its registers are
what they would be if the handlers were applied to them directly. -/
theorem exits_refine {v w : Vm F} {es : List (VmEvent F)} (hrun : Run (Vm.Step effect h) v es w) :
    Run (AbstractStep effect) (v.handlers, v.guest) es (w.handlers, w.guest) := by
  refine hrun.simulate (fun v => (v.handlers, v.guest)) fun v e w hstep => ?_
  cases hstep with
  | guest => exact .guest
  | register ht => exact .register ht
  | reset => exact .reset
  | exit hf hc =>
    dsimp only
    rw [guest_resume hc]
    exact .exit hf

/-- A stack for VM exits. -/
def sampleStack : HostStack := ⟨0x200000, by decide, by decide⟩

/-- A handler that answers in a register and goes on behind the instruction. -/
def answer (_ : Unit) (g : Guest) : Guest :=
  ⟨{ g.regs with rax := 42 }, g.rsp, g.rip + 2⟩

/-- What that handler does to the machine. -/
def answering (c : Cpu) : Cpu :=
  { c with mem := c.mem.setWord ((c.reg .rdi).toNat + 112) 42 }

theorem read_answering (c : Cpu) :
    SavedRegs.read (answering c).mem (c.reg .rdi).toNat =
      { SavedRegs.read c.mem (c.reg .rdi).toNat with rax := 42 } := by
  have hother : ∀ k, k + 8 ≤ 112 → (answering c).mem.word ((c.reg .rdi).toNat + k) =
      c.mem.word ((c.reg .rdi).toNat + k) := fun k hk =>
    Memory.word_setWord_of_apart (by omega)
  have hrax : (answering c).mem.word ((c.reg .rdi).toNat + 112) = 42 := Memory.word_setWord
  have hfirst := hother 0 (by decide)
  rw [Nat.add_zero] at hfirst
  simp only [SavedRegs.read, hfirst, hrax, hother 8 (by decide), hother 16 (by decide),
    hother 24 (by decide), hother 32 (by decide), hother 40 (by decide), hother 48 (by decide),
    hother 56 (by decide), hother 64 (by decide), hother 72 (by decide), hother 80 (by decide),
    hother 88 (by decide), hother 96 (by decide), hother 104 (by decide)]

theorem handled_answering (v : Vm Unit) : Handled answer h v () (answering (h.enter v.cpu))
    (v.cpu.reg .rsp) (v.rip + 2) := by
  have hreg : ∀ c, (answering c).reg = c.reg := fun _ => rfl
  exact ⟨by rw [hreg], by rw [read_answering, answer]⟩

/-- A guest at an instruction that has to be emulated. -/
def sampleVm : Vm Unit := ⟨reset, ⟨fun _ => 0x1000, fun _ => 0⟩, 0x400000⟩

/-- The emulated instruction answers in the register, on the machine as in the abstract. -/
theorem exits_refine_answer : ∃ w : Vm Unit,
    Run (Vm.Step answer sampleStack) sampleVm [.register 10 (some ()), .exit 10 ()] w ∧
      Run (AbstractStep answer) (reset, sampleVm.guest) [.register 10 (some ()), .exit 10 ()]
        (w.handlers, w.guest) ∧
      w.guest = answer () sampleVm.guest := by
  have ht : registerHandler (F := Unit) reset 10 (some ()) =
      .ok (reset.set 10 (some (.registered ())) (by decide)) := rfl
  have hf : exitHandler (F := Unit) (reset.set 10 (some (.registered ())) (by decide)) 10 =
      .ok (.registered ()) := by decide
  have hc := handled_answering (h := sampleStack)
    ⟨reset.set 10 (some (.registered ())) (by decide), sampleVm.cpu, sampleVm.rip⟩
  have hrun := (Run.nil.snoc (Vm.Step.register (v := sampleVm) ht)).snoc (.exit hf hc)
  exact ⟨_, hrun, exits_refine hrun, guest_resume hc⟩

end Runs

section Stop

/-- A processor in VMX root operation. -/
structure Host where
  /-- The registers and the memory. -/
  cpu : Cpu
  /-- The instruction pointer. -/
  rip : BitVec 64
  /-- `CR4`. -/
  cr4 : BitVec 64
  /-- Whether VMX is on. -/
  vmx : Bool

/-- The first part of `restore_arch_state_and_jump`: the registers. -/
def restoreRegs : List Instr :=
  [.mov .rsi .rsp, .load 0#64 .rdi .r15, .load 8#64 .rdi .r14, .load 16#64 .rdi .r13,
    .load 24#64 .rdi .r12, .load 32#64 .rdi .r11, .load 40#64 .rdi .r10, .load 48#64 .rdi .r9,
    .load 56#64 .rdi .r8, .load 72#64 .rdi .rsi, .load 80#64 .rdi .rbp, .load 88#64 .rdi .rdx,
    .load 96#64 .rdi .rcx, .load 104#64 .rdi .rbx, .load 112#64 .rdi .rax, .load 64#64 .rdi .rdi]

/-- `ret`. -/
def Host.ret (m : Host) : Host :=
  { m with
    cpu := m.cpu.set .rsp (m.cpu.reg .rsp + 8#64)
    rip := m.cpu.word (m.cpu.reg .rsp) }

/-- `restore_arch_state_and_jump`. -/
def restoreArchStateAndJump (m : Host) : Host :=
  let c := m.cpu.exec restoreRegs
  let m := { m with vmx := false }
  let c := c.push (c.reg .rax)
  let c := c.set .rax m.cr4
  let c := c.set .rax (c.reg .rax &&& ~~~(1#64 <<< 13))
  let m := { m with cr4 := c.reg .rax }
  let c := c.pop .rax
  { m with cpu := c }.ret

theorem exec_restoreRegs {c : Cpu} (hroom : (c.reg .rdi).toNat + 120 ≤ 2 ^ 64) :
    c.exec restoreRegs =
      ⟨(SavedRegs.read c.mem (c.reg .rdi).toNat).toRegs (c.reg .rsi), c.mem⟩ := by
  have hword : ∀ k < 120, c.word (c.reg .rdi + BitVec.ofNat 64 k) =
      c.mem.word ((c.reg .rdi).toNat + k) := by
    intro k hk
    rw [Cpu.word, BitVec.toNat_add, BitVec.toNat_ofNat]
    congr 1
    omega
  have hbase := hword 0 (by decide)
  rw [BitVec.add_zero] at hbase
  apply Cpu.ext
  · funext r
    cases r <;>
      simp [restoreRegs, Cpu.exec, Cpu.step, SavedRegs.toRegs, SavedRegs.read, hword, hbase]
  · rfl

/-- Stopping is transparent: the caller of `stop` goes on behind its call with all registers as they
were, outside of VMX operation and without the bit in `CR4` that allowed it. Only the word below its
stack pointer is lost. -/
theorem stop_restores {h : HostStack} {guest c : Cpu} (rip cr4 : BitVec 64)
    (hrdi : c.reg .rdi = (h.enter guest).reg .rdi) (hrsi : c.reg .rsi = guest.reg .rsp)
    (hregs : SavedRegs.read c.mem h.regsAt = .read (h.enter guest).mem h.regsAt)
    (hreturn : c.word (guest.reg .rsp) = guest.word (guest.reg .rsp))
    (hroom : 8 ≤ (guest.reg .rsp).toNat) :
    let m := restoreArchStateAndJump ⟨c, rip, cr4, true⟩
    m.cpu.reg = Function.update guest.reg .rsp (guest.reg .rsp + 8) ∧
      m.rip = guest.word (guest.reg .rsp) ∧ m.vmx = false ∧
      (∀ i, m.cr4.getLsbD i = (cr4.getLsbD i && decide (i ≠ 13))) ∧
      c.mem.SameOutside m.cpu.mem ((guest.reg .rsp).toNat - 8) (guest.reg .rsp).toNat := by
  obtain ⟨hsame, hrsp, hread, -⟩ := enter_spec h guest
  have hfits := h.fits
  have hat : (c.reg .rdi).toNat = h.regsAt := by rw [hrdi, hsame, hrsp]
  have hrestored : c.exec restoreRegs = ⟨guest.reg, c.mem⟩ := by
    rw [exec_restoreRegs (by rw [hat, HostStack.regsAt]; omega), hat, hregs, hread, hrsi,
      SavedRegs.toRegs_ofRegs, Function.update_eq_self]
  have hpopped := pop_set_push (c := ⟨guest.reg, c.mem⟩) (by decide : Reg.rax ≠ .rsp)
    (cr4 &&& ~~~(1#64 <<< 13))
  have haddr : (guest.reg .rsp - 8#64).toNat = (guest.reg .rsp).toNat - 8 := by
    have hlt := (guest.reg .rsp).isLt
    rw [BitVec.toNat_sub, BitVec.toNat_ofNat]
    omega
  rw [restoreArchStateAndJump, hrestored]
  simp only [Cpu.set_set, Cpu.reg_set_self, hpopped, Host.ret, haddr]
  refine ⟨rfl, ?_, trivial, fun i => ?_, ?_⟩
  · rw [← hreturn, Cpu.word, Memory.word_setWord_of_apart (by omega)]
    rfl
  · rw [BitVec.getLsbD_and, BitVec.getLsbD_not, BitVec.getLsbD_shiftLeft, BitVec.getLsbD_one]
    by_cases hi : i < 64
    · by_cases hbit : i = 13
      · simp [hbit]
      · simp [hi, hbit, show i < 13 ∨ i - 13 ≠ 0 by omega]
    · simp [hi, BitVec.getLsbD_of_ge cr4 i (by omega)]
  · refine Memory.SameOutside.setWord.mono le_rfl ?_
    omega

theorem stop_restores_caller :
    let m := restoreArchStateAndJump
      ⟨(sampleStack.enter sampleVm.cpu).set .rsi (sampleVm.cpu.reg .rsp), 0, 0x2020, true⟩
    m.cpu.reg = Function.update sampleVm.cpu.reg .rsp (sampleVm.cpu.reg .rsp + 8) ∧
      m.rip = sampleVm.cpu.word (sampleVm.cpu.reg .rsp) ∧ m.vmx = false := by
  obtain ⟨-, -, -, hsame⟩ := enter_spec sampleStack sampleVm.cpu
  have hreturn : ((sampleStack.enter sampleVm.cpu).set .rsi (sampleVm.cpu.reg .rsp)).word
      (sampleVm.cpu.reg .rsp) = sampleVm.cpu.word (sampleVm.cpu.reg .rsp) := by
    rw [Cpu.word_set]
    refine Memory.word_congr fun a _ ha => hsame a (Or.inl ?_)
    have hrsp : (sampleVm.cpu.reg .rsp).toNat = 0x1000 := by decide
    have hat : sampleStack.regsAt = 0x200f80 := by decide
    omega
  obtain ⟨hreg, hrip, hvmx, -⟩ := stop_restores 0 0x2020
    (Cpu.reg_set_of_ne _ (by decide) _) (Cpu.reg_set_self _ _ _) (by rw [Cpu.mem_set]) hreturn
    (by decide)
  exact ⟨hreg, hrip, hvmx⟩

end Stop

end Toyos.X86.Tinivisor
