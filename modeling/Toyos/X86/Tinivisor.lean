import Toyos.Core.Checked
import Toyos.Core.Run

/-!
# Dispatch of VM exits

The table of exit handlers is shared by all instances. It is filled by its
initializer, by `reset`, by registrations and by `start`. The initializer names the
default handler once, which fills the first slot only; the other slots are empty
functions until something is stored in them.
-/

namespace Toyos.X86.Tinivisor

open Toyos.Core

/-- Reasons for stopping. -/
inductive Fault where
  /-- A failed assertion. -/
  | assertion
  /-- An index outside the table. -/
  | outOfRange
  /-- A call of an empty function. -/
  | badFunctionCall
  deriving DecidableEq, Repr

/-- `vmx_exit_reason`. -/
abbrev ExitReason := BitVec 32

/-- The exit for an exception. -/
def exception : ExitReason := 0

/-- The exit that stops the virtual machine. -/
def vmcall : ExitReason := 18

/-- Functions that can be called at an exit; `F` are those the program registers. -/
inductive Callable (F : Type) where
  /-- `default_exit_handler`. -/
  | defaultExitHandler
  /-- `handle_vmcall`. -/
  | handleVmcall
  /-- A function of the program. -/
  | registered (f : F)
  deriving DecidableEq, Repr

/-- A table of functions, some of which are empty. -/
abbrev Handlers (F : Type) := Vector (Option (Callable F)) 256

variable {F : Type}

/-- The table at program start: the initializer gives the first slot alone. -/
def handlers : Handlers F := (Vector.replicate 256 none).set 0 (some .defaultExitHandler)

/-- `reset`. -/
def reset : Handlers F := .replicate 256 (some .defaultExitHandler)

/-- `register_handler`; the function it is given may be an empty one. -/
def registerHandler (t : Handlers F) (reason : ExitReason) (handler : Option F) :
    Except Fault (Handlers F) := do
  ensure (reason ≠ vmcall) Fault.assertion
  if h : reason.toNat < 256 then return t.set reason.toNat (handler.map .registered) h
  else throw .outOfRange

/-- What `start` does to the table. -/
def start (t : Handlers F) : Handlers F := t.set vmcall.toNat (some .handleVmcall) (by decide)

/-- The function that `exit_handler` calls. -/
def exitHandler (t : Handlers F) (reason : ExitReason) : Except Fault (Callable F) :=
  if h : reason.toNat < 256 then
    match t[reason.toNat] with
    | none => .error .badFunctionCall
    | some f => .ok f
  else .error .outOfRange

/-- What happens to the virtual machine. -/
inductive Event (F : Type) where
  /-- A registration. -/
  | register (reason : ExitReason) (handler : Option F)
  /-- A reset. -/
  | reset
  /-- A start. -/
  | start
  /-- An exit, with what is called then. -/
  | exit (reason : ExitReason) (outcome : Except Fault (Callable F))

/-- A step of the program. -/
inductive Step : Handlers F → Event F → Handlers F → Prop
  | register {t t' reason handler} (h : registerHandler t reason handler = .ok t') :
    Step t (.register reason handler) t'
  | reset {t} : Step t .reset reset
  | start {t} : Step t .start (start t)
  | exit {t reason} : Step t (.exit reason (exitHandler t reason)) t

section History

/-- What an event does to the handler that is registered for a reason. -/
def record (reason : ExitReason) (last : Option (Option F)) : Event F → Option (Option F)
  | .register reason' handler => if reason' = reason then some handler else last
  | .reset => none
  | .start => last
  | .exit _ _ => last

/-- The handler most recently registered for a reason since the last reset. -/
def lastRegistered (reason : ExitReason) (es : List (Event F)) : Option (Option F) :=
  es.foldl (record reason) none

/-- Whether an event is a reset. -/
def Event.isReset : Event F → Bool
  | .reset => true
  | _ => false

/-- What an exit has to call, if that is not an empty function. -/
def expected (reason : ExitReason) (es : List (Event F)) : Option (Callable F) :=
  match lastRegistered reason es with
  | some handler => handler.map .registered
  | none => some .defaultExitHandler

/-- A handler is registered that is not empty, or none is registered and the slot has been filled
by a reset or by the initializer. -/
def Covered (reason : ExitReason) (es : List (Event F)) : Prop :=
  (∃ f, lastRegistered reason es = some (some f)) ∨
    lastRegistered reason es = none ∧ (es.any Event.isReset = true ∨ reason = exception)

/-- What is in the slot for a reason. -/
def slot (reason : ExitReason) (es : List (Event F)) : Option (Callable F) :=
  match lastRegistered reason es with
  | some handler => handler.map .registered
  | none => if es.any Event.isReset ∨ reason = exception then some .defaultExitHandler else none

variable {reason : ExitReason} {es : List (Event F)}

theorem lastRegistered_append (e : Event F) :
    lastRegistered reason (es ++ [e]) = record reason (lastRegistered reason es) e := by
  rw [lastRegistered, List.foldl_append, List.foldl_cons, List.foldl_nil, lastRegistered]

theorem slot_reset : slot reason (es ++ [.reset]) = some .defaultExitHandler := by
  simp [slot, lastRegistered_append, record, Event.isReset]

/-- An event that is neither a reset nor a registration for the reason keeps the slot. -/
theorem slot_append {e : Event F} (hreset : e.isReset = false)
    (hrecord : ∀ last, record reason last e = last) : slot reason (es ++ [e]) = slot reason es := by
  rw [slot, lastRegistered_append, hrecord, List.any_append]
  simp [slot, hreset]

theorem slot_register (handler : Option F) :
    slot reason (es ++ [.register reason handler]) = handler.map .registered := by
  simp [slot, lastRegistered_append, record]

/-- The slot holds what an exit has to call exactly if the reason is covered. -/
theorem slot_expected_iff : (slot reason es).isSome ∧ slot reason es = expected reason es ↔
    Covered reason es := by
  rw [slot, expected, Covered]
  cases lastRegistered reason es with
  | none =>
    generalize es.any Event.isReset = wasReset
    by_cases hfilled : wasReset = true ∨ reason = exception
    · simp [hfilled]
    · simp [hfilled]
  | some handler => cases handler with
    | none => simp
    | some f => simp

end History

section Steps

variable {t t' : Handlers F} {reason : ExitReason} {e : Event F}

theorem registerHandler_eq_ok {handler : Option F} :
    registerHandler t reason handler = .ok t' ↔ reason ≠ vmcall ∧ ∃ h : reason.toNat < 256,
      t' = t.set reason.toNat (handler.map .registered) h := by
  rw [registerHandler, bind_eq_ok]
  simp only [ensure_eq_ok]
  by_cases h : reason.toNat < 256
  · simp [h, eq_comm]
  · simp [h]

/-- A call reaches what is in the slot. -/
theorem exitHandler_eq_ok {f : Callable F} (hsize : reason.toNat < 256) :
    exitHandler t reason = .ok f ↔ t[reason.toNat] = some f := by
  rw [exitHandler, dif_pos hsize]
  cases t[reason.toNat] with
  | none => simp
  | some g => simp

/-- One step keeps the slots as the events say. -/
theorem slots_of_step {es : List (Event F)} (hs : Step t e t')
    (h : ∀ (r : ExitReason) (hr : r.toNat < 256), r ≠ vmcall → t[r.toNat] = slot r es)
    (r : ExitReason) (hr : r.toNat < 256) (hcall : r ≠ vmcall) :
    t'[r.toNat] = slot r (es ++ [e]) := by
  cases hs with
  | @register _ reason handler hreg =>
    obtain ⟨-, hsize, rfl⟩ := registerHandler_eq_ok.mp hreg
    by_cases heq : reason = r
    · subst heq
      rw [Vector.getElem_set_self, slot_register]
    · have hne : reason.toNat ≠ r.toNat := fun hnat => heq (BitVec.toNat_inj.mp hnat)
      have hrecord : ∀ last, record r last (.register reason handler) = last := fun _ => if_neg heq
      rw [Vector.getElem_set_ne _ _ hne, slot_append rfl hrecord, h r hr hcall]
  | reset => rw [slot_reset, reset, Vector.getElem_replicate]
  | start =>
    have hne : vmcall.toNat ≠ r.toNat := fun hnat => hcall (BitVec.toNat_inj.mp hnat).symm
    rw [start, Vector.getElem_set_ne _ _ hne, slot_append rfl fun _ => rfl, h r hr hcall]
  | exit => rw [slot_append rfl fun _ => rfl, h r hr hcall]

/-- At program start only the first slot is filled. -/
theorem handlers_slot (r : ExitReason) (hr : r.toNat < 256) :
    (handlers : Handlers F)[r.toNat] = slot r [] := by
  by_cases hzero : r = exception
  · subst hzero
    rfl
  · have hne : 0 ≠ r.toNat := fun hnat => hzero (BitVec.toNat_inj.mp hnat.symm)
    rw [handlers, Vector.getElem_set_ne _ _ hne, Vector.getElem_replicate]
    simp [slot, lastRegistered, hzero]

/-- After every run the slots are as the events say. -/
theorem slots_of_run {es : List (Event F)} (h : Run Step handlers es t) (r : ExitReason)
    (hr : r.toNat < 256) (hcall : r ≠ vmcall) : t[r.toNat] = slot r es :=
  Run.history_invariant
    (fun es t => ∀ (r : ExitReason) (hr : r.toNat < 256), r ≠ vmcall → t[r.toNat] = slot r es)
    (fun r hr _ => handlers_slot r hr) (fun _ _ _ _ _ hI hs => slots_of_step hs hI) h r hr hcall

end Steps

/-- An exit calls the handler last registered for its reason, or the default handler if there is
none, exactly if the handler is not empty and the slot of a reason without one has been filled. -/
theorem exit_dispatched_iff {before after : List (Event F)} {t : Handlers F} (reason : ExitReason)
    (outcome : Except Fault (Callable F)) (hcall : reason ≠ vmcall) (hsize : reason.toNat < 256)
    (h : Run Step handlers (before ++ .exit reason outcome :: after) t) :
    (∃ f, expected reason before = some f ∧ outcome = .ok f) ↔ Covered reason before := by
  obtain ⟨s, hbefore, hrest⟩ := h.split
  obtain ⟨s', hexit, -⟩ := hrest.cons_inv
  have hslot := slots_of_run hbefore reason hsize hcall
  cases hexit with
  | exit =>
    simp only [exitHandler_eq_ok hsize, hslot, ← slot_expected_iff]
    constructor
    · rintro ⟨f, hexpected, hf⟩
      rw [hf, hexpected]
      exact ⟨rfl, rfl⟩
    · rintro ⟨hsome, heq⟩
      obtain ⟨f, hf⟩ := Option.isSome_iff_exists.mp hsome
      exact ⟨f, heq ▸ hf, hf⟩

/-- A handler registered behind a reset. -/
theorem exit_dispatched_registered :
    Covered 10 [.reset, .register 10 (some 7)] ∧
      expected 10 [.reset, .register 10 (some 7)] = some (.registered 7) := by
  have hcovered : Covered 10 [.reset, .register 10 (some 7)] := .inl ⟨7, rfl⟩
  have hrun : Run Step handlers ([.reset, .register 10 (some 7)] ++
      [.exit 10 (.ok (.registered 7))]) _ :=
    (((Run.nil.snoc .reset).snoc (.register rfl)).snoc .exit)
  obtain ⟨f, hf, hcalled⟩ :=
    (exit_dispatched_iff 10 _ (by decide) (by decide) hrun).mpr hcovered
  exact ⟨hcovered, hf.trans (congrArg some (Except.ok.inj hcalled).symm)⟩

/-- A program that does not begin with a reset calls an empty function at an exit for which it has
registered nothing. -/
theorem exit_empty_handler :
    Run Step (handlers : Handlers ℕ) [.start, .exit 10 (.error .badFunctionCall)]
        (start handlers) ∧
      expected 10 ([.start] : List (Event ℕ)) = some .defaultExitHandler :=
  ⟨(Run.nil.snoc .start).snoc .exit, rfl⟩

end Toyos.X86.Tinivisor
