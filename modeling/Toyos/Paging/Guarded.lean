import Toyos.Paging.Atomic

/-!
# Setters that depend on the page size

The setters that apply to large pages only, or to tables only, first test the
page size with two loads and then run `set_bits`. Other agents may change the
entry between the loads and before the exchange. The test is not repeated by the
exchange, so whether the setter acts atomically depends on what the others do.
-/

namespace Toyos.Paging

open Toyos.Core Toyos.Util

/-- The page size that a setter requires. -/
inductive Guard where
  /-- The entry maps a large page. -/
  | big
  /-- The entry does not map a large page. -/
  | small
  deriving DecidableEq, Repr

/-- The result of the size test with which the setter goes on. -/
def Guard.required : Guard → Bool
  | .big => true
  | .small => false

/-- Whether an entry has the required page size. -/
def Guard.Meets (g : Guard) (raw : BitVec 64) : Prop := Directory.isLarge raw = g.required

instance (g : Guard) (raw : BitVec 64) : Decidable (g.Meets raw) :=
  inferInstanceAs (Decidable (Directory.isLarge raw = g.required))

/-- A call of `set_bits_if_big_ps` or `set_bits_if_small_ps`. -/
structure GuardedCall where
  /-- The required page size. -/
  guard : Guard
  /-- The update. -/
  call : SetBits
  deriving DecidableEq, Repr

/-- The setters of a directory entry that depend on the page size. -/
inductive GuardedSetter where
  | setDirty (dirty : Bool)
  | setGlobal (global : Bool)
  | setPat (pat : Bool)
  | setProtKey (key : BitVec 8)
  | setPage (addr : BitVec 64)
  /-- The setters `set_pt` and `set_pdir`. -/
  | setTable (addr : BitVec 64)
  deriving DecidableEq, Repr

namespace GuardedSetter

/-- The setter among all setters of a directory entry. -/
def toSetter : GuardedSetter → Directory.Setter
  | setDirty dirty => .setDirty dirty
  | setGlobal global => .setGlobal global
  | setPat pat => .setPat pat
  | setProtKey key => .setProtKey key
  | setPage addr => .setPage addr
  | setTable addr => .setTable addr

/-- The call that the setter makes. -/
def call (level : Directory.Level) : GuardedSetter → GuardedCall
  | setDirty dirty => ⟨.big, dMask, times dirty dMask⟩
  | setGlobal global => ⟨.big, glMask, times global glMask⟩
  | setPat pat => ⟨.big, Directory.patMask, times pat Directory.patMask⟩
  | setProtKey key => ⟨.big, protKeyMask, keyBits key⟩
  | setPage addr => ⟨.big, Directory.lpageMask level, addr⟩
  | setTable addr => ⟨.small, addrMask, addr⟩

end GuardedSetter

/-- Where a setter is. -/
inductive SetterPhase where
  /-- Before the load of `is_present`. -/
  | present
  /-- Before the load of the page-size bit. -/
  | size
  /-- Before the load of `set_bits`. -/
  | load
  /-- Before the exchange of `set_bits`. -/
  | exchange (expected : BitVec 64)
  /-- Behind the call. -/
  | returned (result : Bool)
  deriving DecidableEq, Repr

/-- What a setter does when it knows the page size. -/
def Guard.afterTest (g : Guard) (large : Bool) : SetterPhase :=
  if large = g.required then .load else .returned false

/-- One atomic step of a setter: the entry afterwards, and where the setter is. -/
def GuardedCall.step (c : GuardedCall) (raw : BitVec 64) :
    SetterPhase → Option (BitVec 64 × SetterPhase)
  | .present => some (raw, if isPresent raw then .size else c.guard.afterTest false)
  | .size => some (raw, c.guard.afterTest (test raw Directory.psMask))
  | .load => some (raw, .exchange raw)
  | .exchange expected =>
    if raw = expected then some (c.call.desired expected, .returned true)
    else some (raw, .load)
  | .returned _ => none

/-- A concurrent update of the entry. -/
inductive Update where
  /-- A call of `set_bits`. -/
  | setBits (call : SetBits)
  /-- An assignment of the whole entry. -/
  | assign (value : BitVec 64)
  deriving DecidableEq, Repr

/-- The value that an update exchanges the loaded one for. -/
def Update.desired : Update → BitVec 64 → BitVec 64
  | .setBits call => call.desired
  | .assign value => fun _ => value

/-- The entry with the agents that update it, and one setter. -/
structure Contended (ι : Type*) where
  /-- The entry and the other agents. -/
  entry : Exchange.State ι (BitVec 64)
  /-- Where the setter is. -/
  setter : SetterPhase

/-- The atomic steps. -/
inductive ContendedEvent (ι : Type*) where
  /-- A step of the setter. -/
  | setter
  /-- A step of another agent or of the hardware. -/
  | other (e : Exchange.Event ι HardwareUpdate)
  deriving DecidableEq, Repr

section System

variable {ι : Type*} [DecidableEq ι]

/-- What an atomic step does. -/
def contendedStep (updates : ι → Update) (c : GuardedCall) (s : Contended ι) :
    ContendedEvent ι → Option (Contended ι)
  | .setter => (c.step s.entry.value s.setter).map fun (raw, setter) =>
      ⟨{ s.entry with value := raw }, setter⟩
  | .other e => (Exchange.step (fun a => (updates a).desired) HardwareUpdate.effect s.entry e).map
      fun entry => { s with entry }

/-- An interleaving of a setter with other agents. -/
def ContendedRun (updates : ι → Update) (c : GuardedCall) :
    Contended ι → List (ContendedEvent ι) → Contended ι → Prop :=
  Run fun s e t => contendedStep updates c s e = some t

/-- The setter has not returned yet. -/
def Contended.InCall (s : Contended ι) : Prop := ∀ result, s.setter ≠ .returned result

/-- At some instant of the call the entry had another page size than the required one. -/
def MetOtherSize (updates : ι → Update) (c : GuardedCall) (init : Contended ι)
    (es : List (ContendedEvent ι)) (t : Contended ι) : Prop :=
  Run.Sometime (fun s e t => contendedStep updates c s e = some t) init es t fun s =>
    s.InCall ∧ ¬c.guard.Meets s.entry.value

/-- In an interleaving the setter has acted atomically. -/
structure ActsAtomically (updates : ι → Update) (c : GuardedCall) (init : Contended ι)
    (es : List (ContendedEvent ι)) (t : Contended ι) : Prop where
  /-- At the exchange that makes the setter return true, the entry has the required page size. -/
  effective : ∀ before after s s', es = before ++ .setter :: after →
    ContendedRun updates c init before s → contendedStep updates c s .setter = some s' →
      s'.setter = .returned true → c.guard.Meets s.entry.value
  /-- If the setter has returned false, the entry had another page size during the call. -/
  refused : t.setter = .returned false → MetOtherSize updates c init es t

end System

/-- The update does not disturb a setter: for setters of large pages it takes away neither the
present nor the page-size bit; for setters of tables it does not raise the page-size bit, and
raises the present bit only together with clearing the page-size bit. -/
def Update.Harmless : Guard → Update → Prop
  | .big, .setBits call => ∀ i ∈ [0, 7], call.clrMask.getLsbD i = true →
      call.setMask.getLsbD i = true
  | .big, .assign value => value.getLsbD 0 = true ∧ value.getLsbD 7 = true
  | .small, .setBits call => call.setMask.getLsbD 7 = false ∧
      (call.setMask.getLsbD 0 = true → call.clrMask.getLsbD 7 = true)
  | .small, .assign value => value.getLsbD 7 = false

section Undisturbed

variable {g : Guard} {raw raw' : BitVec 64}

theorem test_psMask : test raw Directory.psMask = raw.getLsbD 7 := test_maskBits

theorem Guard.meets_big : Guard.big.Meets raw ↔ raw.getLsbD 0 = true ∧ raw.getLsbD 7 = true := by
  rw [Guard.Meets, Guard.required, Directory.isLarge_eq, Bool.and_eq_true]

theorem Guard.meets_small :
    Guard.small.Meets raw ↔ ¬(raw.getLsbD 0 = true ∧ raw.getLsbD 7 = true) := by
  rw [Guard.Meets, Guard.required, Directory.isLarge_eq, ← Bool.and_eq_true, Bool.not_eq_true]

/-- With the required page size the setter goes on. -/
theorem Guard.Meets.afterTest (h : g.Meets raw) :
    g.afterTest (Directory.isLarge raw) = .load := if_pos h

/-- A change of the entry that cannot mislead a setter. -/
def Guard.Undisturbed (raw raw' : BitVec 64) : Guard → Prop
  | .big => ∀ i ∈ [0, 7], raw.getLsbD i = true → raw'.getLsbD i = true
  | .small => (raw'.getLsbD 7 = true → raw.getLsbD 7 = true) ∧
      (Guard.small.Meets raw → Guard.small.Meets raw')

/-- Bits that do not change mislead no setter. -/
theorem Guard.undisturbed_of_eq (h : ∀ i ∈ [0, 7], raw'.getLsbD i = raw.getLsbD i) :
    g.Undisturbed raw raw' := by
  have hzero := h 0 (by simp)
  have hseven := h 7 (by simp)
  cases g with
  | big => exact fun i hi hbit => (h i hi).trans hbit
  | small =>
    refine ⟨fun hbit => hseven ▸ hbit, fun hmeets => ?_⟩
    rw [Guard.meets_small] at hmeets ⊢
    rwa [hzero, hseven]

/-- The required page size of a large page is kept. -/
theorem Guard.Undisturbed.meets (h : g.Undisturbed raw raw') (hmeets : g.Meets raw) :
    g.Meets raw' := by
  cases g with
  | big =>
    rw [Guard.meets_big] at hmeets ⊢
    exact ⟨h 0 (by simp) hmeets.1, h 7 (by simp) hmeets.2⟩
  | small => exact h.2 hmeets

/-- The hardware changes neither the present nor the page-size bit. -/
theorem HardwareUpdate.undisturbed (k : HardwareUpdate) : g.Undisturbed raw (k.effect raw) := by
  refine Guard.undisturbed_of_eq fun i hi => ?_
  have hmask : k.mask.getLsbD i = false := by
    rcases k with ⟨accessed, dirty⟩
    revert i accessed dirty
    decide
  rw [effect, BitVec.getLsbD_or, hmask, Bool.or_false]

/-- A harmless update misleads no setter. -/
theorem Update.Harmless.undisturbed {u : Update} (h : u.Harmless g) :
    g.Undisturbed raw (u.desired raw) := by
  cases g with
  | big =>
    cases u with
    | setBits call =>
      intro i hi hbit
      rw [desired, SetBits.desired, getLsbD_setBits, hbit]
      cases hclr : call.clrMask.getLsbD i with
      | false => rfl
      | true => rw [h i hi hclr, Bool.or_true]
    | assign value =>
      intro i hi _
      rcases List.mem_pair.mp hi with rfl | rfl
      · exact h.1
      · exact h.2
  | small =>
    cases u with
    | setBits call =>
      obtain ⟨hseven, hzero⟩ := h
      have hps : (SetBits.desired call raw).getLsbD 7 =
          (raw.getLsbD 7 && !call.clrMask.getLsbD 7) := by
        rw [SetBits.desired, getLsbD_setBits, hseven, Bool.or_false]
      refine ⟨fun hbit => ?_, fun hmeets => ?_⟩
      · rw [desired, hps, Bool.and_eq_true] at hbit
        exact hbit.1
      · rw [Guard.meets_small] at hmeets ⊢
        rw [desired, hps, Bool.and_eq_true, Bool.not_eq_true']
        rintro ⟨hpresent, hlarge, hkept⟩
        refine hmeets ⟨?_, hlarge⟩
        rw [SetBits.desired, getLsbD_setBits] at hpresent
        cases hset : call.setMask.getLsbD 0 with
        | false =>
          rw [hset, Bool.or_false, Bool.and_eq_true] at hpresent
          exact hpresent.1
        | true =>
          rw [hzero hset] at hkept
          cases hkept
    | assign value =>
      have hps : value.getLsbD 7 = false := h
      refine ⟨fun hbit => ?_, fun _ => ?_⟩
      · rw [desired, hps] at hbit
        cases hbit
      · rw [Guard.meets_small, desired, hps]
        simp

end Undisturbed

section Steps

variable {ι : Type*} [DecidableEq ι] {updates : ι → Update} {c : GuardedCall}
  {init s t : Contended ι} {e : ContendedEvent ι} {es : List (ContendedEvent ι)}

/-- What a step can do. -/
theorem contendedStep_cases (h : contendedStep updates c s e = some t) :
    (∃ e', e = .other e' ∧ t.setter = s.setter ∧
      Exchange.step (fun a => (updates a).desired) HardwareUpdate.effect s.entry e' =
        some t.entry) ∨
    (e = .setter ∧ t.entry = s.entry ∧
      (s.setter = .present ∧
          t.setter = (if isPresent s.entry.value then .size else c.guard.afterTest false) ∨
        s.setter = .size ∧ t.setter = c.guard.afterTest (test s.entry.value Directory.psMask) ∨
        s.setter = .load ∧ t.setter = .exchange s.entry.value ∨
        ∃ expected, s.setter = .exchange expected ∧ t.setter = .load)) ∨
    (e = .setter ∧ s.setter = .exchange s.entry.value ∧ t.setter = .returned true) := by
  cases e with
  | other e' =>
    obtain ⟨entry, hentry, rfl⟩ := Option.map_eq_some_iff.mp h
    exact .inl ⟨e', rfl, rfl, hentry⟩
  | setter =>
    obtain ⟨⟨raw, phase⟩, hstep, rfl⟩ := Option.map_eq_some_iff.mp h
    cases hphase : s.setter with
    | present =>
      rw [hphase] at hstep
      cases hstep
      exact .inr (.inl ⟨rfl, rfl, .inl ⟨rfl, rfl⟩⟩)
    | size =>
      rw [hphase] at hstep
      cases hstep
      exact .inr (.inl ⟨rfl, rfl, .inr (.inl ⟨rfl, rfl⟩)⟩)
    | load =>
      rw [hphase] at hstep
      cases hstep
      exact .inr (.inl ⟨rfl, rfl, .inr (.inr (.inl ⟨rfl, rfl⟩))⟩)
    | exchange expected =>
      rw [hphase, GuardedCall.step] at hstep
      split at hstep
      · rename_i hvalue
        cases hstep
        exact .inr (.inr ⟨rfl, by rw [hvalue], rfl⟩)
      · cases hstep
        exact .inr (.inl ⟨rfl, rfl, .inr (.inr (.inr ⟨expected, rfl, rfl⟩))⟩)
    | returned result =>
      rw [hphase] at hstep
      cases hstep

/-- Steps of harmless agents mislead no setter. -/
theorem undisturbed_of_step {e' : Exchange.Event ι HardwareUpdate}
    (hharmless : ∀ a, (updates a).Harmless c.guard)
    (h : Exchange.step (fun a => (updates a).desired) HardwareUpdate.effect s.entry e' =
      some t.entry) : c.guard.Undisturbed s.entry.value t.entry.value := by
  rcases Exchange.step_cases h with
    ⟨a, -, -, ht⟩ | ⟨a, -, -, ht⟩ | ⟨a, expected, -, -, -, ht⟩ | ⟨k, -, ht⟩
  · rw [ht]
    exact Guard.undisturbed_of_eq fun _ _ => rfl
  · rw [ht]
    exact (hharmless a).undisturbed
  · rw [ht]
    exact Guard.undisturbed_of_eq fun _ _ => rfl
  · rw [ht]
    exact k.undisturbed

variable (updates c) in
/-- What holds along an interleaving with harmless agents. Between the two loads, the entry stays
present for a setter of large pages; and if a setter of tables is going to find the page-size
bit, the entry has mapped a large page during the call. Behind the test the entry keeps the
required page size. -/
def Undeceived (init : Contended ι) (es : List (ContendedEvent ι)) (s : Contended ι) : Prop :=
  match s.setter with
  | .present => True
  | .size => (c.guard = .big → s.entry.value.getLsbD 0 = true) ∧
      (c.guard = .small → s.entry.value.getLsbD 7 = true → MetOtherSize updates c init es s)
  | .load => c.guard.Meets s.entry.value
  | .exchange _ => c.guard.Meets s.entry.value
  | .returned result => result = false → MetOtherSize updates c init es s

/-- Steps of other agents do not deceive the setter. -/
theorem Undeceived.other {e' : Exchange.Event ι HardwareUpdate}
    (hharmless : ∀ a, (updates a).Harmless c.guard) (h : Undeceived updates c init es s)
    (hstep : contendedStep updates c s (.other e') = some t) (hsetter : t.setter = s.setter)
    (hentry : Exchange.step (fun a => (updates a).desired) HardwareUpdate.effect s.entry e' =
      some t.entry) : Undeceived updates c init (es ++ [.other e']) t := by
  have hkeep := undisturbed_of_step hharmless hentry
  unfold Undeceived at h ⊢
  rw [hsetter]
  cases hphase : s.setter with
  | present => trivial
  | size =>
    rw [hphase] at h
    refine ⟨fun hbig => ?_, fun hsmall hbit => ?_⟩
    · rw [hbig] at hkeep
      exact hkeep 0 (by simp) (h.1 hbig)
    · rw [hsmall] at hkeep
      exact (h.2 hsmall (hkeep.1 hbit)).snoc hstep
  | load =>
    rw [hphase] at h
    exact hkeep.meets h
  | exchange expected =>
    rw [hphase] at h
    exact hkeep.meets h
  | returned result =>
    rw [hphase] at h
    exact fun hfalse => (h hfalse).snoc hstep

/-- The decision of the setter is right if the test is right about the current page size, or else
about an earlier one. -/
theorem Undeceived.decided {large : Bool} (hentry : t.entry = s.entry)
    (hsetter : t.setter = c.guard.afterTest large)
    (hstep : contendedStep updates c s .setter = some t)
    (hgo : large = c.guard.required → c.guard.Meets s.entry.value)
    (hstop : large ≠ c.guard.required → MetOtherSize updates c init es s) :
    Undeceived updates c init (es ++ [.setter]) t := by
  rw [Undeceived, hsetter, Guard.afterTest, hentry]
  by_cases hlarge : large = c.guard.required
  · rw [if_pos hlarge]
    exact hgo hlarge
  · rw [if_neg hlarge]
    exact fun _ => (hstop hlarge).snoc hstep

/-- A setter that knows its entry to have another page size now has met it. -/
theorem metOtherSize_of_not_meets (hrun : ContendedRun updates c init es s) (hcall : s.InCall)
    (h : ¬c.guard.Meets s.entry.value) : MetOtherSize updates c init es s :=
  Run.sometime_last hrun ⟨hcall, h⟩

/-- The first load finds the entry present, or decides. -/
theorem Undeceived.present_step (hrun : ContendedRun updates c init es s) (hcall : s.InCall)
    (hstep : contendedStep updates c s .setter = some t) (hentry : t.entry = s.entry)
    (hsetter : t.setter = if isPresent s.entry.value then .size else c.guard.afterTest false) :
    Undeceived updates c init (es ++ [.setter]) t := by
  rw [isPresent_eq] at hsetter
  by_cases hpresent : s.entry.value.getLsbD 0 = true
  · rw [if_pos hpresent] at hsetter
    rw [Undeceived, hsetter, hentry]
    refine ⟨fun _ => hpresent, fun hsmall hbit => ?_⟩
    refine Run.Sometime.snoc (metOtherSize_of_not_meets hrun hcall ?_) hstep
    rw [hsmall, Guard.meets_small, not_not]
    exact ⟨hpresent, hbit⟩
  · rw [if_neg hpresent] at hsetter
    refine Undeceived.decided hentry hsetter hstep (fun hgo => ?_) fun hstop => ?_
    · cases hguard : c.guard with
      | big =>
        rw [hguard] at hgo
        cases hgo
      | small =>
        rw [Guard.meets_small]
        exact fun hlarge => hpresent hlarge.1
    · refine metOtherSize_of_not_meets hrun hcall ?_
      cases hguard : c.guard with
      | big =>
        rw [Guard.meets_big]
        exact fun hlarge => hpresent hlarge.1
      | small =>
        rw [hguard] at hstop
        exact absurd rfl hstop

/-- The second load decides. -/
theorem Undeceived.size_step (h : Undeceived updates c init es s)
    (hrun : ContendedRun updates c init es s) (hcall : s.InCall)
    (hstep : contendedStep updates c s .setter = some t) (hentry : t.entry = s.entry)
    (hphase : s.setter = .size)
    (hsetter : t.setter = c.guard.afterTest (test s.entry.value Directory.psMask)) :
    Undeceived updates c init (es ++ [.setter]) t := by
  rw [Undeceived, hphase] at h
  rw [test_psMask] at hsetter
  refine Undeceived.decided hentry hsetter hstep (fun hgo => ?_) fun hstop => ?_
  · cases hguard : c.guard with
    | big =>
      rw [hguard] at hgo
      rw [Guard.meets_big]
      exact ⟨h.1 hguard, hgo⟩
    | small =>
      rw [hguard] at hgo
      rw [Guard.meets_small, hgo]
      simp [Guard.required]
  · cases hguard : c.guard with
    | big =>
      rw [hguard] at hstop
      refine metOtherSize_of_not_meets hrun hcall ?_
      rw [hguard, Guard.meets_big]
      exact fun hlarge => hstop hlarge.2
    | small =>
      rw [hguard] at hstop
      exact h.2 hguard (by simpa [Guard.required] using hstop)

/-- No step deceives the setter if all other agents are harmless. -/
theorem Undeceived.step (hharmless : ∀ a, (updates a).Harmless c.guard)
    (hrun : ContendedRun updates c init es s) (h : Undeceived updates c init es s)
    (hstep : contendedStep updates c s e = some t) :
    Undeceived updates c init (es ++ [e]) t := by
  rcases contendedStep_cases hstep with
    ⟨e', rfl, hsetter, hentry⟩ | ⟨rfl, hentry, hphases⟩ | ⟨rfl, -, htrue⟩
  · exact h.other hharmless hstep hsetter hentry
  · rcases hphases with ⟨hphase, hsetter⟩ | ⟨hphase, hsetter⟩ | ⟨hphase, hsetter⟩ |
      ⟨expected, hphase, hsetter⟩
    · exact Undeceived.present_step hrun (fun _ => by simp [hphase]) hstep hentry hsetter
    · exact h.size_step hrun (fun _ => by simp [hphase]) hstep hentry hphase hsetter
    · rw [Undeceived, hphase] at h
      rw [Undeceived, hsetter, hentry]
      exact h
    · rw [Undeceived, hphase] at h
      rw [Undeceived, hsetter, hentry]
      exact h
  · rw [Undeceived, htrue]
    exact fun hfalse => by cases hfalse

/-- Among harmless agents the setter is never deceived. -/
theorem undeceived (hharmless : ∀ a, (updates a).Harmless c.guard)
    (hinit : init.setter = .present) (h : ContendedRun updates c init es s) :
    Undeceived updates c init es s := by
  refine h.history_invariant (Undeceived updates c init) ?_ fun es s e t hrun hs hstep =>
    hs.step hharmless hrun hstep
  rw [Undeceived, hinit]
  trivial

theorem Guard.afterTest_ne_returned_true (g : Guard) (large : Bool) :
    g.afterTest large ≠ .returned true := by
  unfold afterTest
  split <;> simp

/-- A setter returns true at its successful exchange only. -/
theorem exchange_of_returned_true (hstep : contendedStep updates c s .setter = some t)
    (htrue : t.setter = .returned true) : s.setter = .exchange s.entry.value := by
  rcases contendedStep_cases hstep with ⟨e', he, -⟩ | ⟨-, -, hphases⟩ | ⟨-, hphase, -⟩
  · cases he
  · rw [htrue] at hphases
    rcases hphases with ⟨-, hsetter⟩ | ⟨-, hsetter⟩ | ⟨-, hsetter⟩ | ⟨_, -, hsetter⟩
    · split at hsetter
      · cases hsetter
      · exact absurd hsetter.symm (c.guard.afterTest_ne_returned_true _)
    · exact absurd hsetter.symm (c.guard.afterTest_ne_returned_true _)
    · cases hsetter
    · cases hsetter
  · exact hphase

/-- Among harmless agents the setter acts atomically. -/
theorem actsAtomically_of_harmless (hharmless : ∀ a, (updates a).Harmless c.guard)
    (hinit : init.setter = .present) (h : ContendedRun updates c init es t) :
    ActsAtomically updates c init es t := by
  refine ⟨fun before after s s' _ hbefore hstep htrue => ?_, fun hfalse => ?_⟩
  · have hs := undeceived hharmless hinit hbefore
    rwa [Undeceived, exchange_of_returned_true hstep htrue] at hs
  · have ht := undeceived hharmless hinit h
    rw [Undeceived, hfalse] at ht
    exact ht rfl

/-- A setter while no agent is in the middle of an update. -/
def atStart (raw : BitVec 64) (setter : SetterPhase) : Contended ι := ⟨Exchange.start raw, setter⟩

/-- An agent has loaded the entry. -/
def afterLoad (a : ι) (raw : BitVec 64) (setter : SetterPhase) : Contended ι :=
  ⟨⟨raw, Function.update (fun _ => .ready) a (.loaded raw)⟩, setter⟩

/-- An agent has updated the entry. -/
def afterUpdate (updates : ι → Update) (a : ι) (raw : BitVec 64) (setter : SetterPhase) :
    Contended ι :=
  ⟨⟨(updates a).desired raw, Function.update (fun _ => .ready) a .finished⟩, setter⟩

theorem step_load (a : ι) (raw : BitVec 64) (setter : SetterPhase) :
    contendedStep updates c (atStart raw setter) (.other (.load a)) =
      some (afterLoad a raw setter) := rfl

theorem step_succeed (a : ι) (raw : BitVec 64) (setter : SetterPhase) :
    contendedStep updates c (afterLoad a raw setter) (.other (.succeed a)) =
      some (afterUpdate updates a raw setter) := by
  simp [contendedStep, Exchange.step, afterLoad, afterUpdate]

/-- Without interference the test is right about the page size. -/
theorem run_test (raw : BitVec 64) : ∃ es, (∀ e ∈ es, e = .setter) ∧
    ContendedRun updates c (atStart raw .present : Contended ι) es
      (atStart raw (c.guard.afterTest (Directory.isLarge raw))) := by
  cases hpresent : isPresent raw with
  | true =>
    refine ⟨[.setter, .setter], by simp, Run.of_foldlM _ (fun _ _ _ hs => hs) ?_⟩
    simp [contendedStep, GuardedCall.step, atStart, Exchange.start, Directory.isLarge, hpresent]
  | false =>
    refine ⟨[.setter], by simp, Run.of_foldlM _ (fun _ _ _ hs => hs) ?_⟩
    simp [contendedStep, GuardedCall.step, atStart, Exchange.start, Directory.isLarge, hpresent]

/-- A setter returns true when it finds the value it has loaded. -/
theorem step_exchange (h : s.setter = .exchange s.entry.value) :
    contendedStep updates c s .setter =
      some ⟨{ s.entry with value := c.call.desired s.entry.value }, .returned true⟩ := by
  rw [contendedStep, h, GuardedCall.step, if_pos rfl]
  rfl

/-- If the setter always acts atomically, no update changes the required page size. -/
theorem meets_desired_of_atomic
    (hatomic : ∀ init es t, init.setter = .present → ContendedRun updates c init es t →
      ActsAtomically updates c init es t) (a : ι) {raw : BitVec 64} (h : c.guard.Meets raw) :
    c.guard.Meets ((updates a).desired raw) := by
  obtain ⟨es, -, htest⟩ : ∃ es, (∀ e ∈ es, e = .setter) ∧
      ContendedRun updates c (atStart raw .present) es
        (atStart raw (c.guard.afterTest (Directory.isLarge raw))) := run_test raw
  rw [h.afterTest] at htest
  have hload : contendedStep updates c (afterUpdate updates a raw .load) .setter =
      some (afterUpdate updates a raw (.exchange ((updates a).desired raw))) := rfl
  have hbefore := ((htest.snoc (step_load a raw .load)).snoc (step_succeed a raw .load)).snoc hload
  have hexchange : contendedStep updates c
      (afterUpdate updates a raw (.exchange ((updates a).desired raw))) .setter = some _ :=
    step_exchange rfl
  exact (hatomic _ _ _ rfl (hbefore.snoc hexchange)).effective _ [] _ _ rfl hbefore hexchange rfl

/-- If a setter of tables always acts atomically, no update raises the page-size bit of a present
entry: otherwise its two loads see a present entry and a page-size bit although the entry never
maps a large page. -/
theorem ps_desired_of_atomic (hguard : c.guard = .small)
    (hatomic : ∀ init es t, init.setter = .present → ContendedRun updates c init es t →
      ActsAtomically updates c init es t) (a : ι) :
    ((updates a).desired 0x1#64).getLsbD 7 = false := by
  rw [Bool.eq_false_iff]
  intro hbit
  have hfirst : contendedStep updates c (atStart 0x1#64 .present : Contended ι) .setter =
      some (atStart 0x1#64 .size) := by
    have hpresent : isPresent 0x1#64 = true := by decide
    simp [contendedStep, GuardedCall.step, atStart, Exchange.start, hpresent]
  have hload : contendedStep updates c (atStart 0x1#64 .size) (.other (.load a)) =
      some (afterLoad a 0x1#64 .size) := step_load a _ _
  have hsucceed : contendedStep updates c (afterLoad a 0x1#64 .size) (.other (.succeed a)) =
      some (afterUpdate updates a 0x1#64 .size) := step_succeed a _ _
  have hlast : contendedStep updates c (afterUpdate updates a 0x1#64 .size) .setter =
      some (afterUpdate updates a 0x1#64 (.returned false)) := by
    simp [contendedStep, GuardedCall.step, afterUpdate, test_psMask, hbit, hguard,
      Guard.afterTest, Guard.required]
  have hrun : ContendedRun updates c (atStart 0x1#64 .present)
      [.setter, .other (.load a), .other (.succeed a), .setter]
      (afterUpdate updates a 0x1#64 (.returned false)) :=
    Run.cons hfirst (Run.cons hload (Run.cons hsucceed (Run.snoc .nil hlast)))
  have hmeets : c.guard.Meets 0x1#64 := by
    rw [hguard, Guard.meets_small]
    decide
  rcases ((hatomic _ _ _ rfl hrun).refused rfl).next hfirst with ⟨-, hother⟩ | hmet
  · exact hother hmeets
  rcases hmet.next hload with ⟨-, hother⟩ | hmet
  · exact hother hmeets
  rcases hmet.next hsucceed with ⟨-, hother⟩ | hmet
  · exact hother hmeets
  rcases hmet.next hlast with ⟨-, hother⟩ | hmet
  · exact hother (meets_desired_of_atomic hatomic a hmeets)
  exact hmet.nil_inv.1 false rfl

/-- Updates that keep the page size of a large page are harmless for its setters. -/
theorem harmless_big_of_meets {u : Update} (h : Guard.big.Meets (u.desired 0x81#64)) :
    u.Harmless .big := by
  rw [Guard.meets_big] at h
  cases u with
  | setBits call =>
    have hbit {i : ℕ} (hone : (0x81#64).getLsbD i = true)
        (hi : (SetBits.desired call 0x81#64).getLsbD i = true)
        (hclr : call.clrMask.getLsbD i = true) : call.setMask.getLsbD i = true := by
      rwa [SetBits.desired, getLsbD_setBits, hone, hclr, Bool.not_true, Bool.and_false,
        Bool.false_or] at hi
    intro i hi
    rcases List.mem_pair.mp hi with rfl | rfl
    · exact hbit (by decide) h.1
    · exact hbit (by decide) h.2
  | assign value => exact h

/-- Updates that keep tables from becoming large pages, and do not raise the page-size bit of a
present entry, are harmless for setters of tables. -/
theorem harmless_small_of_meets {u : Update} (h : Guard.small.Meets (u.desired 0x80#64))
    (hps : (u.desired 0x1#64).getLsbD 7 = false) : u.Harmless .small := by
  cases u with
  | setBits call =>
    rw [Guard.meets_small] at h
    have hseven : call.setMask.getLsbD 7 = false := by
      rw [Update.desired, SetBits.desired, getLsbD_setBits, Bool.or_eq_false_iff] at hps
      exact hps.2
    refine ⟨hseven, fun hzero => ?_⟩
    by_contra hclr
    refine h ⟨?_, ?_⟩
    · rw [Update.desired, SetBits.desired, getLsbD_setBits, hzero, Bool.or_true]
    · rw [Update.desired, SetBits.desired, getLsbD_setBits, Bool.eq_false_iff.mpr hclr, hseven]
      decide
  | assign value => exact hps

/-- The call of a setter is made of its field, its value and the page size it applies to. -/
theorem GuardedSetter.call_eq (level : Directory.Level) (setter : GuardedSetter) (raw : BitVec 64)
    (invl : TlbInvalidation) :
    (setter.call level).call = ⟨setter.toSetter.field level, setter.toSetter.value level⟩ ∧
      setter.toSetter.applies raw =
        decide (Directory.isLarge raw = (setter.call level).guard.required) ∧
      (Directory.call level raw invl setter.toSetter).applied = setter.toSetter.applies raw := by
  have happlied (condition : Bool) (clr set : BitVec 64) :
      (Directory.updateIf level raw condition clr set invl).applied = condition := by
    unfold Directory.updateIf
    cases condition <;> rfl
  have hbig : Directory.isLarge raw = decide (Directory.isLarge raw = Guard.big.required) := by
    cases Directory.isLarge raw <;> rfl
  have hsmall : (!Directory.isLarge raw) =
      decide (Directory.isLarge raw = Guard.small.required) := by
    cases Directory.isLarge raw <;> rfl
  cases setter with
  | setTable addr => exact ⟨rfl, hsmall, happlied _ _ _⟩
  | _ => exact ⟨rfl, hbig, happlied _ _ _⟩

/-- Without interference a setter does what its sequential model does. -/
theorem uninterrupted_call (level : Directory.Level) (setter : GuardedSetter) (raw : BitVec 64)
    (invl : TlbInvalidation) : ∃ es t, (∀ e ∈ es, e = .setter) ∧
      ContendedRun updates (setter.call level) (atStart raw .present : Contended ι) es t ∧
      t.entry.value = (Directory.call level raw invl setter.toSetter).raw ∧
      t.setter = .returned (Directory.call level raw invl setter.toSetter).applied := by
  obtain ⟨hcall, happlies, happlied⟩ := setter.call_eq level raw invl
  obtain ⟨es, hes, htest⟩ : ∃ es, (∀ e ∈ es, e = .setter) ∧
      ContendedRun updates (setter.call level) (atStart raw .present : Contended ι) es
        (atStart raw ((setter.call level).guard.afterTest (Directory.isLarge raw))) := run_test raw
  rw [happlied, Directory.raw_call, happlies]
  by_cases hmeets : Directory.isLarge raw = (setter.call level).guard.required
  · rw [Guard.Meets.afterTest hmeets] at htest
    have hload : contendedStep updates (setter.call level) (atStart raw .load : Contended ι)
        .setter = some (atStart raw (.exchange raw)) := rfl
    have hexchange : contendedStep updates (setter.call level)
        (atStart raw (.exchange raw) : Contended ι) .setter = some _ := step_exchange rfl
    refine ⟨_, _, ?_, (htest.snoc hload).snoc hexchange, ?_, ?_⟩
    · simpa [or_imp, forall_and] using hes
    · simp [hmeets, hcall, SetBits.desired, atStart, Exchange.start]
    · simp [hmeets]
  · rw [Guard.afterTest, if_neg hmeets] at htest
    exact ⟨es, _, hes, htest, by simp [hmeets, atStart, Exchange.start], by simp [hmeets, atStart]⟩

end Steps

/-- A setter that depends on the page size acts atomically in all interleavings when, and only
when, every concurrent update is harmless for it. -/
theorem setters_atomic_iff {ι : Type*} [DecidableEq ι] (updates : ι → Update)
    (level : Directory.Level) (setter : GuardedSetter) :
    (∀ init es t, init.setter = .present → ContendedRun updates (setter.call level) init es t →
      ActsAtomically updates (setter.call level) init es t) ↔
        ∀ a, (updates a).Harmless (setter.call level).guard := by
  refine ⟨fun hatomic a => ?_, fun hharmless init es t => actsAtomically_of_harmless hharmless⟩
  have hmeets {raw : BitVec 64} (h : (setter.call level).guard.Meets raw) :=
    meets_desired_of_atomic hatomic a h
  cases hguard : (setter.call level).guard with
  | big =>
    rw [hguard] at hmeets
    refine harmless_big_of_meets (hmeets ?_)
    rw [Guard.meets_big]
    decide
  | small =>
    have hps := ps_desired_of_atomic hguard hatomic a
    rw [hguard] at hmeets
    refine harmless_small_of_meets (hmeets ?_) hps
    rw [Guard.meets_small]
    decide

/-- A page-directory entry that refers to a table is replaced by one that maps a large page after
`set_pt` has tested the page size. -/
theorem table_set_in_large_page :
    ∃ es t, ContendedRun (fun _ : Unit => .assign 0x200081#64)
        ((GuardedSetter.setTable 0x5000#64).call .pde) (atStart 0x1001#64 .present) es t ∧
      t.setter = .returned true ∧ t.entry.value = 0x5081#64 ∧
      ¬ActsAtomically (fun _ : Unit => .assign 0x200081#64)
        ((GuardedSetter.setTable 0x5000#64).call .pde) (atStart 0x1001#64 .present) es t := by
  have hbefore : ContendedRun (fun _ : Unit => .assign 0x200081#64)
      ((GuardedSetter.setTable 0x5000#64).call .pde) (atStart 0x1001#64 .present)
      [.setter, .setter, .other (.load ()), .other (.succeed ()), .setter]
      (afterUpdate (fun _ => .assign 0x200081#64) () 0x1001#64 (.exchange 0x200081#64)) :=
    Run.of_foldlM _ (fun _ _ _ hs => hs) rfl
  refine ⟨_, _, hbefore.snoc (step_exchange rfl), rfl, by decide +kernel, fun h => ?_⟩
  have hmeets : Guard.small.Meets 0x200081#64 :=
    h.effective _ [] _ _ rfl hbefore (step_exchange rfl) rfl
  exact absurd hmeets (by decide)

end Toyos.Paging
