import Toyos.Core.Run
import Mathlib.Logic.Function.Basic
import Mathlib.Data.Vector.Basic

/-!
# The lock-free array

`array_lock_free_with_remove` holds one atomic value per slot. Every call scans
the slots with `std::find_if` and makes one atomic access to each slot it visits,
so between two visits of one call all other threads may take any number of steps.
A slot is free when it holds the invalid element.
-/

namespace Toyos.Util

open Toyos.Core

/-- `compare_exchange_strong`: whether the slot held the expected value, and what it holds
afterwards. -/
def compareExchangeStrong {T : Type} [DecidableEq T] (slot expected desired : T) : Bool × T :=
  if slot = expected then (true, desired) else (false, slot)

/-- The calls that may run concurrently. -/
inductive ArrayCall (T : Type)
  | insert (value : T)
  | remove (value : T)
  | findIf (cond : T → Bool)

/-- What a call returns. -/
inductive ArrayResult
  /-- The index of `insert` and `find_if`, if any. -/
  | index (pos : Option ℕ)
  /-- Whether `remove` removed an element. -/
  | removed (found : Bool)
  deriving DecidableEq, Repr

/-- Where a thread is. -/
inductive ArrayThread (T : Type)
  /-- Between two calls. -/
  | idle
  /-- In `std::find_if`, before the visit of a slot or at the end. -/
  | scanning (call : ArrayCall T) (it : ℕ)
  /-- Behind `std::find_if`, with the iterator it returned. -/
  | returning (call : ArrayCall T) (it : ℕ)

namespace ArrayCall

variable {T : Type} [DecidableEq T]

/-- `find`. -/
def find (value : T) : ArrayCall T := .findIf fun elem => elem == value

/-- What a call does first; `none` is the assertion of `insert`. -/
def enter (invalid : T) (size : ℕ) (call : ArrayCall T) : Option (ArrayThread T) :=
  match call with
  | .insert value => if value = invalid then none else some (.scanning call 0)
  | .remove value => if value = invalid then some (.returning call size)
      else some (.scanning call 0)
  | .findIf _ => some (.scanning call 0)

/-- The predicate a call evaluates at a slot, and what the slot holds afterwards. -/
def visit (invalid slot : T) : ArrayCall T → Bool × T
  | .insert value => compareExchangeStrong slot invalid value
  | .remove value => compareExchangeStrong slot value invalid
  | .findIf cond => (cond slot, slot)

/-- The result by the iterator that `std::find_if` returned. -/
def result (size it : ℕ) : ArrayCall T → ArrayResult
  | .insert _ => .index (if it ≠ size then some it else none)
  | .remove _ => .removed (it ≠ size)
  | .findIf _ => .index (if it ≠ size then some it else none)

end ArrayCall

/-- A successful exchange replaces one occurrence of the expected value by the desired one. -/
theorem count_exchange {T : Type} [DecidableEq T] {size it : ℕ} (v : T) (array : Vector T size)
    (hit : it < size) (expected desired : T) :
    (array.set it (compareExchangeStrong array[it] expected desired).2).count v +
        (if (compareExchangeStrong array[it] expected desired).1 && expected == v then 1 else 0) =
      array.count v +
        if (compareExchangeStrong array[it] expected desired).1 && desired == v then 1 else 0 := by
  by_cases hslot : array[it] = expected
  · subst hslot
    simp only [compareExchangeStrong, if_true, Bool.true_and, Vector.count_set]
    by_cases hv : array[it] = v
    · have hpos : 0 < array.count v := Vector.count_pos_iff.mpr (hv ▸ Vector.getElem_mem hit)
      simp only [hv, BEq.rfl, if_true]
      omega
    · simp only [beq_eq_false_iff_ne.mpr hv, Bool.false_eq_true, if_false]
      omega
  · simp [compareExchangeStrong, hslot]

/-- What one step did. -/
inductive ArrayEvent (ι T : Type)
  /-- A thread begins a call. -/
  | call (thread : ι) (call : ArrayCall T)
  /-- A thread accesses a slot, with the value of its predicate. -/
  | visit (thread : ι) (call : ArrayCall T) (slot : ℕ) (found : Bool)
  /-- A thread reaches the end of the array. -/
  | stop (thread : ι)
  /-- A call returns. -/
  | respond (thread : ι) (call : ArrayCall T) (result : ArrayResult)

namespace ArrayEvent

variable {ι T : Type} [DecidableEq ι] [DecidableEq T]

/-- The exchange of an `insert` of the value succeeds. -/
def inserts (v : T) : ArrayEvent ι T → Bool
  | .visit _ (.insert value) _ found => found && value == v
  | _ => false

/-- The exchange of a `remove` of the value succeeds. -/
def removes (v : T) : ArrayEvent ι T → Bool
  | .visit _ (.remove value) _ found => found && value == v
  | _ => false

/-- A call of the thread begins or returns. -/
def bounds (i : ι) : ArrayEvent ι T → Bool
  | .call thread _ => thread == i
  | .respond thread _ _ => thread == i
  | _ => false

end ArrayEvent

/-- The slots and all threads. -/
structure LockFreeArray (ι T : Type) (size : ℕ) where
  array : Vector T size
  threads : ι → ArrayThread T

namespace LockFreeArray

variable {ι T : Type} [DecidableEq T] {size : ℕ}

/-- `clear`, with no call under way. -/
def cleared (invalid : T) : LockFreeArray ι T size :=
  ⟨Vector.replicate size invalid, fun _ => .idle⟩

/-- Where a thread continues after a visit. -/
def afterVisit (call : ArrayCall T) (it : ℕ) (found : Bool) : ArrayThread T :=
  if found then .returning call it else .scanning call (it + 1)

/-- A visit changes the number of slots with a value as its exchange says. -/
theorem count_visit {invalid v : T} {s : LockFreeArray ι T size} (hv : v ≠ invalid) (i : ι)
    (call : ArrayCall T) {it : ℕ} (hit : it < size) :
    (s.array.set it (call.visit invalid s.array[it]).2).count v +
        (if ArrayEvent.removes v (.visit i call it (call.visit invalid s.array[it]).1)
          then 1 else 0) =
      s.array.count v +
        if ArrayEvent.inserts v (.visit i call it (call.visit invalid s.array[it]).1)
          then 1 else 0 := by
  have hne : (invalid == v) = false := beq_eq_false_iff_ne.mpr hv.symm
  cases call with
  | insert value =>
    have hcount := count_exchange v s.array hit invalid value
    rw [hne, Bool.and_false] at hcount
    exact hcount
  | remove value =>
    have hcount := count_exchange v s.array hit value invalid
    rw [hne, Bool.and_false] at hcount
    exact hcount
  | findIf cond => simp [ArrayEvent.removes, ArrayEvent.inserts, ArrayCall.visit]

variable [DecidableEq ι]

/-- One step of one thread. -/
inductive Step (invalid : T) :
    LockFreeArray ι T size → ArrayEvent ι T → LockFreeArray ι T size → Prop
  | call {s : LockFreeArray ι T size} {i call next} (hi : s.threads i = .idle)
      (henter : call.enter invalid size = some next) :
      Step invalid s (.call i call) { s with threads := Function.update s.threads i next }
  | visit {s : LockFreeArray ι T size} {i call it} (hi : s.threads i = .scanning call it)
      (hit : it < size) :
      Step invalid s (.visit i call it (call.visit invalid s.array[it]).1)
        { array := s.array.set it (call.visit invalid s.array[it]).2
          threads := Function.update s.threads i
            (afterVisit call it (call.visit invalid s.array[it]).1) }
  | stop {s : LockFreeArray ι T size} {i call} (hi : s.threads i = .scanning call size) :
      Step invalid s (.stop i)
        { s with threads := Function.update s.threads i (.returning call size) }
  | respond {s : LockFreeArray ι T size} {i call it} (hi : s.threads i = .returning call it) :
      Step invalid s (.respond i call (call.result size it))
        { s with threads := Function.update s.threads i .idle }

variable {invalid v : T} {s t : LockFreeArray ι T size} {e : ArrayEvent ι T}
  {es : List (ArrayEvent ι T)}

/-- Every step changes the number of slots with a value as its exchange says. -/
theorem Step.count (hs : Step invalid s e t) (hv : v ≠ invalid) :
    t.array.count v + (if e.removes v then 1 else 0) =
      s.array.count v + if e.inserts v then 1 else 0 := by
  cases hs with
  | call => rfl
  | visit _ hit => exact count_visit hv _ _ hit
  | stop => rfl
  | respond => rfl

/-- In every run, the slots with a value are as many as the inserts that the removes left. -/
theorem count_run (hrun : Run (Step invalid) (cleared invalid) es s) (hv : v ≠ invalid) :
    s.array.count v + es.countP (ArrayEvent.removes v) = es.countP (ArrayEvent.inserts v) := by
  apply hrun.history_invariant (fun es s => s.array.count v + es.countP (ArrayEvent.removes v) =
    es.countP (ArrayEvent.inserts v))
  · simp [cleared, Vector.count_replicate, hv.symm]
  · intro es s e t _ ih hs
    have hcount := hs.count hv
    simp only [List.countP_append, List.countP_singleton]
    omega

/-- A visit accesses a slot of the array with the predicate of its call. -/
theorem Step.visit_inv {i : ι} {call : ArrayCall T} {it : ℕ} {found : Bool}
    (hs : Step invalid s (.visit i call it found) t) :
    ∃ hit : it < size, found = (call.visit invalid s.array[it]).1 ∧
      t.array = s.array.set it (call.visit invalid s.array[it]).2 := by
  generalize he : ArrayEvent.visit i call it found = e at hs
  cases hs with
  | call => simp at he
  | visit _ hit =>
    obtain ⟨rfl, rfl, rfl, rfl⟩ := ArrayEvent.visit.inj he
    exact ⟨hit, rfl, rfl⟩
  | stop => simp at he
  | respond => simp at he

/-- A response is the one of the iterator that the thread has. -/
theorem Step.respond_inv {i : ι} {call : ArrayCall T} {r : ArrayResult}
    (hs : Step invalid s (.respond i call r) t) :
    ∃ it, s.threads i = .returning call it ∧ r = call.result size it := by
  generalize he : ArrayEvent.respond i call r = e at hs
  cases hs with
  | call => simp at he
  | visit => simp at he
  | stop => simp at he
  | respond hi =>
    obtain ⟨rfl, rfl, rfl⟩ := ArrayEvent.respond.inj he
    exact ⟨_, hi, rfl⟩

/-- The last event that bounds a call of the thread is the beginning of the call. -/
def Began (i : ι) (call : ArrayCall T) (es : List (ArrayEvent ι T)) : Prop :=
  ∃ before during, es = before ++ .call i call :: during ∧ ∀ e ∈ during, e.bounds i = false

/-- At some instant since the call of the thread began, the slot held an element that meets
the condition. -/
def Held (invalid : T) (i : ι) (cond : T → Bool) (slot : ℕ) (es : List (ArrayEvent ι T))
    (s : LockFreeArray ι T size) : Prop :=
  ∃ before during after u x, es = before ++ .call i (.findIf cond) :: (during ++ after) ∧
    (∀ e ∈ during ++ after, e.bounds i = false) ∧
    Run (Step invalid) (cleared invalid) (before ++ .call i (.findIf cond) :: during) u ∧
    Run (Step invalid) u after s ∧ u.array[slot]? = some x ∧ cond x = true

/-- What the history says about a thread. -/
def Tracks (invalid : T) (i : ι) (es : List (ArrayEvent ι T)) (s : LockFreeArray ι T size) :
    ArrayThread T → Prop
  | .idle => True
  | .scanning call _ => Began i call es
  | .returning call it => ∀ cond, call = .findIf cond → it ≠ size → Held invalid i cond it es s

/-- A step that does not bound a call of the thread leaves what the history says about it. -/
theorem Tracks.snoc {i : ι} {thread : ArrayThread T} (h : Tracks invalid i es s thread)
    (hs : Step invalid s e t) (he : e.bounds i = false) :
    Tracks invalid i (es ++ [e]) t thread := by
  cases thread with
  | idle => trivial
  | scanning call it =>
    obtain ⟨before, during, rfl, hduring⟩ := h
    refine ⟨before, during ++ [e], by simp, ?_⟩
    exact List.forall_mem_append.mpr ⟨hduring, List.forall_mem_singleton.mpr he⟩
  | returning call it =>
    intro cond hcall hit
    obtain ⟨before, during, after, u, x, rfl, hbounds, hu, hafter, hx, hcond⟩ := h cond hcall hit
    refine ⟨before, during, after ++ [e], u, x, by simp, ?_, hu, hafter.snoc hs, hx, hcond⟩
    rw [← List.append_assoc]
    exact List.forall_mem_append.mpr ⟨hbounds, List.forall_mem_singleton.mpr he⟩

/-- A thread that begins a call is tracked from there on. -/
theorem tracks_enter {i : ι} {call : ArrayCall T} {next : ArrayThread T}
    (henter : call.enter invalid size = some next) (es : List (ArrayEvent ι T)) :
    Tracks invalid i (es ++ [.call i call]) t next := by
  have hbegan : Began i call (es ++ [.call i call]) := ⟨es, [], rfl, by simp⟩
  cases call with
  | insert value =>
    by_cases hvalue : value = invalid
    · simp [ArrayCall.enter, hvalue] at henter
    · simp only [ArrayCall.enter, if_neg hvalue, Option.some.injEq] at henter
      subst henter
      exact hbegan
  | remove value =>
    by_cases hvalue : value = invalid
    · simp only [ArrayCall.enter, if_pos hvalue, Option.some.injEq] at henter
      subst henter
      intro cond hcall
      simp at hcall
    · simp only [ArrayCall.enter, if_neg hvalue, Option.some.injEq] at henter
      subst henter
      exact hbegan
  | findIf cond =>
    simp only [ArrayCall.enter, Option.some.injEq] at henter
    subst henter
    exact hbegan

/-- A visit that ends the scan saw the element in its slot. -/
theorem Began.tracks_visit {i : ι} {call : ArrayCall T} {it : ℕ} (h : Began i call es)
    (hrun : Run (Step invalid) (cleared invalid) es s) (hit : it < size)
    (hs : Step invalid s (.visit i call it (call.visit invalid s.array[it]).1) t) :
    Tracks invalid i (es ++ [.visit i call it (call.visit invalid s.array[it]).1]) t
      (afterVisit call it (call.visit invalid s.array[it]).1) := by
  obtain ⟨before, during, rfl, hduring⟩ := h
  cases hfound : (call.visit invalid s.array[it]).1 with
  | false =>
    refine ⟨before, during ++ [.visit i call it false], by simp, ?_⟩
    exact List.forall_mem_append.mpr ⟨hduring, List.forall_mem_singleton.mpr rfl⟩
  | true =>
    rintro cond rfl -
    rw [hfound] at hs
    refine ⟨before, during, [.visit i (.findIf cond) it true], s, s.array[it], by simp, ?_, hrun,
      Run.nil.snoc hs, Vector.getElem?_eq_getElem hit, hfound⟩
    exact List.forall_mem_append.mpr ⟨hduring, List.forall_mem_singleton.mpr rfl⟩

/-- The step of one thread leaves what the history says about another one. -/
theorem Tracks.of_other {i j : ι} {next : ArrayThread T}
    (h : Tracks invalid j es s (s.threads j)) (hs : Step invalid s e t)
    (ht : t.threads = Function.update s.threads i next) (hij : j ≠ i)
    (he : e.bounds j = false) : Tracks invalid j (es ++ [e]) t (t.threads j) := by
  rw [ht, Function.update_of_ne hij]
  exact h.snoc hs he

/-- A step keeps what the history says about every thread. -/
theorem tracks_step (hrun : Run (Step invalid) (cleared invalid) es s)
    (h : ∀ i, Tracks invalid i es s (s.threads i)) (hs : Step invalid s e t) (i : ι) :
    Tracks invalid i (es ++ [e]) t (t.threads i) := by
  cases id hs with
  | @call j call next hj henter =>
    by_cases hij : i = j
    · subst hij
      simp only [Function.update_self]
      exact tracks_enter henter es
    · exact (h i).of_other hs rfl hij (by simpa [ArrayEvent.bounds] using Ne.symm hij)
  | @visit j call it hj hit =>
    by_cases hij : i = j
    · subst hij
      simp only [Function.update_self]
      have hbegan := h i
      rw [hj] at hbegan
      exact hbegan.tracks_visit hrun hit hs
    · exact (h i).of_other hs rfl hij rfl
  | @stop j call hj =>
    by_cases hij : i = j
    · subst hij
      simp only [Function.update_self]
      exact fun _ _ hne => absurd rfl hne
    · exact (h i).of_other hs rfl hij rfl
  | @respond j call it hj =>
    by_cases hij : i = j
    · subst hij
      simp only [Function.update_self]
      trivial
    · exact (h i).of_other hs rfl hij (by simpa [ArrayEvent.bounds] using Ne.symm hij)

/-- In every run, the history says about every thread where it is. -/
theorem tracks_run (hrun : Run (Step invalid) (cleared invalid) es s) (i : ι) :
    Tracks invalid i es s (s.threads i) := by
  have hall : ∀ i, Tracks invalid i es s (s.threads i) := by
    apply hrun.history_invariant (fun es s => ∀ i, Tracks invalid i es s (s.threads i))
    · exact fun _ => trivial
    · exact fun _ _ _ _ hrun h hs => tracks_step hrun h hs
  exact hall i

/-- At every instant of every run, the slots with a value are as many as the inserts of it that
succeeded without the removes of it that succeeded; a successful insert fills a free slot; the
index a successful `find` returns held the value during the call. -/
theorem elements_conserved (hrun : Run (Step invalid) (cleared invalid) es s) :
    (∀ v ≠ invalid,
      s.array.count v + es.countP (ArrayEvent.removes v) = es.countP (ArrayEvent.inserts v)) ∧
    (∀ i v slot t, Step invalid s (.visit i (.insert v) slot true) t →
      ∃ hslot : slot < size, s.array[slot] = invalid ∧ t.array = s.array.set slot v) ∧
    ∀ i v slot t, Step invalid s (.respond i (.find v) (.index (some slot))) t →
      ∃ before during after u, es = before ++ .call i (.find v) :: (during ++ after) ∧
        (∀ e ∈ during ++ after, e.bounds i = false) ∧
        Run (Step invalid) (cleared invalid) (before ++ .call i (.find v) :: during) u ∧
        Run (Step invalid) u after s ∧ u.array[slot]? = some v := by
  refine ⟨fun v hv => count_run hrun hv, ?_, ?_⟩
  · intro i v slot t hs
    obtain ⟨hslot, hfound, ht⟩ := hs.visit_inv
    by_cases hfree : s.array[slot] = invalid
    · simp only [ArrayCall.visit, compareExchangeStrong, if_pos hfree] at ht
      exact ⟨hslot, hfree, ht⟩
    · simp [ArrayCall.visit, compareExchangeStrong, hfree] at hfound
  · intro i v slot t hs
    obtain ⟨it, hi, hr⟩ := hs.respond_inv
    have htracks := tracks_run hrun i
    rw [hi] at htracks
    by_cases hit : it = size
    · simp [ArrayCall.find, ArrayCall.result, hit] at hr
    · have hslot : slot = it := by simpa [ArrayCall.find, ArrayCall.result, hit] using hr
      subst hslot
      obtain ⟨before, during, after, u, x, hes, hbounds, hu, hafter, hx, hcond⟩ :=
        htracks _ rfl hit
      rw [beq_iff_eq] at hcond
      exact ⟨before, during, after, u, hes, hbounds, hu, hafter, hcond ▸ hx⟩

/-- One thread inserts a value while another one searches for it. -/
def insertAndFind : List (ArrayEvent Bool ℕ) :=
  [.call false (.find 5), .call true (.insert 5), .visit true (.insert 5) 0 true,
    .visit false (.find 5) 0 true]

theorem insertAndFind_run : ∃ s : LockFreeArray Bool ℕ 2,
    Run (Step 0) (cleared 0) insertAndFind s ∧ s.array = #v[5, 0] ∧
      s.threads false = .returning (.find 5) 0 := by
  have hfind : Run (Step 0) (cleared 0 : LockFreeArray Bool ℕ 2) [.call false (.find 5)] _ :=
    Run.nil.snoc (.call rfl rfl)
  have hinsert : Run (Step 0) (cleared 0 : LockFreeArray Bool ℕ 2)
      [.call false (.find 5), .call true (.insert 5)] _ := hfind.snoc (.call rfl rfl)
  have hfill := hinsert.snoc (.visit (i := true) rfl (by decide))
  exact ⟨_, hfill.snoc (.visit (i := false) rfl (by decide)), rfl, rfl⟩

/-- The search returns a slot that holds the value. -/
theorem elements_conserved_insertAndFind : ∃ s : LockFreeArray Bool ℕ 2,
    Run (Step 0) (cleared 0) insertAndFind s ∧ s.array.count 5 + 0 = 1 ∧
      ∃ before during after u,
        insertAndFind = before ++ .call false (.find 5) :: (during ++ after) ∧
        Run (Step 0) u after s ∧ u.array[0]? = some 5 := by
  obtain ⟨s, hrun, -, hthread⟩ := insertAndFind_run
  obtain ⟨hcount, -, hfind⟩ := elements_conserved hrun
  obtain ⟨before, during, after, u, hes, -, -, hafter, hu⟩ :=
    hfind false 5 0 _ (.respond hthread)
  exact ⟨s, hrun, hcount 5 (by decide), before, during, after, u, hes, hafter, hu⟩

end LockFreeArray

end Toyos.Util
