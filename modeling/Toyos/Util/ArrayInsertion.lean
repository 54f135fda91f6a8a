import Toyos.Util.ArrayLockFree

/-!
# The lock-free array without removals

`array_lock_free` has no `remove`. A slot that holds an element then holds it
forever, so what a scan has seen in the slots behind it stays true. Insertions
return distinct slots, fail only if all slots are taken, and a search that begins
after an insertion has returned finds the element at its slot or before. No call
waits for another one: each of its own steps brings it to the next slot.
-/

namespace Toyos.Util

open Toyos.Core

namespace ArrayEvent

variable {ι T : Type}

/-- A call of `remove` begins. -/
def isRemoval : ArrayEvent ι T → Bool
  | .call _ (.remove _) => true
  | _ => false

/-- The index that an insertion returns. -/
def insertedAt : ArrayEvent ι T → Option ℕ
  | .respond _ (.insert _) (.index pos) => pos
  | _ => none

/-- An insertion returns. -/
def isInsertion : ArrayEvent ι T → Bool
  | .respond _ (.insert _) (.index _) => true
  | _ => false

/-- An insertion returns without an index. -/
def isFailure : ArrayEvent ι T → Bool
  | .respond _ (.insert _) (.index none) => true
  | _ => false

/-- The thread that makes the step. -/
def thread : ArrayEvent ι T → ι
  | .call i _ => i
  | .visit i _ _ _ => i
  | .stop i => i
  | .respond i _ _ => i

end ArrayEvent

namespace LockFreeArray

variable {ι T : Type} {size : ℕ} {invalid : T}

/-- A slot holds an element. -/
def Occupied (invalid : T) (array : Vector T size) (slot : ℕ) : Prop :=
  ∃ x, array[slot]? = some x ∧ x ≠ invalid

/-- All slots hold elements. -/
def Full (invalid : T) (array : Vector T size) : Prop := ∀ slot < size, Occupied invalid array slot

/-- All elements stay in their slots. -/
def Keeps (invalid : T) (array array' : Vector T size) : Prop :=
  ∀ (slot : ℕ) (x : T), array[slot]? = some x → x ≠ invalid → array'[slot]? = some x

/-- What is known about a thread, given the indexes returned so far. -/
def ThreadOk (invalid : T) (returned : List ℕ) (array : Vector T size) : ArrayThread T → Prop
  | .idle => True
  | .scanning (.insert value) it => value ≠ invalid ∧ ∀ slot < it, Occupied invalid array slot
  | .returning (.insert value) it => value ≠ invalid ∧
      if it < size then array[it]? = some value ∧ it ∉ returned
      else it = size ∧ Full invalid array
  | .scanning (.findIf _) _ => True
  | .returning (.findIf _) _ => True
  | .scanning (.remove _) _ => False
  | .returning (.remove _) _ => False

/-- The indexes returned so far. -/
def returned (es : List (ArrayEvent ι T)) : List ℕ := es.filterMap ArrayEvent.insertedAt

/-- Every occupied slot belongs to one insertion, which has returned or is about to. -/
structure Inv (invalid : T) (es : List (ArrayEvent ι T)) (s : LockFreeArray ι T size) : Prop where
  /-- All threads are where their steps so far allow. -/
  threads : ∀ i, ThreadOk invalid (returned es) s.array (s.threads i)
  /-- No two threads are about to return the same slot. -/
  distinct : ∀ i j value value' it, s.threads i = .returning (.insert value) it →
    s.threads j = .returning (.insert value') it → it < size → i = j
  /-- No slot was returned twice. -/
  nodup : (returned es).Nodup
  /-- Slots that were returned hold the elements. -/
  kept : ∀ i value slot, .respond i (.insert value) (.index (some slot)) ∈ es →
    s.array[slot]? = some value ∧ value ≠ invalid
  /-- An occupied slot was returned or is about to be. -/
  owned : ∀ slot, Occupied invalid s.array slot →
    slot ∈ returned es ∨ ∃ i value, s.threads i = .returning (.insert value) slot
  /-- After a failure all slots are occupied. -/
  failed : ∀ e ∈ es, e.isFailure = true → Full invalid s.array

section Keeping

variable {array array' : Vector T size} {slot it : ℕ} {value x : T} {R : List ℕ}
  {thread : ArrayThread T}

theorem Keeps.refl : Keeps invalid array array := fun _ _ h _ => h

theorem Keeps.occupied (h : Keeps invalid array array') (hslot : Occupied invalid array slot) :
    Occupied invalid array' slot := by
  obtain ⟨x, hx, hne⟩ := hslot
  exact ⟨x, h slot x hx hne, hne⟩

theorem Keeps.full (h : Keeps invalid array array') (hfull : Full invalid array) :
    Full invalid array' := fun slot hslot => h.occupied (hfull slot hslot)

/-- What is known about a thread stays true while elements stay in their slots. -/
theorem Keeps.threadOk (h : Keeps invalid array array')
    (hthread : ThreadOk invalid R array thread) :
    ThreadOk invalid R array' thread := by
  cases thread with
  | idle => trivial
  | scanning call it =>
    cases call with
    | insert value => exact ⟨hthread.1, fun slot hslot => h.occupied (hthread.2 slot hslot)⟩
    | remove value => exact hthread
    | findIf cond => trivial
  | returning call it =>
    cases call with
    | insert value =>
      obtain ⟨hvalue, hit⟩ := hthread
      refine ⟨hvalue, ?_⟩
      by_cases hlt : it < size
      · rw [if_pos hlt] at hit ⊢
        exact ⟨h it value hit.1 hvalue, hit.2⟩
      · rw [if_neg hlt] at hit ⊢
        exact ⟨hit.1, h.full hit.2⟩
    | remove value => exact hthread
    | findIf cond => trivial

/-- The return of another slot changes nothing for a thread. -/
theorem ThreadOk.snoc (h : ThreadOk invalid R array thread)
    (hother : ∀ value, thread ≠ .returning (.insert value) it) :
    ThreadOk invalid (R ++ [it]) array thread := by
  cases thread with
  | idle => trivial
  | scanning call it' =>
    cases call with
    | insert value => exact h
    | remove value => exact h
    | findIf cond => trivial
  | returning call it' =>
    cases call with
    | insert value =>
      obtain ⟨hvalue, hit⟩ := h
      refine ⟨hvalue, ?_⟩
      by_cases hlt : it' < size
      · rw [if_pos hlt] at hit ⊢
        refine ⟨hit.1, fun hmem => ?_⟩
        rcases List.mem_append.mp hmem with hmem | hlast
        · exact hit.2 hmem
        · exact hother value (by rw [List.mem_singleton.mp hlast])
      · rw [if_neg hlt] at hit ⊢
        exact hit
    | remove value => exact h
    | findIf cond => trivial

end Keeping

section Steps

variable {s t : LockFreeArray ι T size} {es : List (ArrayEvent ι T)}
  {e : ArrayEvent ι T} {i : ι} {next : ArrayThread T} {value : T} {it slot : ℕ}

theorem returned_snoc_of_none (h : e.insertedAt = none) : returned (es ++ [e]) = returned es := by
  rw [returned, List.filterMap_append, List.filterMap_cons_none h, List.filterMap_nil,
    List.append_nil, returned]

theorem returned_snoc_of_some (h : e.insertedAt = some slot) :
    returned (es ++ [e]) = returned es ++ [slot] := by
  rw [returned, List.filterMap_append, List.filterMap_cons_some h, List.filterMap_nil, returned]

/-- A returned index comes from an insertion. -/
theorem exists_of_mem_returned (h : slot ∈ returned es) :
    ∃ i value, .respond i (.insert value) (.index (some slot)) ∈ es := by
  obtain ⟨e, he, hslot⟩ := List.mem_filterMap.mp h
  cases e with
  | respond i call result =>
    cases call with
    | insert value =>
      cases result with
      | index pos =>
        cases hslot
        exact ⟨i, value, he⟩
      | removed found => cases hslot
    | remove value => cases hslot
    | findIf cond => cases hslot
  | call i call => cases hslot
  | visit i call slot' found => cases hslot
  | stop i => cases hslot

theorem Inv.mem_returned (h : Inv invalid es s) (hslot : slot ∈ returned es) :
    Occupied invalid s.array slot := by
  obtain ⟨i, value, hmem⟩ := exists_of_mem_returned hslot
  exact ⟨value, h.kept i value slot hmem⟩

/-- An event without an index adds none. -/
theorem Inv.kept_snoc (h : Inv invalid es s) (he : e.insertedAt = none) {j : ι}
    (hmem : .respond j (.insert value) (.index (some slot)) ∈ es ++ [e]) :
    s.array[slot]? = some value ∧ value ≠ invalid := by
  rcases List.mem_append.mp hmem with hmem | hlast
  · exact h.kept j value slot hmem
  · rw [← List.mem_singleton.mp hlast] at he
    cases he

/-- A step that keeps the elements keeps the array full once an insertion has failed. -/
theorem Inv.failed_snoc (h : Inv invalid es s) (hkeeps : Keeps invalid s.array t.array)
    (hfail : e.isFailure = true → Full invalid t.array) {e' : ArrayEvent ι T}
    (he' : e' ∈ es ++ [e]) (hfail' : e'.isFailure = true) : Full invalid t.array := by
  rcases List.mem_append.mp he' with hmem | hlast
  · exact hkeeps.full (h.failed e' hmem hfail')
  · rw [List.mem_singleton.mp hlast] at hfail'
    exact hfail hfail'

variable [DecidableEq ι]

/-- A step that neither takes a slot nor returns one. -/
theorem Inv.quiet (h : Inv invalid es s) (harray : t.array = s.array)
    (hthreads : t.threads = Function.update s.threads i next)
    (hnext : ThreadOk invalid (returned es) s.array next)
    (hprev : ∀ value it, s.threads i = .returning (.insert value) it → ¬it < size)
    (hlater : ∀ value it, next = .returning (.insert value) it → ¬it < size)
    (he : e.insertedAt = none) (hfail : e.isFailure = true → Full invalid s.array) :
    Inv invalid (es ++ [e]) t := by
  have hpending {j : ι} {value : T} {it : ℕ} (hj : t.threads j = .returning (.insert value) it)
      (hit : it < size) : s.threads j = .returning (.insert value) it := by
    by_cases hij : j = i
    · rw [hthreads, hij, Function.update_self] at hj
      exact absurd hit (hlater value it hj)
    · rwa [hthreads, Function.update_of_ne hij] at hj
  refine ⟨fun j => ?_, ?_, ?_, ?_, ?_, ?_⟩
  · rw [returned_snoc_of_none he, harray, hthreads]
    by_cases hij : j = i
    · rw [hij, Function.update_self]
      exact hnext
    · rw [Function.update_of_ne hij]
      exact h.threads j
  · intro j k value value' it hj hk hit
    exact h.distinct j k value value' it (hpending hj hit) (hpending hk hit) hit
  · rw [returned_snoc_of_none he]
    exact h.nodup
  · intro j value slot hmem
    rw [harray]
    exact h.kept_snoc he hmem
  · intro slot hslot
    rw [harray] at hslot
    rw [returned_snoc_of_none he]
    refine (h.owned slot hslot).imp id ?_
    rintro ⟨j, value, hj⟩
    refine ⟨j, value, ?_⟩
    have hlt : slot < size := by
      obtain ⟨x, hx, -⟩ := hslot
      exact (Vector.getElem?_eq_some_iff.mp hx).1
    have hij : j ≠ i := by
      rintro rfl
      exact hprev value slot hj hlt
    rw [hthreads, Function.update_of_ne hij, hj]
  · intro e' he' hfail'
    rw [harray]
    exact h.failed_snoc .refl hfail he' hfail'

/-- A thread that takes a free slot. -/
theorem Inv.take (h : Inv invalid es s) (hit : it < size) (hfree : s.array[it] = invalid)
    (hi : s.threads i = .scanning (.insert value) it) (harray : t.array = s.array.set it value)
    (hthreads : t.threads = Function.update s.threads i (.returning (.insert value) it))
    (he : e.insertedAt = none) (hfail : e.isFailure = false) : Inv invalid (es ++ [e]) t := by
  have hvalue : value ≠ invalid := by
    have hthread := h.threads i
    rw [hi] at hthread
    exact hthread.1
  have hempty : ¬Occupied invalid s.array it := by
    rintro ⟨x, hx, hne⟩
    rw [Vector.getElem?_eq_getElem hit, hfree] at hx
    exact hne (Option.some.inj hx).symm
  have htaken : t.array[it]? = some value := by
    rw [harray, Vector.getElem?_set_self hit]
  have hkeeps : Keeps invalid s.array t.array := by
    intro slot x hx hne
    have hother : it ≠ slot := by
      rintro rfl
      exact hempty ⟨x, hx, hne⟩
    rw [harray, Vector.getElem?_set_ne hit hother, hx]
  have hnot {j : ι} {value' : T} : s.threads j ≠ .returning (.insert value') it := by
    intro hj
    have hthread := h.threads j
    rw [hj, ThreadOk, if_pos hit] at hthread
    exact hempty ⟨value', hthread.2.1, hthread.1⟩
  refine ⟨fun j => ?_, ?_, ?_, ?_, ?_, ?_⟩
  · rw [returned_snoc_of_none he, hthreads]
    by_cases hij : j = i
    · rw [hij, Function.update_self, ThreadOk, if_pos hit]
      exact ⟨hvalue, htaken, fun hmem => hempty (h.mem_returned hmem)⟩
    · rw [Function.update_of_ne hij]
      exact hkeeps.threadOk (h.threads j)
  · intro j k v v' slot hj hk hslot
    rw [hthreads] at hj hk
    by_cases hji : j = i
    · by_cases hki : k = i
      · rw [hji, hki]
      · rw [hji, Function.update_self] at hj
        rw [Function.update_of_ne hki] at hk
        cases hj
        exact absurd hk hnot
    · rw [Function.update_of_ne hji] at hj
      by_cases hki : k = i
      · rw [hki, Function.update_self] at hk
        cases hk
        exact absurd hj hnot
      · rw [Function.update_of_ne hki] at hk
        exact h.distinct j k v v' slot hj hk hslot
  · rw [returned_snoc_of_none he]
    exact h.nodup
  · intro j v slot hmem
    obtain ⟨hslot, hne⟩ := h.kept_snoc he hmem
    exact ⟨hkeeps slot v hslot hne, hne⟩
  · intro slot hslot
    rw [returned_snoc_of_none he, hthreads]
    by_cases hself : slot = it
    · exact .inr ⟨i, value, by rw [hself, Function.update_self]⟩
    · have hbefore : Occupied invalid s.array slot := by
        obtain ⟨x, hx, hne⟩ := hslot
        rw [harray, Vector.getElem?_set_ne hit (Ne.symm hself)] at hx
        exact ⟨x, hx, hne⟩
      refine (h.owned slot hbefore).imp id ?_
      rintro ⟨j, v, hj⟩
      have hji : j ≠ i := by
        rintro rfl
        rw [hi] at hj
        cases hj
      exact ⟨j, v, by rw [Function.update_of_ne hji, hj]⟩
  · intro e' he' hfail'
    exact h.failed_snoc hkeeps (by simp [hfail]) he' hfail'

/-- A thread that returns its slot. -/
theorem Inv.give (h : Inv invalid es s) (hit : it < size)
    (hi : s.threads i = .returning (.insert value) it) (harray : t.array = s.array)
    (hthreads : t.threads = Function.update s.threads i .idle) :
    Inv invalid (es ++ [.respond i (.insert value) (.index (some it))]) t := by
  have hreturned : returned (es ++ [.respond i (.insert value) (.index (some it))]) =
      returned es ++ [it] := returned_snoc_of_some rfl
  have hown := h.threads i
  rw [hi, ThreadOk, if_pos hit] at hown
  have hpending {j : ι} {v : T} {slot : ℕ} (hj : t.threads j = .returning (.insert v) slot) :
      j ≠ i ∧ s.threads j = .returning (.insert v) slot := by
    rw [hthreads] at hj
    by_cases hji : j = i
    · rw [hji, Function.update_self] at hj
      cases hj
    · rw [Function.update_of_ne hji] at hj
      exact ⟨hji, hj⟩
  refine ⟨fun j => ?_, ?_, ?_, ?_, ?_, ?_⟩
  · rw [hreturned, harray, hthreads]
    by_cases hji : j = i
    · rw [hji, Function.update_self]
      trivial
    · rw [Function.update_of_ne hji]
      exact (h.threads j).snoc fun v hj => hji (h.distinct j i v value it hj hi hit)
  · intro j k v v' slot hj hk hslot
    exact h.distinct j k v v' slot (hpending hj).2 (hpending hk).2 hslot
  · rw [hreturned, List.nodup_append]
    refine ⟨h.nodup, List.nodup_singleton it, ?_⟩
    rintro slot hmem _ hlast rfl
    rw [List.mem_singleton.mp hlast] at hmem
    exact hown.2.2 hmem
  · intro j v slot hmem
    rw [harray]
    rcases List.mem_append.mp hmem with hmem | hlast
    · exact h.kept j v slot hmem
    · cases List.mem_singleton.mp hlast
      exact ⟨hown.2.1, hown.1⟩
  · intro slot hslot
    rw [harray] at hslot
    rw [hreturned, hthreads]
    rcases h.owned slot hslot with hmem | ⟨j, v, hj⟩
    · exact .inl (List.mem_append_left _ hmem)
    · by_cases hji : j = i
      · rw [hji, hi] at hj
        cases hj
        exact .inl (List.mem_append_right _ (List.mem_singleton_self it))
      · exact .inr ⟨j, v, by rw [Function.update_of_ne hji, hj]⟩
  · intro e' he' hfail'
    rw [harray]
    exact h.failed_snoc .refl (fun hfail => by cases hfail) he' hfail'

/-- A visit that leaves the slot as it is and continues the scan of an insertion. -/
theorem Inv.pass (h : Inv invalid es s) (hi : s.threads i = .scanning (.insert value) it)
    (hit : it < size) (htaken : s.array[it] ≠ invalid) :
    Inv invalid (es ++ [.visit i (.insert value) it false])
      { s with threads := Function.update s.threads i (.scanning (.insert value) (it + 1)) } := by
  have hthread := h.threads i
  rw [hi] at hthread
  refine h.quiet rfl rfl ⟨hthread.1, fun slot hslot => ?_⟩ (fun _ _ hprev => ?_)
    (fun _ _ hlater => ?_) rfl (fun hfail => ?_)
  · rcases Nat.lt_succ_iff_lt_or_eq.mp hslot with hlt | rfl
    · exact hthread.2 slot hlt
    · exact ⟨_, Vector.getElem?_eq_getElem hit, htaken⟩
  · rw [hi] at hprev
    cases hprev
  · cases hlater
  · cases hfail

/-- A step of a search. -/
theorem Inv.search {cond : T → Bool} (h : Inv invalid es s)
    (hi : s.threads i = .scanning (.findIf cond) it ∨ s.threads i = .returning (.findIf cond) it)
    (hnext : next = .idle ∨ ∃ it', next = .scanning (.findIf cond) it' ∨
      next = .returning (.findIf cond) it')
    (he : e.insertedAt = none) (hfail : e.isFailure = false) :
    Inv invalid (es ++ [e]) { s with threads := Function.update s.threads i next } := by
  refine h.quiet rfl rfl ?_ (fun _ _ hprev => ?_) (fun _ _ hlater => ?_) he (fun hfail' => ?_)
  · rcases hnext with rfl | ⟨it', rfl | rfl⟩ <;> trivial
  · rcases hi with hi | hi <;> (rw [hi] at hprev; cases hprev)
  · rcases hnext with rfl | ⟨it', rfl | rfl⟩ <;> cases hlater
  · rw [hfail] at hfail'
    cases hfail'

variable [DecidableEq T]

/-- Insertions and searches begin with a scan of all slots. -/
theorem enter_of_not_remove {call : ArrayCall T} (henter : call.enter invalid size = some next)
    (hcall : ∀ v, call ≠ .remove v) :
    next = .scanning call 0 ∧ ∀ v, call = .insert v → v ≠ invalid := by
  cases call with
  | insert v =>
    rw [ArrayCall.enter, Option.ite_none_left_eq_some] at henter
    refine ⟨(Option.some.inj henter.2).symm, ?_⟩
    rintro _ ⟨rfl⟩
    exact henter.1
  | remove v => exact absurd rfl (hcall v)
  | findIf cond => exact ⟨(Option.some.inj henter).symm, fun _ h => by cases h⟩

/-- The beginning of a call. -/
theorem Inv.call {call : ArrayCall T} (h : Inv invalid es s) (hi : s.threads i = .idle)
    (henter : call.enter invalid size = some next) (hcall : ∀ v, call ≠ .remove v) :
    Inv invalid (es ++ [.call i call])
      { s with threads := Function.update s.threads i next } := by
  obtain ⟨rfl, hvalue⟩ := enter_of_not_remove henter hcall
  refine h.quiet rfl rfl ?_ (fun _ _ hprev => ?_) (fun _ _ hlater => ?_) rfl (fun hfail => ?_)
  · cases call with
    | insert v => exact ⟨hvalue v rfl, fun slot hslot => absurd hslot (Nat.not_lt_zero slot)⟩
    | remove v => exact absurd rfl (hcall v)
    | findIf cond => trivial
  · rw [hi] at hprev
    cases hprev
  · cases hlater
  · cases hfail

/-- Every step of a run without removals keeps the invariant. -/
theorem Inv.step (h : Inv invalid es s) (hs : Step invalid s e t) (he : e.isRemoval = false) :
    Inv invalid (es ++ [e]) t := by
  cases hs with
  | @call i call next hi henter =>
    refine h.call hi henter ?_
    rintro v rfl
    cases he
  | @visit i call it hi hit =>
    have hthread := h.threads i
    rw [hi] at hthread
    cases call with
    | insert value =>
      by_cases hfree : s.array[it] = invalid
      · have hvisit : (ArrayCall.insert value).visit invalid s.array[it] = (true, value) :=
          if_pos hfree
        rw [hvisit]
        exact h.take hit hfree hi rfl rfl rfl rfl
      · have hvisit : (ArrayCall.insert value).visit invalid s.array[it] = (false, s.array[it]) :=
          if_neg hfree
        rw [hvisit]
        dsimp only
        rw [Vector.set_getElem_self]
        exact h.pass hi hit hfree
    | remove value => exact absurd hthread id
    | findIf cond =>
      dsimp only [ArrayCall.visit]
      rw [Vector.set_getElem_self]
      refine h.search (.inl hi) (.inr ?_) rfl rfl
      cases cond s.array[it] with
      | false => exact ⟨it + 1, .inl rfl⟩
      | true => exact ⟨it, .inr rfl⟩
  | @stop i call hi =>
    have hthread := h.threads i
    rw [hi] at hthread
    cases call with
    | insert value =>
      refine h.quiet rfl rfl ?_ (fun _ _ hprev => ?_) (fun _ _ hlater => ?_) rfl (fun hfail => ?_)
      · rw [ThreadOk, if_neg (Nat.lt_irrefl size)]
        exact ⟨hthread.1, rfl, hthread.2⟩
      · rw [hi] at hprev
        cases hprev
      · cases hlater
        exact Nat.lt_irrefl size
      · cases hfail
    | remove value => exact absurd hthread id
    | findIf cond => exact h.search (.inl hi) (.inr ⟨size, .inr rfl⟩) rfl rfl
  | @respond i call it hi =>
    have hthread := h.threads i
    rw [hi] at hthread
    cases call with
    | insert value =>
      by_cases hit : it < size
      · have hresult : (ArrayCall.insert value).result size it = .index (some it) := by
          rw [ArrayCall.result, if_pos (Nat.ne_of_lt hit)]
        rw [hresult]
        exact h.give hit hi rfl rfl
      · rw [ThreadOk, if_neg hit] at hthread
        obtain ⟨-, rfl, hfull⟩ := hthread
        have hresult : (ArrayCall.insert value).result it it = .index none := by
          rw [ArrayCall.result, if_neg (not_not.mpr rfl)]
        rw [hresult]
        refine h.quiet rfl rfl trivial (fun _ _ hprev => ?_) (fun _ _ hlater => ?_) rfl
          (fun _ => hfull)
        · rw [hi] at hprev
          cases hprev
          exact Nat.lt_irrefl it
        · cases hlater
    | remove value => exact absurd hthread id
    | findIf cond => exact h.search (.inr hi) (.inl rfl) rfl rfl

end Steps

section Runs

variable {s t : LockFreeArray ι T size} {es : List (ArrayEvent ι T)} {e : ArrayEvent ι T}
  {slot : ℕ}

theorem inv_cleared : Inv invalid ([] : List (ArrayEvent ι T))
    (cleared invalid : LockFreeArray ι T size) := by
  refine ⟨fun _ => trivial, ?_, List.nodup_nil, ?_, ?_, ?_⟩
  · intro i j value value' it hi
    cases hi
  · intro i value slot hmem
    cases hmem
  · rintro slot ⟨x, hx, hne⟩
    obtain ⟨hslot, hget⟩ := Vector.getElem?_eq_some_iff.mp hx
    rw [cleared, Vector.getElem_replicate] at hget
    exact absurd hget.symm hne
  · intro e hmem
    cases hmem

/-- An insertion returns with an index or fails. -/
theorem length_insertedAt : e.insertedAt.toList.length + (if e.isFailure then 1 else 0) =
    if e.isInsertion then 1 else 0 := by
  cases e with
  | call i call => rfl
  | visit i call slot found => rfl
  | stop i => rfl
  | respond i call result =>
    cases call with
    | insert value =>
      cases result with
      | index pos => cases pos <;> rfl
      | removed found => rfl
    | remove value => rfl
    | findIf cond => rfl

theorem countP_isInsertion : es.countP ArrayEvent.isInsertion =
    (returned es).length + es.countP ArrayEvent.isFailure := by
  induction es with
  | nil => rfl
  | cons e es ih =>
    have hlength : (returned (e :: es)).length =
        e.insertedAt.toList.length + (returned es).length := by
      rw [returned, List.filterMap_cons]
      cases e.insertedAt with
      | none => exact (Nat.zero_add _).symm
      | some slot => exact Nat.add_comm _ 1
    have hone := length_insertedAt (e := e)
    rw [List.countP_cons, List.countP_cons, ih, hlength]
    omega

/-- No more indexes are returned than there are slots. -/
theorem Inv.length_le (h : Inv invalid es s) : (returned es).length ≤ size := by
  have hsub : returned es ⊆ List.range size := by
    intro slot hmem
    obtain ⟨x, hx, -⟩ := h.mem_returned hmem
    exact List.mem_range.mpr (Vector.getElem?_eq_some_iff.mp hx).1
  have hle := (List.subperm_of_subset h.nodup hsub).length_le
  rwa [List.length_range] at hle

/-- No insertion is under way. -/
def Settled (s : LockFreeArray ι T size) : Prop :=
  ∀ i value it, s.threads i ≠ .scanning (.insert value) it ∧
    s.threads i ≠ .returning (.insert value) it

/-- A full array without insertions under way has all its slots returned. -/
theorem Inv.le_length (h : Inv invalid es s) (hsettled : Settled s) (hfull : Full invalid s.array) :
    size ≤ (returned es).length := by
  have hsub : List.range size ⊆ returned es := by
    intro slot hmem
    rcases h.owned slot (hfull slot (List.mem_range.mp hmem)) with hslot | ⟨i, value, hi⟩
    · exact hslot
    · exact absurd hi (hsettled i value slot).2
  have hle := (List.subperm_of_subset List.nodup_range hsub).length_le
  rwa [List.length_range] at hle

/-- Once all insertions have returned, as many have succeeded as there was room for. -/
theorem Inv.length_returned (h : Inv invalid es s) (hsettled : Settled s) :
    (returned es).length = min size (es.countP ArrayEvent.isInsertion) := by
  have hcount : es.countP ArrayEvent.isInsertion = _ := countP_isInsertion
  have hle := h.length_le
  by_cases hfail : es.countP ArrayEvent.isFailure = 0
  · omega
  · obtain ⟨e, hmem, he⟩ := List.countP_pos_iff.mp (Nat.pos_of_ne_zero hfail)
    have hge := h.le_length hsettled (h.failed e hmem he)
    omega

/-- The steps that a thread makes. -/
def ownSteps [DecidableEq ι] (j : ι) (es : List (ArrayEvent ι T)) : ℕ :=
  es.countP fun e => e.thread = j

/-- The scan of a thread has not gone beyond a slot. Each of the `n` steps of the thread passed a
slot, and the last one left the scan if the thread is about to return. -/
def ScansWithin (s : LockFreeArray ι T size) (j : ι) (call : ArrayCall T) (limit n : ℕ) : Prop :=
  ∃ it ≤ limit, s.threads j = .scanning call it ∧ n = it ∨
    s.threads j = .returning call it ∧ n = it + 1

/-- A thread that is scanning is at the slot after its last step. -/
theorem ScansWithin.of_scanning {j : ι} {call call' : ArrayCall T} {limit n it : ℕ}
    (h : ScansWithin s j call limit n) (hj : s.threads j = .scanning call' it) :
    call' = call ∧ it = n ∧ n ≤ limit := by
  obtain ⟨it', hit, ⟨hj', rfl⟩ | ⟨hj', -⟩⟩ := h
  · obtain ⟨rfl, rfl⟩ := ArrayThread.scanning.inj (hj.symm.trans hj')
    exact ⟨rfl, rfl, hit⟩
  · cases hj.symm.trans hj'

variable [DecidableEq ι] [DecidableEq T]

/-- The invariant holds in every run without removals. -/
theorem inv_run (hrun : Run (Step invalid) (cleared invalid) es s)
    (hes : ∀ e ∈ es, e.isRemoval = false) : Inv invalid es s := by
  revert hes
  refine hrun.history_invariant (fun es s => (∀ e ∈ es, e.isRemoval = false) → Inv invalid es s)
    (fun _ => inv_cleared) ?_
  intro es s e t _ ih hs hes
  rw [List.forall_mem_append, List.forall_mem_singleton] at hes
  exact (ih hes.1).step hs hes.2

/-- An insertion fails only if all slots are occupied. -/
theorem Inv.full_of_failure {i : ι} {value : T} (h : Inv invalid es s)
    (hs : Step invalid s (.respond i (.insert value) (.index none)) t) : Full invalid s.array := by
  obtain ⟨it, hi, hr⟩ := hs.respond_inv
  have hthread := h.threads i
  rw [hi] at hthread
  by_cases hit : it < size
  · rw [ArrayCall.result, if_pos (Nat.ne_of_lt hit)] at hr
    cases hr
  · rw [ThreadOk, if_neg hit] at hthread
    exact hthread.2.2

/-- A scan cannot pass a slot: it is the end, or a visit of it ends the scan. -/
def Stops (invalid : T) (array : Vector T size) (call : ArrayCall T) (limit : ℕ) : Prop :=
  limit = size ∨ ∃ x, array[limit]? = some x ∧ (call.visit invalid x).1 = true

/-- A step changes the state of its own thread alone. -/
theorem Step.threads_of_ne {j : ι} (hs : Step invalid s e t) (hj : j ≠ e.thread) :
    t.threads j = s.threads j := by
  cases hs with
  | call => exact Function.update_of_ne hj _ _
  | visit => exact Function.update_of_ne hj _ _
  | stop => exact Function.update_of_ne hj _ _
  | respond => exact Function.update_of_ne hj _ _

/-- A visit brings a scan on by one slot, up to one that it cannot pass. -/
theorem afterVisit_within {array : Vector T size} {call : ArrayCall T} {limit n : ℕ}
    (hn : n ≤ limit) (hlimit : Stops invalid array call limit) (hsize : n < size) :
    ∃ it ≤ limit, afterVisit call n (call.visit invalid array[n]).1 = .scanning call it ∧
        n + 1 = it ∨
      afterVisit call n (call.visit invalid array[n]).1 = .returning call it ∧
        n + 1 = it + 1 := by
  cases hfound : (call.visit invalid array[n]).1 with
  | true => exact ⟨n, hn, .inr ⟨rfl, rfl⟩⟩
  | false =>
    have hne : n ≠ limit := by
      rintro rfl
      rcases hlimit with rfl | ⟨x, hx, hvisit⟩
      · exact Nat.lt_irrefl _ hsize
      · rw [Vector.getElem?_eq_getElem hsize, Option.some.injEq] at hx
        rw [hx, hvisit] at hfound
        cases hfound
    exact ⟨n + 1, by omega, .inl ⟨rfl, rfl⟩⟩

/-- Each own step brings a scan on by one slot, up to one that it cannot pass. -/
theorem ScansWithin.step {j : ι} {call : ArrayCall T} {limit n : ℕ}
    (h : ScansWithin s j call limit n) (hlimit : Stops invalid s.array call limit)
    (hs : Step invalid s e t) (he : e.bounds j = false) :
    ScansWithin t j call limit (n + ownSteps j [e]) := by
  by_cases hj : j = e.thread
  · have hown : n + ownSteps j [e] = n + 1 := by simp [ownSteps, hj]
    rw [hown, ScansWithin]
    cases hs with
    | call => simp [ArrayEvent.bounds, ArrayEvent.thread, hj] at he
    | visit hk hsize =>
      subst hj
      obtain ⟨rfl, rfl, hn⟩ := h.of_scanning hk
      dsimp only [ArrayEvent.thread]
      rw [Function.update_self]
      exact afterVisit_within hn hlimit hsize
    | stop hk =>
      subst hj
      obtain ⟨rfl, rfl, hn⟩ := h.of_scanning hk
      exact ⟨size, hn, .inr ⟨Function.update_self _ _ _, rfl⟩⟩
    | respond => simp [ArrayEvent.bounds, ArrayEvent.thread, hj] at he
  · have hother : n + ownSteps j [e] = n := by simp [ownSteps, Ne.symm hj]
    rwa [hother, ScansWithin, hs.threads_of_ne hj]

/-- The next step of a scan can be made at any time. -/
theorem ScansWithin.next {j : ι} {call : ArrayCall T} {n : ℕ} (h : ScansWithin s j call size n) :
    n ≤ size + 1 ∧ ∃ e t, e.thread = j ∧ Step invalid s e t := by
  obtain ⟨it, hit, ⟨hj, rfl⟩ | ⟨hj, rfl⟩⟩ := h
  · refine ⟨by omega, ?_⟩
    rcases Nat.lt_or_eq_of_le hit with hlt | rfl
    · exact ⟨_, _, rfl, .visit hj hlt⟩
    · exact ⟨_, _, rfl, .stop hj⟩
  · exact ⟨by omega, _, _, rfl, .respond hj⟩

/-- A call other than `remove` begins with a scan. -/
theorem Step.scansWithin {j : ι} {call : ArrayCall T} (hs : Step invalid s (.call j call) t)
    (hcall : ∀ v, call ≠ .remove v) (limit : ℕ) : ScansWithin t j call limit 0 := by
  generalize he : ArrayEvent.call j call = e at hs
  cases hs with
  | call hi henter =>
    obtain ⟨rfl, rfl⟩ := ArrayEvent.call.inj he
    obtain ⟨rfl, -⟩ := enter_of_not_remove henter hcall
    exact ⟨0, Nat.zero_le limit, .inl ⟨Function.update_self _ _ _, rfl⟩⟩
  | visit => cases he
  | stop => cases he
  | respond => cases he

/-- Since it began, a call has not gone beyond a slot that it cannot pass. -/
theorem scansWithin_run {j : ι} {call : ArrayCall T} {limit : ℕ}
    {before after : List (ArrayEvent ι T)}
    (hrun : Run (Step invalid) (cleared invalid) (before ++ .call j call :: after) s)
    (hcall : ∀ v, call ≠ .remove v) (hafter : ∀ e ∈ after, e.bounds j = false)
    (hlimit : ∀ later rest (u : LockFreeArray ι T size), after = later ++ rest →
      Run (Step invalid) (cleared invalid) (before ++ .call j call :: later) u →
      Stops invalid u.array call limit) : ScansWithin s j call limit (ownSteps j after) := by
  obtain ⟨s₀, hstart, hscan⟩ := hrun.split
  obtain ⟨s₁, hbegin, hrest⟩ := hscan.cons_inv
  revert hafter hlimit
  refine hrest.history_invariant (fun later u => (∀ e ∈ later, e.bounds j = false) →
    (∀ first rest (u : LockFreeArray ι T size), later = first ++ rest →
      Run (Step invalid) (cleared invalid) (before ++ .call j call :: first) u →
      Stops invalid u.array call limit) → ScansWithin u j call limit (ownSteps j later)) ?_ ?_
  · exact fun _ _ => hbegin.scansWithin hcall limit
  · intro later u e u' hlater ih hs hafter hlimit
    rw [List.forall_mem_append, List.forall_mem_singleton] at hafter
    have hscans := ih hafter.1 fun first rest u hsplit =>
      hlimit first (rest ++ [e]) u (by rw [hsplit, List.append_assoc])
    have hstops := hlimit later [e] u rfl (hstart.append (hlater.cons hbegin))
    rw [ownSteps, List.countP_append]
    exact hscans.step hstops hs hafter.2

/-- A search that begins after the insertion of an element that it looks for has returned does not
go beyond the slot of the element. -/
theorem scansWithin_search {i j : ι} {cond : T → Bool} {value : T}
    {before mid after : List (ArrayEvent ι T)} (hcond : cond value = true)
    (hrun : Run (Step invalid) (cleared invalid) (before ++
      .respond i (.insert value) (.index (some slot)) ::
        (mid ++ .call j (.findIf cond) :: after)) s)
    (hes : ∀ e ∈ before ++ .respond i (.insert value) (.index (some slot)) ::
      (mid ++ .call j (.findIf cond) :: after), e.isRemoval = false)
    (hafter : ∀ e ∈ after, e.bounds j = false) :
    ScansWithin s j (.findIf cond) slot (ownSteps j after) := by
  have hsplit (later : List (ArrayEvent ι T)) :
      before ++ .respond i (.insert value) (.index (some slot)) ::
        (mid ++ .call j (.findIf cond) :: later) =
      (before ++ .respond i (.insert value) (.index (some slot)) :: mid) ++
        .call j (.findIf cond) :: later := by simp
  rw [hsplit] at hrun hes
  refine scansWithin_run hrun (fun v => by simp) hafter ?_
  rintro later rest u rfl hu
  have hremoval : ∀ e ∈ (before ++ .respond i (.insert value) (.index (some slot)) :: mid) ++
      .call j (.findIf cond) :: later, e.isRemoval = false :=
    fun e he => hes e (by simp only [List.mem_append, List.mem_cons] at he ⊢; tauto)
  have hkept := (inv_run hu hremoval).kept i value slot (by simp)
  exact .inr ⟨value, hkept.1, hcond⟩

/-- Without removals, successful insertions return distinct slots that keep the elements, an
insertion fails only if all slots are occupied when it returns, and once all insertions have
returned as many have succeeded as there was room for. A call can always go on and returns after at
most one step for each slot and one for the end. A search for an element whose insertion has
returned has passed as many slots as it made steps, not beyond the slot of the element, and then
returns that slot or one before. -/
theorem insertions_linear (hrun : Run (Step invalid) (cleared invalid) es s)
    (hes : ∀ e ∈ es, e.isRemoval = false) :
    (returned es).Nodup ∧
    (∀ i v slot, .respond i (.insert v) (.index (some slot)) ∈ es → s.array[slot]? = some v) ∧
    (∀ i v t, Step invalid s (.respond i (.insert v) (.index none)) t → Full invalid s.array) ∧
    (Settled s → (returned es).length = min size (es.countP ArrayEvent.isInsertion)) ∧
    (∀ j call before after, es = before ++ .call j call :: after →
      (∀ e ∈ after, e.bounds j = false) →
        ownSteps j after ≤ size + 1 ∧ ∃ e t, e.thread = j ∧ Step invalid s e t) ∧
    ∀ i j v slot before mid after,
      es = before ++ .respond i (.insert v) (.index (some slot)) ::
        (mid ++ .call j (.find v) :: after) →
      (∀ e ∈ after, e.bounds j = false) →
        ownSteps j after ≤ slot + 1 ∧
        (∃ slot' ≤ slot,
          ownSteps j after = slot' ∧
            (∃ found t, Step invalid s (.visit j (.find v) slot' found) t) ∨
          ownSteps j after = slot' + 1 ∧
            ∃ t, Step invalid s (.respond j (.find v) (.index (some slot'))) t) ∧
        ∀ r t, Step invalid s (.respond j (.find v) r) t →
          ∃ slot' ≤ slot, r = .index (some slot') := by
  have hinv := inv_run hrun hes
  refine ⟨hinv.nodup, fun i v slot hmem => (hinv.kept i v slot hmem).1, ?_,
    hinv.length_returned, ?_, ?_⟩
  · intro i v t hs
    exact hinv.full_of_failure hs
  · rintro j call before after rfl hafter
    have hcall : ∀ v, call ≠ .remove v := by
      rintro v rfl
      cases hes (.call j (.remove v)) (by simp)
    exact (scansWithin_run hrun hcall hafter fun _ _ _ _ _ => .inl rfl).next
  · rintro i j v slot before mid after rfl hafter
    have hlt : slot < size := by
      have hslot := (hinv.kept i v slot (by simp)).1
      exact (Vector.getElem?_eq_some_iff.mp hslot).1
    have hresult {it : ℕ} (hit : it ≤ slot) :
        (ArrayCall.find v).result size it = .index (some it) := by
      rw [ArrayCall.find, ArrayCall.result, if_pos (by omega)]
    obtain ⟨it, hit, hj⟩ := scansWithin_search (by simp) hrun hes hafter
    refine ⟨by omega, ⟨it, hit, ?_⟩, ?_⟩
    · rcases hj with ⟨hj, hn⟩ | ⟨hj, hn⟩
      · exact .inl ⟨hn, _, _, .visit hj (by omega)⟩
      · rw [← hresult hit]
        exact .inr ⟨hn, _, .respond hj⟩
    · intro r t hs
      obtain ⟨it', hj', rfl⟩ := hs.respond_inv
      rw [hj'] at hj
      rcases hj with ⟨hj, -⟩ | ⟨hj, -⟩
      · cases hj
      · cases hj
        exact ⟨it, hit, hresult hit⟩

/-- One thread inserts two values, then another one has visited two slots in a search for the
second of them. -/
def insertTwiceAndFind : List (ArrayEvent Bool ℕ) :=
  [.call true (.insert 7), .visit true (.insert 7) 0 true,
    .respond true (.insert 7) (.index (some 0)), .call true (.insert 5),
    .visit true (.insert 5) 0 false, .visit true (.insert 5) 1 true,
    .respond true (.insert 5) (.index (some 1)), .call false (.find 5),
    .visit false (.find 5) 0 false, .visit false (.find 5) 1 true]

theorem insertTwiceAndFind_run : ∃ s : LockFreeArray Bool ℕ 3,
    Run (Step 0) (cleared 0) insertTwiceAndFind s ∧ s.array = #v[7, 5, 0] := by
  have h₁ : Run (Step 0) (cleared 0 : LockFreeArray Bool ℕ 3) [.call true (.insert 7)] _ :=
    Run.nil.snoc (.call rfl rfl)
  have h₂ := h₁.snoc (.visit (i := true) rfl (by decide))
  have h₃ := h₂.snoc (.respond (i := true) rfl)
  have h₄ := h₃.snoc (show Step 0 _ (.call true (.insert 5)) _ from .call rfl rfl)
  have h₅ := h₄.snoc (.visit (i := true) rfl (by decide))
  have h₆ := h₅.snoc (.visit (i := true) rfl (by decide))
  have h₇ := h₆.snoc (.respond (i := true) rfl)
  have h₈ := h₇.snoc (show Step 0 _ (.call false (.find 5)) _ from .call rfl rfl)
  have h₉ := h₈.snoc (.visit (i := false) rfl (by decide))
  exact ⟨_, h₉.snoc (.visit (i := false) rfl (by decide)), rfl⟩

/-- The slots are distinct and keep the values, and the search returns the second slot at most. -/
theorem insertions_linear_find : ∃ s : LockFreeArray Bool ℕ 3,
    Run (Step 0) (cleared 0) insertTwiceAndFind s ∧ returned insertTwiceAndFind = [0, 1] ∧
      s.array[0]? = some 7 ∧ s.array[1]? = some 5 ∧
      ∃ slot ≤ 1, ∃ t, Step 0 s (.respond false (.find 5) (.index (some slot))) t := by
  obtain ⟨s, hrun, -⟩ := insertTwiceAndFind_run
  obtain ⟨-, hkept, -, -, -, hfind⟩ := insertions_linear hrun (by decide)
  obtain ⟨-, ⟨slot, hslot, ⟨hvisits, -⟩ | ⟨-, hrespond⟩⟩, -⟩ := hfind true false 5 1
    (insertTwiceAndFind.take 6) [] (insertTwiceAndFind.drop 8) rfl
    (by simp [insertTwiceAndFind, ArrayEvent.bounds])
  · have hown : ownSteps false (insertTwiceAndFind.drop 8) = 2 := rfl
    omega
  · exact ⟨s, hrun, rfl, hkept true 7 0 (by simp [insertTwiceAndFind]),
      hkept true 5 1 (by simp [insertTwiceAndFind]), slot, hslot, hrespond⟩

end Runs

end LockFreeArray

end Toyos.Util
