import Toyos.Util.LockFreeQueueRuns

/-!
# Attaching to foreign queue storage

A producer or consumer attached to existing storage verifies the version and the
size of the entries, and nothing else: the number of entries and both positions
are taken as they are. The accesses that follow are safe exactly when these
already fit the storage, or when the queue holds no entry at all and its
producer is turned away forever.
-/

namespace Toyos.Util

open Toyos.Core

/-- `LFQ_API_VERSION`. -/
def lfqApiVersion : ℕ := 1

/-- `queue_storage` with the meta data that other parties rely on. -/
structure SharedStorage (T : Type) (maxSize : ℕ) extends QueueStorage T maxSize where
  /-- The version of the layout. -/
  version : ℕ
  /-- The size of an entry in bytes. -/
  entrySize : ℕ

namespace SharedStorage

variable {T : Type} {maxSize : ℕ}

/-- `verify`, by the size of the elements. -/
def verify (q : SharedStorage T maxSize) (sizeOf : ℕ) : Bool :=
  q.version == lfqApiVersion && q.entrySize == sizeOf

/-- `lock_free_queue_producer::create_from_existing_storage`. -/
def createFromExistingStorage (q : SharedStorage T maxSize) (sizeOf : ℕ) : Option (Producer T) :=
  if !q.verify sizeOf then none else some .idle

/-- `lock_free_queue_consumer::create`. -/
def create (q : SharedStorage T maxSize) (sizeOf : ℕ) : Option (Consumer T) :=
  if q.verify sizeOf then some .idle else none

/-- A producer and a consumer on the same storage. -/
def attach (q : SharedStorage T maxSize) (sizeOf : ℕ) : Option (QueueSystem T maxSize) := do
  let producer ← q.createFromExistingStorage sizeOf
  let consumer ← q.create sizeOf
  return ⟨q.toQueueStorage, producer, consumer, false, none, [], []⟩

theorem attach_eq {q : SharedStorage T maxSize} {sizeOf : ℕ} (h : q.verify sizeOf = true) :
    q.attach sizeOf = some (.start q.toQueueStorage) := by
  simp [attach, createFromExistingStorage, create, h, QueueSystem.start]

end SharedStorage

namespace QueueSystem

variable {T : Type} {maxSize : ℕ} {s t : QueueSystem T maxSize} {a : QueueAction T}

/-- The steps of attached parties: `front` is also called without a check, and `pop` also drops
a position without an element. -/
inductive AttachedStep : QueueSystem T maxSize → QueueAction T → QueueSystem T maxSize → Prop
  | guarded {s t : QueueSystem T maxSize} {a : QueueAction T} : Step s a t → AttachedStep s a t
  | front {s : QueueSystem T maxSize} (hc : s.consumer = .idle) :
      AttachedStep s .front { s with consumer := .checking (.front false) none none }
  | advance {s : QueueSystem T maxSize} {val slot} (hc : s.consumer = .advancing val slot)
      (hslot : maxSize < slot) :
      AttachedStep s .advance { s with
        queue := { s.queue with readPosition := s.queue.nextSlot slot }
        consumer := .idle
        ready := false
        held := none }

/-- A party is about to compute the next slot. -/
def ComputesNext (s : QueueSystem T maxSize) : Prop :=
  (∃ elem read write, s.producer = .checking elem (some read) (some write)) ∨
    (∃ elem slot, s.producer = .publishing elem slot) ∨
    ∃ val slot, s.consumer = .advancing val slot

/-- Every element that is accessed exists, and no slot is reduced modulo zero. -/
structure Safe (s : QueueSystem T maxSize) : Prop where
  writes_le : ∀ slot, s.Writes slot → slot ≤ maxSize
  reads_le : ∀ slot, s.Reads slot → slot ≤ maxSize
  modulus_pos : s.ComputesNext → wrap (s.queue.entryNum + 1) ≠ 0

/-- The producer is not beyond its check and loaded no read position but zero. -/
def Stalled (s : QueueSystem T maxSize) : Prop :=
  s.producer = .idle ∨ ∃ elem read write, s.producer = .checking elem read write ∧
    ∀ x, read = some x → x = 0

/-- Positions and slots stay inside the storage. -/
structure Confined (s : QueueSystem T maxSize) : Prop where
  entryNum_le : s.queue.entryNum ≤ maxSize
  readPosition_le : s.queue.readPosition ≤ maxSize
  room : s.queue.writePosition ≤ maxSize ∨
    (s.queue.entryNum = 0 ∧ s.queue.readPosition = 0 ∧ s.Stalled)
  writes_le : ∀ slot, s.Writes slot → slot ≤ maxSize
  reads_le : ∀ slot, s.Reads slot → slot ≤ maxSize

theorem Confined.safe (h : s.Confined) (hmax : maxSize + 1 < 2 ^ 64) : s.Safe where
  writes_le := h.writes_le
  reads_le := h.reads_le
  modulus_pos _ := by
    have hle := h.entryNum_le
    rw [wrap_of_lt (by omega)]
    omega

/-- The next slot exists when the number of entries fits the storage. -/
theorem Confined.nextSlot_le (h : s.Confined) (hmax : maxSize + 1 < 2 ^ 64) (old : ℕ) :
    s.queue.nextSlot old ≤ maxSize := by
  have hle := h.entryNum_le
  have hlt : s.queue.nextSlot old < s.queue.entryNum + 1 := by
    rw [QueueStorage.nextSlot, wrap_of_lt (by omega : s.queue.entryNum + 1 < 2 ^ 64)]
    exact Nat.mod_lt _ (Nat.succ_pos _)
  omega

/-- With no entry and the read position zero, the producer finds the queue full. -/
theorem isFull_of_entryNum_zero {q : QueueStorage T maxSize} (hnum : q.entryNum = 0) (write : ℕ) :
    q.isFull 0 write = true := by
  simp [QueueStorage.isFull, QueueStorage.nextSlot, hnum, wrap, Nat.mod_one]

/-- A step of the producer that only moves on. -/
theorem Confined.producer_moves (h : s.Confined) {producer : Producer T}
    (hwrites : ∀ elem slot, producer = .filling elem slot → slot ≤ maxSize)
    (hstalled : s.queue.entryNum = 0 → s.queue.readPosition = 0 → s.Stalled →
      Stalled { s with producer := producer }) :
    Confined { s with producer := producer } :=
  { h with
    room := h.room.imp_right fun ⟨hnum, hread, hs⟩ => ⟨hnum, hread, hstalled hnum hread hs⟩
    writes_le := fun slot ⟨elem, hp⟩ => hwrites elem slot hp }

/-- A step of the consumer that only moves on. -/
theorem Confined.consumer_moves (h : s.Confined) {consumer : Consumer T} {ready : Bool}
    {held : Option ℕ} (hheld : ∀ slot, held = some slot → slot ≤ maxSize)
    (hcopying : ∀ slot, consumer = .copying slot → slot ≤ maxSize) :
    Confined { s with consumer := consumer, ready := ready, held := held } :=
  { h with reads_le := fun slot hreads => hreads.elim (hheld slot) (hcopying slot) }

/-- A producer that is beyond its check is not stalled. -/
theorem Confined.writePosition_le (h : s.Confined) (hs : ¬s.Stalled) :
    s.queue.writePosition ≤ maxSize := by
  rcases h.room with hle | ⟨-, -, hstalled⟩
  · exact hle
  · exact absurd hstalled hs

/-- The answer of `full` lets the producer pass only when it is not stalled. -/
theorem Confined.checkFull (h : s.Confined) {elem : T} {read write : ℕ}
    (hp : s.producer = .checking elem (some read) (some write)) :
    Confined { s with
      producer := if s.queue.isFull read write then .idle else .reloading elem } := by
  refine h.producer_moves (fun elem slot hf => ?_) fun hnum _ hs => ?_
  · split at hf <;> cases hf
  · rcases hs with hidle | ⟨elem', read', write', hchecking, hzero⟩
    · simp [hp] at hidle
    · obtain ⟨rfl, rfl, rfl⟩ := Producer.checking.inj (hp.symm.trans hchecking)
      obtain rfl := hzero read rfl
      rw [if_pos (isFull_of_entryNum_zero hnum write)]
      exact Or.inl rfl

/-- The answer of `empty` makes the consumer hold no further element. -/
theorem Confined.checkEmpty (h : s.Confined) (check : Check T) (empty ready : Bool) :
    Confined { s with consumer := check.outcome empty, ready := ready } := by
  refine h.consumer_moves (fun slot hs => h.reads_le slot (.inl hs)) fun slot hs => ?_
  cases check with
  | empty => cases hs
  | get => cases empty <;> cases hs
  | front getting => cases empty <;> cases hs
  | pop val =>
    cases val with
    | none => cases empty <;> cases hs
    | some v => cases empty <;> cases hs

/-- Removing the front position leaves the next one inside the storage. -/
theorem Confined.advance (h : s.Confined) (hmax : maxSize + 1 < 2 ^ 64) (slot : ℕ)
    (popped : List T) :
    Confined { s with
      queue := { s.queue with readPosition := s.queue.nextSlot slot }
      consumer := .idle
      ready := false
      held := none
      popped := popped } := by
  refine { h with readPosition_le := h.nextSlot_le hmax slot, room := ?_, reads_le := ?_ }
  · refine h.room.imp_right fun ⟨hnum, _, hs⟩ => ⟨hnum, ?_, hs⟩
    simp [QueueStorage.nextSlot, hnum, wrap, Nat.mod_one]
  · rintro slot (hheld | hcopying)
    · cases hheld
    · cases hcopying

/-- Every guarded step stays inside the storage. -/
theorem Confined.step (h : s.Confined) (hmax : maxSize + 1 < 2 ^ 64) (hs : Step s a t) :
    t.Confined := by
  have hheld : ∀ slot, s.held = some slot → slot ≤ maxSize :=
    fun slot hslot => h.reads_le slot (.inl hslot)
  cases hs with
  | push hp =>
    refine h.producer_moves (fun _ _ hf => by cases hf) fun _ _ _ => ?_
    exact .inr ⟨_, _, _, rfl, by simp⟩
  | loadRead hp =>
    refine h.producer_moves (fun _ _ hf => by cases hf) fun _ hread _ => ?_
    exact .inr ⟨_, _, _, rfl, fun x hx => by rw [← Option.some.inj hx, hread]⟩
  | @loadWrite elem read hp =>
    refine h.producer_moves (fun _ _ hf => by cases hf) fun _ _ hs => ?_
    rcases hs with hidle | ⟨elem', read', write', hchecking, hzero⟩
    · simp [hp] at hidle
    · obtain ⟨rfl, rfl, -⟩ := Producer.checking.inj (hp.symm.trans hchecking)
      exact .inr ⟨_, _, _, rfl, hzero⟩
  | checkFull hp => exact h.checkFull hp
  | reload hp =>
    have hns : ¬s.Stalled := by simp [Stalled, hp]
    refine h.producer_moves (fun _ slot hf => ?_) fun _ _ hs => absurd hs hns
    obtain ⟨-, rfl⟩ := Producer.filling.inj hf
    exact h.writePosition_le hns
  | fill hp hslot =>
    have hns : ¬s.Stalled := by simp [Stalled, hp]
    exact { h with
      room := .inl (h.writePosition_le hns)
      writes_le := fun slot ⟨elem, hf⟩ => by cases hf }
  | publish hp =>
    exact { h with
      room := .inl (h.nextSlot_le hmax _)
      writes_le := fun slot ⟨elem, hf⟩ => by cases hf }
  | empty hc => exact h.consumer_moves hheld fun _ hf => by cases hf
  | front hc hready => exact h.consumer_moves hheld fun _ hf => by cases hf
  | pop hc => exact h.consumer_moves hheld fun _ hf => by cases hf
  | getAndPop hc => exact h.consumer_moves hheld fun _ hf => by cases hf
  | peekRead hc => exact h.consumer_moves hheld fun _ hf => by cases hf
  | peekWrite hc => exact h.consumer_moves hheld fun _ hf => by cases hf
  | @checkEmpty check read write hc => exact h.checkEmpty check (isEmpty read write) _
  | @loadFront getting hc =>
    refine h.consumer_moves (fun slot hslot => ?_) fun slot hslot => ?_
    · exact Option.some.inj hslot ▸ h.readPosition_le
    · cases getting with
      | true => exact Consumer.copying.inj hslot ▸ h.readPosition_le
      | false => cases hslot
  | copy hc hslot => exact h.consumer_moves hheld fun _ hf => by cases hf
  | loadPop hc => exact h.consumer_moves hheld fun _ hf => by cases hf
  | advance hc hslot => exact h.advance hmax _ _

/-- Every step of attached parties stays inside the storage. -/
theorem Confined.attachedStep (h : s.Confined) (hmax : maxSize + 1 < 2 ^ 64)
    (hs : AttachedStep s a t) : t.Confined := by
  cases hs with
  | guarded hs => exact h.step hmax hs
  | front hc =>
    exact h.consumer_moves (fun slot hslot => h.reads_le slot (.inl hslot)) fun _ hf => by cases hf
  | advance hc hslot => exact h.advance hmax _ s.popped

/-- Both parties are between two calls, with the given number of entries and positions. -/
structure At (s : QueueSystem T maxSize) (num read write : ℕ) : Prop where
  producer : s.producer = .idle
  consumer : s.consumer = .idle
  entryNum : s.queue.entryNum = num
  readPosition : s.queue.readPosition = read
  writePosition : s.queue.writePosition = write

/-- Some run leads to an unsafe access. -/
def Hazard (s : QueueSystem T maxSize) : Prop :=
  ∃ es t, Run AttachedStep s es t ∧ ¬t.Safe

theorem Hazard.of_run {es : List (QueueAction T)} (hrun : Run AttachedStep s es t)
    (h : t.Hazard) : s.Hazard := by
  obtain ⟨es', u, hrun', hu⟩ := h
  exact ⟨es ++ es', u, hrun.append hrun', hu⟩

variable {num read write : ℕ}

/-- The slot behind a slot, by the number of entries. -/
def following (num old : ℕ) : ℕ := wrap (old + 1) % wrap (num + 1)

/-- The producer has loaded both positions. -/
theorem At.checking_run (h : s.At num read write) (elem : T) :
    Run AttachedStep s [.push elem, .loadRead, .loadWrite]
      { s with producer := .checking elem (some read) (some write) } := by
  obtain ⟨hp, -, -, rfl, rfl⟩ := h
  have hpush : Run AttachedStep s [.push elem] _ := Run.nil.snoc (.guarded (.push hp))
  have hread := hpush.snoc (.guarded (.loadRead rfl))
  exact hread.snoc (.guarded (.loadWrite rfl))

/-- The producer has passed its check. -/
theorem At.filling_run (h : s.At num read write) (hroom : read ≠ following num write) (elem : T) :
    ∃ es, Run AttachedStep s es { s with producer := .filling elem write } := by
  have hrun := (h.checking_run elem).snoc (.guarded (.checkFull rfl))
  have hfull : s.queue.isFull read write = false := by
    simpa [QueueStorage.isFull, QueueStorage.nextSlot, h.entryNum, following] using hroom
  simp only [hfull, Bool.false_eq_true, if_false] at hrun
  have hreload := hrun.snoc (.guarded (.reload rfl))
  simp only [h.writePosition] at hreload
  exact ⟨_, hreload⟩

/-- The consumer has loaded both positions and found them different. -/
theorem At.nonempty_run (h : s.At num read write) (hne : read ≠ write) (check : Check T)
    {begin : QueueAction T}
    (hbegin : AttachedStep s begin { s with consumer := .checking check none none }) :
    ∃ es, Run AttachedStep s es { s with
      consumer := check.outcome false
      ready := check.permits false s.ready } := by
  have hrun := ((Run.nil.snoc hbegin).snoc (.guarded (.peekRead rfl))).snoc
    (.guarded (.peekWrite rfl))
  have hcheck := hrun.snoc (.guarded (.checkEmpty rfl))
  have hempty : isEmpty s.queue.readPosition s.queue.writePosition = false := by
    simpa [isEmpty, h.readPosition, h.writePosition] using hne
  simp only [hempty] at hcheck
  exact ⟨_, hcheck⟩

/-- A push that writes behind the storage. -/
theorem At.hazard_of_push (h : s.At num read write) (hroom : read ≠ following num write)
    (hwrite : maxSize < write) : s.Hazard := by
  obtain ⟨es, hrun⟩ := h.filling_run hroom s.queue.elements[0]
  refine ⟨es, _, hrun, fun hsafe => ?_⟩
  have hle := hsafe.writes_le write ⟨_, rfl⟩
  omega

/-- A reduction modulo zero. -/
theorem At.hazard_of_modulus (h : s.At num read write) (hnum : wrap (num + 1) = 0) : s.Hazard := by
  refine ⟨_, _, h.checking_run s.queue.elements[0], fun hsafe => ?_⟩
  exact hsafe.modulus_pos (.inl ⟨_, _, _, rfl⟩) (h.entryNum ▸ hnum)

/-- A front that reads behind the storage. -/
theorem At.hazard_of_front (h : s.At num read write) (hne : read ≠ write) (hread : maxSize < read) :
    s.Hazard := by
  obtain ⟨es, hrun⟩ := h.nonempty_run hne (.front false) (.front h.consumer)
  refine ⟨_, _, hrun.snoc (.guarded (.loadFront rfl)), fun hsafe => ?_⟩
  have hle := hsafe.reads_le read (.inl (by simp [h.readPosition]))
  omega

/-- After a push, the write position is the following one. -/
theorem At.hazard_after_push (h : s.At num read write) (hroom : read ≠ following num write)
    (hwrite : write ≤ maxSize)
    (hnext : ∀ t : QueueSystem T maxSize, t.At num read (following num write) → t.Hazard) :
    s.Hazard := by
  obtain ⟨es, hrun⟩ := h.filling_run hroom s.queue.elements[0]
  have hpublish := (hrun.snoc (.guarded (.fill rfl (Nat.lt_succ_of_le hwrite)))).snoc
    (.guarded (.publish rfl))
  refine .of_run hpublish (hnext _ ⟨rfl, h.consumer, h.entryNum, h.readPosition, ?_⟩)
  simp [QueueStorage.nextSlot, following, h.entryNum]

/-- After a pop, the read position is the following one. -/
theorem At.hazard_after_pop (h : s.At num read write) (hne : read ≠ write) (hread : read ≤ maxSize)
    (hnext : ∀ t : QueueSystem T maxSize, t.At num (following num read) write → t.Hazard) :
    s.Hazard := by
  obtain ⟨es, hrun⟩ := h.nonempty_run hne (.pop none) (.guarded (.pop h.consumer))
  have hload := hrun.snoc (.guarded (.loadPop rfl))
  have hslot : s.queue.readPosition < maxSize + 1 := by
    rw [h.readPosition]
    omega
  refine .of_run (hload.snoc (.guarded (.advance rfl hslot)))
    (hnext _ ⟨h.producer, rfl, h.entryNum, ?_, h.writePosition⟩)
  simp [QueueStorage.nextSlot, following, h.entryNum, h.readPosition]

theorem following_of_lt {num old : ℕ} (hlt : old < num) (hword : num + 1 < 2 ^ 64) :
    following num old = old + 1 := by
  rw [following, wrap_of_lt (by omega), wrap_of_lt hword, Nat.mod_eq_of_lt (by omega)]

/-- Only with no entry and from position zero does a position follow itself. -/
theorem following_ne {num old : ℕ} (hword : num + 1 < 2 ^ 64) (hpos : 0 < old ∨ 0 < num) :
    following num old ≠ old := by
  intro heq
  have hle : old < num + 1 := by
    rw [← heq, following, wrap_of_lt hword]
    exact Nat.mod_lt _ (Nat.succ_pos _)
  rcases Nat.lt_succ_iff_lt_or_eq.mp hle with hlt | rfl
  · rw [following_of_lt hlt hword] at heq
    omega
  · rw [following, wrap_of_lt hword, Nat.mod_self] at heq
    omega

/-- With more entries than the storage has, an empty queue is filled up to its end. -/
theorem At.hazard_of_empty (hnum : maxSize < num) (hword : num + 1 < 2 ^ 64) {pos : ℕ}
    (hpos : pos ≤ maxSize + 1) (h : s.At num pos pos) : s.Hazard := by
  have hne : pos ≠ following num pos := (following_ne hword (.inr (by omega))).symm
  induction hd : maxSize + 1 - pos generalizing pos s with
  | zero => exact h.hazard_of_push hne (by omega)
  | succ d ih =>
    have hnext : following num pos = pos + 1 := following_of_lt (by omega) hword
    refine h.hazard_after_push hne (by omega) fun t ht => ?_
    refine ht.hazard_after_pop hne (by omega) fun u hu => ?_
    rw [hnext] at hu
    exact ih (by omega) hu (following_ne hword (.inr (by omega))).symm (by omega)

/-- With more entries than the storage has, some slot behind its end is accessed. -/
theorem At.hazard_of_excess (hnum : maxSize < num) (hword : num + 1 < 2 ^ 64)
    (hwrite : write ≤ maxSize) (hread : read ≤ maxSize + 1) (h : s.At num read write) :
    s.Hazard := by
  induction hd : maxSize + 1 - read generalizing read s with
  | zero => exact h.hazard_of_front (by omega) (by omega)
  | succ d ih =>
    by_cases heq : read = write
    · subst heq
      exact At.hazard_of_empty hnum hword hread h
    · refine h.hazard_after_pop heq (by omega) fun t ht => ?_
      rw [following_of_lt (by omega) hword] at ht
      exact ih (by omega) ht (by omega)

/-- A write position behind the storage is reached unless the producer is stalled forever. -/
theorem At.hazard_of_write (hword : num + 1 < 2 ^ 64) (hwrite : maxSize < write)
    (hblocked : ¬(num = 0 ∧ read = 0)) (h : s.At num read write) : s.Hazard := by
  by_cases hroom : read = following num write
  · have hne : read ≠ write := hroom ▸ following_ne hword (.inl (by omega))
    by_cases hread : maxSize < read
    · exact h.hazard_of_front hne hread
    · refine h.hazard_after_pop hne (by omega) fun t ht => ?_
      refine ht.hazard_of_push ?_ hwrite
      rw [← hroom]
      exact following_ne hword (by omega)
  · exact h.hazard_of_push hroom hwrite

/-- Attached to storage that passes `verify`, every run accesses only elements that exist and
never reduces modulo zero exactly when the number of entries and both positions fit the storage,
or when there is no entry and the read position is zero. -/
theorem attached_safe_iff (hmax : maxSize + 1 < 2 ^ 64) {q : SharedStorage T maxSize} {sizeOf : ℕ}
    (hverify : q.verify sizeOf = true) (hnum : q.entryNum < 2 ^ 64) :
    (∀ init, q.attach sizeOf = some init → ∀ es s, Run AttachedStep init es s → s.Safe) ↔
      (q.entryNum ≤ maxSize ∧ q.readPosition ≤ maxSize ∧ q.writePosition ≤ maxSize) ∨
        (q.entryNum = 0 ∧ q.readPosition = 0) := by
  have hattach := SharedStorage.attach_eq hverify
  have hat : (start q.toQueueStorage).At q.entryNum q.readPosition q.writePosition :=
    ⟨rfl, rfl, rfl, rfl, rfl⟩
  constructor
  · intro hsafe
    have hnone : ¬(start q.toQueueStorage).Hazard :=
      fun ⟨es, s, hrun, hs⟩ => hs (hsafe _ hattach es s hrun)
    by_contra hcond
    rw [not_or] at hcond
    apply hnone
    by_cases hword : q.entryNum + 1 = 2 ^ 64
    · exact hat.hazard_of_modulus (by rw [hword, wrap, Nat.mod_self])
    · by_cases hw : maxSize < q.writePosition
      · exact At.hazard_of_write (by omega) hw hcond.2 hat
      · by_cases hr : maxSize < q.readPosition
        · exact hat.hazard_of_front (by omega) hr
        · exact At.hazard_of_excess (by omega) (by omega) (by omega) (by omega) hat
  · intro hcond init hinit es s hrun
    obtain rfl := Option.some.inj (hattach.symm.trans hinit)
    have hstart : (start q.toQueueStorage).Confined := by
      refine ⟨by simp only [start]; omega, by simp only [start]; omega, ?_, ?_, ?_⟩
      · rcases hcond with hin | hzero
        · exact .inl hin.2.2
        · exact .inr ⟨hzero.1, hzero.2, .inl rfl⟩
      · rintro slot ⟨elem, hp⟩
        cases hp
      · rintro slot (hheld | hcopying)
        · cases hheld
        · cases hcopying
    have hconfined := hrun.invariant Confined hstart fun s a t hs hstep =>
      hs.attachedStep hmax hstep
    exact hconfined.safe hmax

/-- Storage for one element that was left empty by other parties. -/
def oneEntry : SharedStorage ℕ 1 := ⟨⟨1, 0, 0, #v[0, 0]⟩, 1, 8⟩

/-- Attached to the empty storage, every run is safe. -/
theorem attached_safe_iff_oneEntry : oneEntry.verify 8 = true ∧
    ∀ init, oneEntry.attach 8 = some init → ∀ es s, Run AttachedStep init es s → s.Safe :=
  ⟨rfl, (attached_safe_iff (by decide) rfl (by decide)).mpr
    (.inl ⟨by decide, by decide, by decide⟩)⟩

/-- The same storage with a write position behind its end. -/
def strayPosition : SharedStorage ℕ 1 := { oneEntry with writePosition := 4 }

/-- The storage passes `verify`, and the first push writes behind its end. -/
theorem stray_position_written : strayPosition.verify 8 = true ∧
    ∃ init es s, strayPosition.attach 8 = some init ∧ Run AttachedStep init es s ∧
      s.Writes 4 ∧ ¬s.Safe := by
  have hat : (start strayPosition.toQueueStorage).At 1 0 4 := ⟨rfl, rfl, rfl, rfl, rfl⟩
  obtain ⟨es, hrun⟩ := hat.filling_run (by decide) 7
  refine ⟨rfl, _, es, _, rfl, hrun, ⟨7, rfl⟩, fun hsafe => ?_⟩
  exact absurd (hsafe.writes_le 4 ⟨7, rfl⟩) (by decide)

end QueueSystem

end Toyos.Util
