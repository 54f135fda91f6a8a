import Toyos.Core.Cyclic
import Toyos.Util.LockFreeQueue

/-!
# The lock-free queue over whole runs

Elements are numbered in the order they are pushed; element `i` lies in slot
`i % (entryNum + 1)`. A position that one party loaded belongs to an earlier
count of the other party, and counts only grow. The producer therefore never
takes a slot that is still in use, and the consumer never one that is not filled.
-/

namespace Toyos.Util

open Toyos.Core

namespace QueueStorage

variable {T : Type} {maxSize : ℕ} {q : QueueStorage T maxSize}

/-- The next slot is the slot of the next element. -/
theorem nextSlot_mod (hcap : q.entryNum + 1 < 2 ^ 64) (k : ℕ) :
    q.nextSlot (k % (q.entryNum + 1)) = (k + 1) % (q.entryNum + 1) := by
  have hlt : k % (q.entryNum + 1) < q.entryNum + 1 := Nat.mod_lt k (Nat.succ_pos _)
  rw [nextSlot, wrap_of_lt hcap, wrap_of_lt (by omega), Nat.mod_add_mod]

end QueueStorage

/-- What the producer knows: `c` elements were popped and `p` pushed. -/
def Producer.Knows {T : Type} {m : ℕ} (cap c p : ℕ) (elements : Vector T m) : Producer T → Prop
  | .idle => True
  | .checking _ read write =>
    (∀ x, read = some x → ∃ k ≤ c, x = k % (cap + 1) ∧ p ≤ k + cap) ∧
      ∀ y, write = some y → y = p % (cap + 1)
  | .reloading _ => p < c + cap
  | .filling _ slot => p < c + cap ∧ slot = p % (cap + 1)
  | .publishing elem slot =>
    p < c + cap ∧ slot = p % (cap + 1) ∧ elements[slot]? = some elem

/-- The checks that are made when there is an element. -/
def Check.Known {T : Type} : Check T → Prop
  | .empty => False
  | .get => False
  | .front _ => True
  | .pop val => val.isSome

/-- The value a check carries. -/
def Check.val {T : Type} : Check T → Option T
  | .pop val => val
  | _ => none

/-- What the consumer knows. -/
def Consumer.Knows {T : Type} (cap c : ℕ) (pushed : List T) : Consumer T → Prop
  | .idle => True
  | .checking check read write =>
    (check.Known → c < pushed.length) ∧ (∀ x, read = some x → x = c % (cap + 1)) ∧
      (∀ y, write = some y → ∃ k ≤ pushed.length, c ≤ k ∧ y = k % (cap + 1) ∧
        (check.Known → c < k)) ∧
      ∀ v, check.val = some v → pushed[c]? = some v
  | .fronting _ => c < pushed.length
  | .copying slot => c < pushed.length ∧ slot = c % (cap + 1)
  | .popping val => c < pushed.length ∧ ∀ v, val = some v → pushed[c]? = some v
  | .advancing val slot =>
    c < pushed.length ∧ slot = c % (cap + 1) ∧ ∀ v, val = some v → pushed[c]? = some v
  | .failed => False

/-- Popping more keeps what the producer knows. -/
theorem Producer.Knows.mono {T : Type} {m cap c c' p : ℕ} {elements : Vector T m}
    {producer : Producer T} (h : producer.Knows cap c p elements) (hc : c ≤ c') :
    producer.Knows cap c' p elements := by
  cases producer with
  | idle => trivial
  | checking elem read write =>
    refine ⟨fun x hx => ?_, h.2⟩
    obtain ⟨k, hk, heq, hle⟩ := h.1 x hx
    exact ⟨k, hk.trans hc, heq, hle⟩
  | reloading elem => exact h.trans_le (Nat.add_le_add_right hc cap)
  | filling elem slot => exact ⟨h.1.trans_le (Nat.add_le_add_right hc cap), h.2⟩
  | publishing elem slot => exact ⟨h.1.trans_le (Nat.add_le_add_right hc cap), h.2⟩

/-- Pushing more keeps what the consumer knows. -/
theorem Consumer.Knows.concat {T : Type} {cap c : ℕ} {pushed : List T} {consumer : Consumer T}
    (h : consumer.Knows cap c pushed) (elem : T) : consumer.Knows cap c (pushed ++ [elem]) := by
  have hle : pushed.length ≤ (pushed ++ [elem]).length := by simp
  have hval : ∀ v, pushed[c]? = some v → (pushed ++ [elem])[c]? = some v := by
    intro v hv
    rw [List.getElem?_append_left (List.getElem?_eq_some_iff.mp hv).1, hv]
  cases consumer with
  | idle => trivial
  | checking check read write =>
    obtain ⟨hknown, hread, hwrite, hcheck⟩ := h
    refine ⟨fun hk => (hknown hk).trans_le hle, hread, fun y hy => ?_,
      fun v hv => hval v (hcheck v hv)⟩
    obtain ⟨k, hk, hrest⟩ := hwrite y hy
    exact ⟨k, hk.trans hle, hrest⟩
  | fronting getting => exact h.trans_le hle
  | copying slot => exact ⟨h.1.trans_le hle, h.2⟩
  | popping val => exact ⟨h.1.trans_le hle, fun v hv => hval v (h.2 v hv)⟩
  | advancing val slot => exact ⟨h.1.trans_le hle, h.2.1, fun v hv => hval v (h.2.2 v hv)⟩
  | failed => exact h

namespace QueueSystem

variable {T : Type} {maxSize : ℕ} {s t : QueueSystem T maxSize}

/-- Counts, positions and slots agree. -/
structure Inv (s : QueueSystem T maxSize) : Prop where
  capacity_le : s.queue.entryNum ≤ maxSize
  readPosition_eq : s.queue.readPosition = s.popped.length % (s.queue.entryNum + 1)
  writePosition_eq : s.queue.writePosition = s.pushed.length % (s.queue.entryNum + 1)
  popped_initial : s.popped <+: s.pushed
  stored_le : s.pushed.length ≤ s.popped.length + s.queue.entryNum
  stored : ∀ i < s.pushed.length, s.popped.length ≤ i →
    s.queue.elements[i % (s.queue.entryNum + 1)]? = s.pushed[i]?
  producer : s.producer.Knows s.queue.entryNum s.popped.length s.pushed.length s.queue.elements
  consumer : s.consumer.Knows s.queue.entryNum s.popped.length s.pushed
  ready_ok : s.ready = true → s.popped.length < s.pushed.length
  held_ok : ∀ slot, s.held = some slot →
    s.popped.length < s.pushed.length ∧ slot = s.popped.length % (s.queue.entryNum + 1)

/-- A step of the producer that only moves on. -/
theorem Inv.producer_moves (h : s.Inv) {producer : Producer T}
    (hknows : producer.Knows s.queue.entryNum s.popped.length s.pushed.length s.queue.elements) :
    Inv { s with producer := producer } :=
  { h with producer := hknows }

/-- A step of the consumer that only moves on. -/
theorem Inv.consumer_moves (h : s.Inv) {consumer : Consumer T}
    (hknows : consumer.Knows s.queue.entryNum s.popped.length s.pushed) :
    Inv { s with consumer := consumer } :=
  { h with consumer := hknows }

/-- A check that is passed leaves room for one more element. -/
theorem Inv.room (h : s.Inv) (hmax : maxSize + 1 < 2 ^ 64) {elem : T} {read write : ℕ}
    (hp : s.producer = .checking elem (some read) (some write))
    (hfull : s.queue.isFull read write = false) :
    s.pushed.length < s.popped.length + s.queue.entryNum := by
  have hknows := h.producer
  have hcap := h.capacity_le
  rw [hp] at hknows
  obtain ⟨k, hk, hread, hle⟩ := hknows.1 read rfl
  have hwrite := hknows.2 write rfl
  have hpopped := h.popped_initial.length_le
  by_contra hge
  have hlap : s.pushed.length + 1 = k + (s.queue.entryNum + 1) := by omega
  rw [QueueStorage.isFull, hwrite, QueueStorage.nextSlot_mod (by omega), hlap,
    Nat.add_mod_right, hread] at hfull
  simp at hfull

/-- An answer of `empty`. -/
theorem Inv.isEmpty_iff (h : s.Inv) {check : Check T} {read write : ℕ}
    (hc : s.consumer = .checking check (some read) (some write)) :
    (isEmpty read write = false → s.popped.length < s.pushed.length) ∧
      (check.Known → isEmpty read write = false) := by
  have hknows := h.consumer
  have hle := h.stored_le
  rw [hc] at hknows
  obtain ⟨hknown, hread, hwrite, -⟩ := hknows
  obtain ⟨k, hk, hck, rfl, hlt⟩ := hwrite write rfl
  obtain rfl := hread read rfl
  have hiff : isEmpty (s.popped.length % (s.queue.entryNum + 1)) (k % (s.queue.entryNum + 1)) =
      true ↔ k = s.popped.length := by
    rw [isEmpty, beq_iff_eq, eq_comm, mod_eq_mod_iff hck (by omega)]
  constructor
  · intro hempty
    by_contra hge
    rw [hiff.mpr (by omega)] at hempty
    cases hempty
  · intro hcheck
    rw [Bool.eq_false_iff]
    exact mt hiff.mp (hlt hcheck).ne'

/-- Writing the next element leaves the stored ones alone. -/
theorem Inv.fill (h : s.Inv) {elem : T} {slot : ℕ} (hp : s.producer = .filling elem slot)
    (hslot : slot < maxSize + 1) :
    Inv { s with
      queue := { s.queue with elements := s.queue.elements.set slot elem }
      producer := .publishing elem slot } := by
  have hknows := h.producer
  rw [hp] at hknows
  obtain ⟨hroom, rfl⟩ := hknows
  refine { h with stored := ?_, producer := ⟨hroom, rfl, ?_⟩ }
  · intro i (hi : i < s.pushed.length) (hle : s.popped.length ≤ i)
    have hne : s.pushed.length % (s.queue.entryNum + 1) ≠ i % (s.queue.entryNum + 1) :=
      mod_ne_of_lt hi (by omega)
    rw [Vector.getElem?_set_ne _ hne]
    exact h.stored i hi hle
  · exact Vector.getElem?_set_self hslot

/-- Storing the write position makes the element one of the queue. -/
theorem Inv.publish (h : s.Inv) (hmax : maxSize + 1 < 2 ^ 64) {elem : T} {slot : ℕ}
    (hp : s.producer = .publishing elem slot) :
    Inv { s with
      queue := { s.queue with writePosition := s.queue.nextSlot slot }
      producer := .idle
      pushed := s.pushed ++ [elem] } := by
  have hknows := h.producer
  have hcap := h.capacity_le
  rw [hp] at hknows
  obtain ⟨hroom, rfl, helem⟩ := hknows
  have hlength : (s.pushed ++ [elem]).length = s.pushed.length + 1 := by simp
  refine { h with
    writePosition_eq := ?_
    popped_initial := h.popped_initial.trans (List.prefix_append _ _)
    stored_le := ?_
    stored := ?_
    producer := trivial
    consumer := h.consumer.concat elem
    ready_ok := fun hready => ?_
    held_ok := fun slot hheld => ?_ }
  · rw [hlength, QueueStorage.nextSlot_mod (by omega)]
  · rw [hlength]
    exact hroom
  · intro i hi hle
    rw [hlength] at hi
    rcases Nat.lt_succ_iff_lt_or_eq.mp hi with hold | rfl
    · rw [List.getElem?_append_left hold]
      exact h.stored i hold hle
    · rw [helem, List.getElem?_concat_length]
  · rw [hlength]
    exact (h.ready_ok hready).trans (Nat.lt_succ_self _)
  · rw [hlength]
    obtain ⟨hlt, heq⟩ := h.held_ok slot hheld
    exact ⟨hlt.trans (Nat.lt_succ_self _), heq⟩

/-- Storing the read position removes the oldest element. -/
theorem Inv.advance (h : s.Inv) (hmax : maxSize + 1 < 2 ^ 64) {val : Option T} {slot : ℕ}
    (hc : s.consumer = .advancing val slot) (hslot : slot < maxSize + 1) :
    Inv { s with
      queue := { s.queue with readPosition := s.queue.nextSlot slot }
      consumer := .idle
      ready := false
      held := none
      popped := s.popped ++ [val.getD s.queue.elements[slot]] } := by
  have hknows := h.consumer
  have hcap := h.capacity_le
  rw [hc] at hknows
  obtain ⟨hlt, rfl, hval⟩ := hknows
  have holdest : val.getD s.queue.elements[s.popped.length % (s.queue.entryNum + 1)] =
      s.pushed[s.popped.length] := by
    cases val with
    | some v =>
      have hv := hval v rfl
      rw [List.getElem?_eq_getElem hlt] at hv
      exact (Option.some.inj hv).symm
    | none =>
      have hstored := h.stored _ hlt le_rfl
      rw [Vector.getElem?_eq_getElem hslot, List.getElem?_eq_getElem hlt] at hstored
      exact Option.some.inj hstored
  simp only [holdest]
  have hlength : (s.popped ++ [s.pushed[s.popped.length]]).length = s.popped.length + 1 := by simp
  refine { h with
    readPosition_eq := ?_
    popped_initial := ?_
    stored_le := ?_
    stored := ?_
    producer := h.producer.mono (by simp)
    consumer := trivial
    ready_ok := fun hready => by cases hready
    held_ok := fun slot hheld => by cases hheld }
  · rw [hlength, QueueStorage.nextSlot_mod (by omega)]
  · have htake := List.prefix_iff_eq_take.mp h.popped_initial
    have hnext := List.take_append_getElem hlt
    rw [← htake] at hnext
    rw [hnext]
    exact List.take_prefix _ _
  · have hle := h.stored_le
    simp only [hlength]
    omega
  · intro i hi hle
    rw [hlength] at hle
    exact h.stored i hi (by omega)

/-- The answer of a check decides how the consumer continues. -/
theorem Inv.checkEmpty (h : s.Inv) {check : Check T} {read write : ℕ}
    (hc : s.consumer = .checking check (some read) (some write)) :
    Inv { s with
      consumer := check.outcome (isEmpty read write)
      ready := check.permits (isEmpty read write) s.ready } := by
  obtain ⟨hnonempty, hknown⟩ := h.isEmpty_iff hc
  have hknows := h.consumer
  rw [hc] at hknows
  obtain ⟨-, -, -, hval⟩ := hknows
  refine { h with consumer := ?_, ready_ok := ?_ }
  · generalize isEmpty read write = answer at hnonempty hknown
    cases check with
    | empty => trivial
    | get =>
      cases answer with
      | true => trivial
      | false =>
        exact ⟨fun _ => hnonempty rfl, by simp, by simp, by simp [Check.val]⟩
    | front getting =>
      obtain rfl := hknown trivial
      exact hnonempty rfl
    | pop val =>
      cases val with
      | none =>
        cases answer with
        | true => trivial
        | false => exact ⟨hnonempty rfl, by simp⟩
      | some v =>
        obtain rfl := hknown rfl
        exact ⟨hnonempty rfl, hval⟩
  · intro hready
    cases check with
    | empty => exact hnonempty (by simpa [Check.permits] using hready)
    | _ => exact h.ready_ok hready

/-- Every step keeps the invariant. -/
theorem Inv.step (h : s.Inv) (hmax : maxSize + 1 < 2 ^ 64) {a : QueueAction T}
    (hstep : Step s a t) : t.Inv := by
  have hproducer := h.producer
  have hconsumer := h.consumer
  cases hstep with
  | push hp => exact h.producer_moves ⟨by simp, by simp⟩
  | loadRead hp =>
    rw [hp] at hproducer
    refine h.producer_moves ⟨?_, hproducer.2⟩
    rintro x ⟨⟩
    exact ⟨_, le_rfl, h.readPosition_eq, h.stored_le⟩
  | loadWrite hp =>
    rw [hp] at hproducer
    refine h.producer_moves ⟨hproducer.1, ?_⟩
    rintro y ⟨⟩
    exact h.writePosition_eq
  | @checkFull elem read write hp =>
    refine h.producer_moves ?_
    cases hfull : s.queue.isFull read write with
    | true => trivial
    | false => exact h.room hmax hp hfull
  | reload hp =>
    rw [hp] at hproducer
    exact h.producer_moves ⟨hproducer, h.writePosition_eq⟩
  | fill hp hslot => exact h.fill hp hslot
  | publish hp => exact h.publish hmax hp
  | empty hc => exact h.consumer_moves ⟨False.elim, by simp, by simp, by simp [Check.val]⟩
  | front hc hready =>
    exact h.consumer_moves ⟨fun _ => h.ready_ok hready, by simp, by simp, by simp [Check.val]⟩
  | pop hc => exact h.consumer_moves ⟨by simp [Check.Known], by simp, by simp, by simp [Check.val]⟩
  | getAndPop hc => exact h.consumer_moves ⟨False.elim, by simp, by simp, by simp [Check.val]⟩
  | peekRead hc =>
    rw [hc] at hconsumer
    obtain ⟨hknown, -, hwrite, hval⟩ := hconsumer
    refine h.consumer_moves ⟨hknown, ?_, hwrite, hval⟩
    rintro x ⟨⟩
    exact h.readPosition_eq
  | peekWrite hc =>
    rw [hc] at hconsumer
    obtain ⟨hknown, hread, -, hval⟩ := hconsumer
    refine h.consumer_moves ⟨hknown, hread, ?_, hval⟩
    rintro y ⟨⟩
    exact ⟨_, le_rfl, h.popped_initial.length_le, h.writePosition_eq, hknown⟩
  | checkEmpty hc => exact h.checkEmpty hc
  | @loadFront getting hc =>
    rw [hc] at hconsumer
    refine { h with consumer := ?_, held_ok := ?_ }
    · cases getting with
      | true => exact ⟨hconsumer, h.readPosition_eq⟩
      | false => trivial
    · rintro slot ⟨⟩
      exact ⟨hconsumer, h.readPosition_eq⟩
  | copy hc hslot =>
    rw [hc] at hconsumer
    obtain ⟨hlt, rfl⟩ := hconsumer
    refine h.consumer_moves ⟨fun _ => hlt, by simp, by simp, ?_⟩
    rintro v ⟨⟩
    rw [← h.stored _ hlt le_rfl, Vector.getElem?_eq_getElem hslot]
  | loadPop hc =>
    rw [hc] at hconsumer
    exact h.consumer_moves ⟨hconsumer.1, h.readPosition_eq, hconsumer.2⟩
  | advance hc hslot => exact h.advance hmax hc hslot

/-- The consumer reads the slot of the oldest element only. -/
theorem Inv.reads (h : s.Inv) {slot : ℕ} (hreads : s.Reads slot) :
    s.popped.length < s.pushed.length ∧
      slot = s.popped.length % (s.queue.entryNum + 1) := by
  rcases hreads with hheld | hcopying
  · exact h.held_ok slot hheld
  · have hknows := h.consumer
    rw [hcopying] at hknows
    exact hknows

/-- The producer writes the slot of the next element only, and only if there is room. -/
theorem Inv.writes (h : s.Inv) {slot : ℕ} (hwrites : s.Writes slot) :
    s.pushed.length < s.popped.length + s.queue.entryNum ∧
      slot = s.pushed.length % (s.queue.entryNum + 1) := by
  obtain ⟨elem, hp⟩ := hwrites
  have hknows := h.producer
  rw [hp] at hknows
  exact hknows

/-- The invariant says what holds in every state. -/
theorem Inv.sound (h : s.Inv) : s.Sound := by
  have hcap := h.capacity_le
  have hslot : ∀ k, k % (s.queue.entryNum + 1) ≤ s.queue.entryNum := fun k =>
    Nat.le_of_lt_succ (Nat.mod_lt k (Nat.succ_pos _))
  exact {
    popped_initial := h.popped_initial
    stored_le := h.stored_le
    apart := by
      intro i j hwrites hreads
      obtain ⟨hroom, rfl⟩ := h.writes hwrites
      obtain ⟨hlt, rfl⟩ := h.reads hreads
      exact mod_ne_of_lt hlt (by omega)
    reads_oldest := by
      intro slot hreads
      obtain ⟨hlt, rfl⟩ := h.reads hreads
      have hin := Nat.lt_succ_of_le ((hslot s.popped.length).trans hcap)
      refine ⟨hin, ?_⟩
      rw [← h.stored _ hlt le_rfl, Vector.getElem?_eq_getElem hin]
    readPosition_le := by
      rw [h.readPosition_eq]
      exact hslot _
    writePosition_le := by
      rw [h.writePosition_eq]
      exact hslot _
    writes_le := by
      intro slot hwrites
      rw [(h.writes hwrites).2]
      exact (hslot _).trans hcap
    removes_le := by
      intro val slot hc
      have hknows := h.consumer
      rw [hc] at hknows
      rw [hknows.2.1]
      exact (hslot _).trans hcap
    not_failed := by
      intro hc
      have hknows := h.consumer
      rw [hc] at hknows
      exact hknows }

/-- An initialized queue satisfies the invariant. -/
theorem start_inv (q : QueueStorage T maxSize) (numElems : ℕ) :
    Inv (start (q.initializeQueue numElems)) where
  capacity_le := by
    simp only [start, QueueStorage.initializeQueue]
    split
    · omega
    · exact le_rfl
  readPosition_eq := (Nat.zero_mod _).symm
  writePosition_eq := (Nat.zero_mod _).symm
  popped_initial := List.prefix_rfl
  stored_le := Nat.zero_le _
  stored := by simp [start]
  producer := trivial
  consumer := trivial
  ready_ok := by simp [start]
  held_ok := by simp [start]

/-- No step changes the capacity. -/
theorem entryNum_eq_of_step {a : QueueAction T} (hstep : Step s a t) :
    t.queue.entryNum = s.queue.entryNum := by
  cases hstep with
  | _ => rfl

/-- Whatever the interleaving of the loads and stores, the popped values are the first pushed
ones, the queue holds at most its capacity, no slot is read and written at once, and the
positions stay in range. -/
theorem queue_sound (hmax : maxSize + 1 < 2 ^ 64) (q : QueueStorage T maxSize) {numElems : ℕ}
    (hcap : numElems ≤ maxSize) {as : List (QueueAction T)}
    (hrun : Run Step (start (q.initializeQueue numElems)) as s) :
    s.Sound ∧ s.queue.entryNum = numElems := by
  have hinv : s.Inv :=
    hrun.invariant Inv (start_inv q numElems) fun _ _ _ h hstep => h.step hmax hstep
  refine ⟨hinv.sound, hrun.invariant (fun s => s.queue.entryNum = numElems) ?_ ?_⟩
  · simp only [start, QueueStorage.initializeQueue]
    split
    · rfl
    · omega
  · intro s a t heq hstep
    rw [entryNum_eq_of_step hstep, heq]

/-- A queue of capacity one. -/
def tinyQueue : QueueSystem ℕ 2 := start (QueueStorage.initializeQueue ⟨0, 0, 0, #v[0, 0, 0]⟩ 1)

/-- One value is pushed and popped through the queue of capacity one. -/
theorem queue_sound_tiny :
    ∃ as s, Run Step tinyQueue as s ∧ s.popped = [7] ∧ s.Sound ∧ s.queue.entryNum = 1 := by
  have hpush : Step tinyQueue (.push 7) _ := .push rfl
  have hfilled := ((((Run.nil.snoc hpush).snoc (.loadRead rfl)).snoc (.loadWrite rfl)).snoc
    (.checkFull rfl)).snoc (.reload rfl)
  have hpushed := (hfilled.snoc (.fill rfl (by decide))).snoc (.publish rfl)
  have hchecked := (((hpushed.snoc (.getAndPop rfl)).snoc (.peekRead rfl)).snoc
    (.peekWrite rfl)).snoc (.checkEmpty rfl)
  have hcopied := (((((hchecked.snoc (.peekRead rfl)).snoc (.peekWrite rfl)).snoc
    (.checkEmpty rfl)).snoc (.loadFront rfl)).snoc (.copy rfl (by decide)))
  have hpopped := ((((hcopied.snoc (.peekRead rfl)).snoc (.peekWrite rfl)).snoc
    (.checkEmpty rfl)).snoc (.loadPop rfl)).snoc (.advance rfl (by decide))
  exact ⟨_, _, hpopped, rfl, queue_sound (by decide) _ (by decide) hpopped⟩

end QueueSystem

end Toyos.Util
