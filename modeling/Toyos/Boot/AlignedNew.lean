import Toyos.Memory.SimpleBuddyRuns

/-!
# Aligned allocation

The aligned `operator new` and `operator delete` of the boot code. Requests with
an alignment beyond that of the default heap are served by a simple buddy, which
claims its memory from the default heap through the plain `operator new`. The
default heap itself is a parameter, with the checks it may fail.
-/

namespace Toyos.Boot

open Toyos.Core Toyos.Util Toyos.Memory

/-- `HEAP_ALIGNMENT`. -/
def heapAlignment : ℕ := 0x10

/-- The interface of the default heap; null is zero and `φ` are the checks it may fail. -/
structure DefaultHeap (φ ω : Type) where
  /-- Allocate a number of bytes. -/
  alloc : ω → ℕ → Except φ (ℕ × ω)
  /-- Give back an allocation. -/
  free : ω → ℕ → Except φ ω

/-- The checks of the plain operators. -/
inductive NewFault (φ : Type)
  /-- "heap not initialized". -/
  | heapNotInitialized
  /-- "out of memory". -/
  | outOfMemory
  /-- A failed check inside the default heap. -/
  | heap (fault : φ)
  deriving DecidableEq, Repr

/-- The checks of the aligned operators. -/
inductive AlignedFault (φ : Type)
  /-- "heap not initialized". -/
  | heapNotInitialized
  /-- "aligned heap not initialized". -/
  | alignedHeapNotInitialized
  /-- "Requested alignment bigger than available alignment {} > {}". -/
  | alignmentTooBig
  /-- "Failed to allocate aligned memory.". -/
  | allocationFailed
  /-- A failed check inside the default heap. -/
  | heap (fault : φ)
  /-- A failed check inside the aligned heap. -/
  | alignedHeap (fault : SimpleBuddyFault (NewFault φ))
  deriving DecidableEq, Repr

/-- The two heap pointers and what they point to. -/
structure Allocators (ω : Type) where
  /-- The default heap, once it is initialized. -/
  currentHeap : Option ω
  /-- The aligned heap, once it is initialized. -/
  alignedHeap : Option SimpleBuddy
  deriving DecidableEq

variable {φ ω : Type}

/-- The plain `operator new`, which is also the allocation function of the aligned heap. -/
def operatorNew (heap : DefaultHeap φ ω) (currentHeap : Option ω) (size : ℕ) :
    Except (NewFault φ) (ℕ × Option ω) := do
  match currentHeap with
  | none => .error .heapNotInitialized
  | some w =>
    let (tmp, w) ← (heap.alloc w size).mapError .heap
    ensure (tmp ≠ 0) .outOfMemory
    return (tmp, some w)

/-- `init_heap`, for a default heap in its first state. It does not call the allocation function. -/
def initHeap (w : ω) : Except (SimpleBuddyFault Empty) (Allocators ω) := do
  let alignBuddy ← SimpleBuddy.new (31 + orderMax heapAlignment) true
  return ⟨some w, some alignBuddy⟩

/-- The aligned `operator new`. -/
def alignedNew (heap : DefaultHeap φ ω) (s : Allocators ω) (size alignment : ℕ) :
    Except (AlignedFault φ) (ℕ × Allocators ω) :=
  match s.currentHeap with
  | none => .error .heapNotInitialized
  | some w =>
    if alignment ≤ heapAlignment then do
      let (p, w) ← (heap.alloc w size).mapError .heap
      return (p, { s with currentHeap := some w })
    else
      match s.alignedHeap with
      | none => .error .alignedHeapNotInitialized
      | some b => do
        ensure (orderMax alignment ≤ b.buddy.maxOrder) .alignmentTooBig
        let (tmp, b, currentHeap) ←
          (b.alloc (operatorNew heap) s.currentHeap
            (orderMax (max size alignment))).mapError .alignedHeap
        match tmp with
        | none => .error .allocationFailed
        | some p => return (p, ⟨currentHeap, some b⟩)

/-- The aligned `operator delete`. -/
def alignedDelete (heap : DefaultHeap φ ω) (s : Allocators ω) (p alignment : ℕ) :
    Except (AlignedFault φ) (Allocators ω) :=
  match s.currentHeap with
  | none => .error .heapNotInitialized
  | some w =>
    if alignment ≤ heapAlignment then do
      let w ← (heap.free w p).mapError .heap
      return { s with currentHeap := some w }
    else
      match s.alignedHeap with
      | none => .error .alignedHeapNotInitialized
      | some b => do
        let b ← (b.free p).mapError .alignedHeap
        return { s with alignedHeap := some b }

/-- A default heap whose allocations are fresh. -/
structure FreshHeap (φ ω : Type) extends DefaultHeap φ ω where
  /-- The memory handed out so far. -/
  claimed : ω → Set ℕ
  /-- A returned range lies in the address space and was not handed out before. -/
  fresh : ∀ {w size p w'}, alloc w size = .ok (p, w') → p ≠ 0 →
    p + size ≤ 2 ^ 64 ∧ Disjoint (Set.Ico p (p + size)) (claimed w)
  /-- A returned range counts as handed out. -/
  claimed_range : ∀ {w size p w'}, alloc w size = .ok (p, w') → p ≠ 0 →
    Set.Ico p (p + size) ⊆ claimed w'
  /-- Memory that was handed out stays so. -/
  claimed_mono : ∀ {w size p w'}, alloc w size = .ok (p, w') → claimed w ⊆ claimed w'

/-- The plain `operator new` succeeds only with a non-null answer of the heap. -/
theorem operatorNew_eq_ok {heap : DefaultHeap φ ω} {o o' : Option ω} {size p : ℕ}
    (h : operatorNew heap o size = .ok (p, o')) :
    ∃ w w', o = some w ∧ o' = some w' ∧ heap.alloc w size = .ok (p, w') ∧ p ≠ 0 := by
  cases o with
  | none => simp [operatorNew] at h
  | some w =>
    obtain ⟨⟨tmp, w'⟩, halloc, hrest⟩ := bind_eq_ok.mp h
    obtain ⟨_, hnull, hout⟩ := bind_eq_ok.mp hrest
    obtain ⟨rfl, rfl⟩ := Prod.mk.inj (Except.ok.inj hout)
    exact ⟨w, w', rfl, rfl, mapError_eq_ok.mp halloc, ensure_eq_ok.mp hnull⟩

/-- A fresh heap makes the plain `operator new` a fresh allocation function. -/
def FreshHeap.allocFunc (heap : FreshHeap φ ω) : FreshAlloc (NewFault φ) (Option ω) where
  call := operatorNew heap.toDefaultHeap
  claimed o := o.elim ∅ heap.claimed
  fresh h hp := by
    obtain ⟨w, w', rfl, rfl, halloc, -⟩ := operatorNew_eq_ok h
    exact heap.fresh halloc hp
  claimed_range h hp := by
    obtain ⟨w, w', rfl, rfl, halloc, -⟩ := operatorNew_eq_ok h
    exact heap.claimed_range halloc hp
  claimed_mono h := by
    obtain ⟨w, w', rfl, rfl, halloc, -⟩ := operatorNew_eq_ok h
    exact heap.claimed_mono halloc

end Toyos.Boot
