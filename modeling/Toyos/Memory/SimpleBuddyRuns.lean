import Toyos.Memory.Partition

/-!
# Runs of the simple buddy

A run tracks the live allocations next to the allocator. Every live allocation
is recorded in the map with its order, in every run. The converse fails after a
free through the two-argument proxy, which leaves its entry behind: the entry is
never removed again, and an allocation that returns its address is trapped.
-/

namespace Toyos.Memory

open Toyos.Core Toyos.Util

/-- A simple buddy, the state of its allocation function and the live allocations. -/
structure Tracked (ω : Type) where
  /-- The allocator. -/
  impl : SimpleBuddy
  /-- The state of the allocation function. -/
  world : ω
  /-- The live allocations. -/
  live : List Block

/-- What one call did. -/
inductive SimpleEvent
  /-- A call of `alloc` and its result. -/
  | alloc (order : ℕ) (result : Option ℕ)
  /-- A call of `free` with an address. -/
  | free (addr : ℕ)
  /-- A call of `free` with an address and an order. -/
  | freeOrder (addr order : ℕ)
  /-- Other users of the memory behind the allocation function. -/
  | other
  deriving DecidableEq, Repr

/-- The call frees through the two-argument proxy. -/
def SimpleEvent.isProxy : SimpleEvent → Bool
  | .freeOrder _ _ => true
  | _ => false

variable {ε ω : Type}

/-- One call that returns; every free names a live allocation. -/
inductive Tracked.Step (f : FreshAlloc ε ω) : Tracked ω → SimpleEvent → Tracked ω → Prop
  | alloc {t order r s' w'} : order < 2 ^ 8 →
      t.impl.alloc f.call t.world order = .ok (r, s', w') →
      Step f t (.alloc order r) ⟨s', w', granted order r ++ t.live⟩
  | free {t l s'} : l ∈ t.live →
      t.impl.free l.addr = (.ok s' : Except (SimpleBuddyFault ε) SimpleBuddy) →
      Step f t (.free l.addr) ⟨s', t.world, t.live.erase l⟩
  | freeOrder {t l s'} : l ∈ t.live →
      t.impl.freeOrder l.addr l.ord = (.ok s' : Except (SimpleBuddyFault ε) SimpleBuddy) →
      Step f t (.freeOrder l.addr l.ord) ⟨s', t.world, t.live.erase l⟩
  | other {t w'} : f.claimed t.world ⊆ f.claimed w' → Step f t .other { t with world := w' }

/-- The constructor does not depend on the failures of the allocation function. -/
theorem SimpleBuddy.new_eq_ok {ε' : Type} {maxOrd : ℕ} {hasAllocFunc : Bool} {s : SimpleBuddy}
    (h : new maxOrd hasAllocFunc = (.ok s : Except (SimpleBuddyFault ε) SimpleBuddy)) :
    new maxOrd hasAllocFunc = (.ok s : Except (SimpleBuddyFault ε') SimpleBuddy) := by
  obtain ⟨buddy, hbuddy, hrest⟩ := bind_eq_ok.mp h
  obtain ⟨_, hgiven, hout⟩ := bind_eq_ok.mp hrest
  rw [new, mapError_eq_ok.mp hbuddy, mapError_ok, ok_bind, ensure_of _ (ensure_eq_ok.mp hgiven),
    ok_bind]
  exact congrArg Except.ok (Except.ok.inj hout)

/-- A successful allocation is one of the buddy, recorded under an address without entry. -/
theorem SimpleBuddy.alloc_eq_ok {allocFunc : ω → ℕ → Except ε (ℕ × ω)} {s s' : SimpleBuddy}
    {w w' : ω} {order : ℕ} {r : Option ℕ} (h : s.alloc allocFunc w order = .ok (r, s', w')) :
    allocBuddy allocFunc s.buddy w order = .ok (r, s'.buddy, w') ∧
      ((r = none ∧ s'.allocMap = s.allocMap) ∨
        ∃ a, r = some a ∧ a ∉ s.allocMap ∧ s'.allocMap = s.allocMap.insert a order) := by
  obtain ⟨⟨r₁, b₁, w₁⟩, hcall, hrest⟩ := bind_eq_ok.mp h
  cases r₁ with
  | none =>
    simp only [pure_eq_ok, Except.ok.injEq, Prod.mk.injEq] at hrest
    obtain ⟨rfl, rfl, rfl⟩ := hrest
    exact ⟨hcall, Or.inl ⟨rfl, rfl⟩⟩
  | some a =>
    by_cases ha : a ∈ s.allocMap
    · simp [ha] at hrest
    · simp only [ensure_of _ ha, ok_bind, pure_eq_ok, Except.ok.injEq, Prod.mk.injEq] at hrest
      obtain ⟨rfl, rfl, rfl⟩ := hrest
      exact ⟨hcall, Or.inr ⟨a, rfl, ha, rfl⟩⟩

namespace Tracked

/-- The map contains exactly the live allocations with their orders. -/
def MapExact (t : Tracked ω) : Prop :=
  ∀ addr order, t.impl.allocMap.lookup addr = some order ↔ ⟨order, addr⟩ ∈ t.live

/-- Some entry of the map belongs to no live allocation. -/
def Stale (t : Tracked ω) : Prop :=
  ∃ addr ∈ t.impl.allocMap, ∀ l ∈ t.live, l.addr ≠ addr

/-- What holds in every run: memory is divided and every live allocation is recorded. -/
structure Inv (top : ℕ) (f : FreshAlloc ε ω) (t : Tracked ω) : Prop where
  /-- Free memory and live ranges are disjoint parts of claimed memory. -/
  memory : Partitioned top t.impl.buddy (f.claimed t.world) t.live
  /-- Every live allocation is recorded with its order. -/
  recorded : ∀ l ∈ t.live, t.impl.allocMap.lookup l.addr = some l.ord

variable {top : ℕ} {f : FreshAlloc ε ω} {t t' : Tracked ω} {e : SimpleEvent} {l : Block}

/-- Under the invariant the map is exact unless an entry is stale. -/
theorem Inv.mapExact_iff (h : t.Inv top f) : t.MapExact ↔ ¬t.Stale := by
  constructor
  · rintro hexact ⟨addr, hmem, hnone⟩
    obtain ⟨order, ho⟩ := Finmap.mem_iff.mp hmem
    exact hnone _ ((hexact addr order).mp ho) rfl
  · intro hstale addr order
    constructor
    · intro hlook
      by_contra hnot
      apply hstale
      refine ⟨addr, Finmap.mem_of_lookup_eq_some hlook, fun l hl he => hnot ?_⟩
      have hrec := h.recorded l hl
      rw [he, hlook, Option.some.injEq] at hrec
      cases l
      simp_all
    · exact fun hl => h.recorded _ hl

/-- The order in which the live allocations are listed does not matter. -/
theorem Inv.perm {s : SimpleBuddy} {w : ω} {live live' : List Block}
    (h : Inv top f ⟨s, w, live⟩) (hp : live.Perm live') : Inv top f ⟨s, w, live'⟩ :=
  ⟨h.memory.perm hp, fun l hl => h.recorded l (hp.mem_iff.mpr hl)⟩

/-- Removing a live allocation leaves the others, which start elsewhere. -/
theorem Inv.perm_erase (h : t.Inv top f) (hl : l ∈ t.live) :
    Partitioned top t.impl.buddy (f.claimed t.world) (l :: t.live.erase l) ∧
      ∀ m ∈ t.live.erase l, m.addr ≠ l.addr := by
  have hpart := h.memory.perm (List.perm_cons_erase hl)
  have hpair := List.pairwise_cons.mp hpart.live_disjoint
  exact ⟨hpart, fun m hm => (Block.addr_ne_of_disjoint (hpair.1 m hm)).symm⟩

/-- An allocation keeps the invariant and neither adds nor removes stale entries. -/
theorem Inv.alloc_step (h : t.Inv top f) {order : ℕ} {r : Option ℕ} {s' : SimpleBuddy} {w' : ω}
    (hcall : t.impl.alloc f.call t.world order = .ok (r, s', w')) :
    Inv top f ⟨s', w', granted order r ++ t.live⟩ ∧
      (Stale ⟨s', w', granted order r ++ t.live⟩ ↔ t.Stale) := by
  obtain ⟨hbuddy, hmap⟩ := SimpleBuddy.alloc_eq_ok hcall
  have hmemory : Partitioned top s'.buddy (f.claimed w') (granted order r ++ t.live) := by
    rcases h.memory.allocBuddy_ok order with herror | hok
    · obtain ⟨e, herror⟩ := herror
      simp [hbuddy] at herror
    · obtain ⟨r₁, b₁, w₁, hok, hpart⟩ := hok
      obtain ⟨rfl, htail⟩ := Prod.mk.inj (ok_unique hbuddy hok)
      obtain ⟨rfl, rfl⟩ := Prod.mk.inj htail
      exact hpart
  rcases hmap with ⟨rfl, hsame⟩ | ⟨a, rfl, hnew, hinsert⟩
  · refine ⟨⟨hmemory, fun l hl => ?_⟩, ?_⟩
    · rw [hsame]
      exact h.recorded l hl
    · simp [Stale, granted, hsame]
  · have hother : ∀ addr ∈ t.impl.allocMap, addr ≠ a := fun addr hmem he => hnew (he ▸ hmem)
    refine ⟨⟨hmemory, fun l hl => ?_⟩, ?_⟩
    · rw [hinsert]
      cases hl with
      | head => exact Finmap.lookup_insert _
      | tail _ hl =>
        have hrec := h.recorded l hl
        rw [Finmap.lookup_insert_of_ne _ (hother _ (Finmap.mem_of_lookup_eq_some hrec)), hrec]
    · simp only [Stale, granted, hinsert, Finmap.mem_insert, List.cons_append, List.nil_append,
        List.forall_mem_cons]
      constructor
      · rintro ⟨addr, hmem, hne, hnone⟩
        exact ⟨addr, hmem.resolve_left (Ne.symm hne), hnone⟩
      · rintro ⟨addr, hmem, hnone⟩
        exact ⟨addr, Or.inr hmem, (hother addr hmem).symm, hnone⟩

/-- A free by address succeeds, keeps the invariant and removes just its own entry. -/
theorem Inv.free_step (h : t.Inv top f) (hl : l ∈ t.live) :
    ∃ s', t.impl.free l.addr = (.ok s' : Except (SimpleBuddyFault ε) SimpleBuddy) ∧
      Inv top f ⟨s', t.world, t.live.erase l⟩ ∧
      (Stale ⟨s', t.world, t.live.erase l⟩ ↔ t.Stale) := by
  obtain ⟨hpart, hne⟩ := h.perm_erase hl
  obtain ⟨b', hfree, hpart'⟩ := hpart.free_ok
  refine ⟨⟨b', t.impl.allocMap.erase l.addr⟩, ?_, ⟨hpart', fun m hm => ?_⟩, ?_⟩
  · simp [SimpleBuddy.free, h.recorded l hl, hfree]
  · rw [Finmap.lookup_erase_ne (hne m hm)]
    exact h.recorded m (List.mem_of_mem_erase hm)
  · simp only [Stale, Finmap.mem_erase]
    constructor
    · rintro ⟨addr, ⟨haddr, hmem⟩, hnone⟩
      refine ⟨addr, hmem, fun m hm => ?_⟩
      by_cases hml : m = l
      · rw [hml]
        exact Ne.symm haddr
      · exact hnone m ((List.mem_erase_of_ne hml).mpr hm)
    · rintro ⟨addr, hmem, hnone⟩
      exact ⟨addr, ⟨(hnone l hl).symm, hmem⟩, fun m hm => hnone m (List.mem_of_mem_erase hm)⟩

/-- A free through the proxy succeeds, keeps the invariant and leaves a stale entry. -/
theorem Inv.freeOrder_step (h : t.Inv top f) (hl : l ∈ t.live) :
    ∃ s', t.impl.freeOrder l.addr l.ord = (.ok s' : Except (SimpleBuddyFault ε) SimpleBuddy) ∧
      Inv top f ⟨s', t.world, t.live.erase l⟩ ∧ Stale ⟨s', t.world, t.live.erase l⟩ := by
  obtain ⟨hpart, hne⟩ := h.perm_erase hl
  obtain ⟨b', hfree, hpart'⟩ := hpart.free_ok
  refine ⟨{ t.impl with buddy := b' }, ?_, ⟨hpart', fun m hm => ?_⟩, ?_⟩
  · simp [SimpleBuddy.freeOrder, hfree]
  · exact h.recorded m (List.mem_of_mem_erase hm)
  · exact ⟨l.addr, Finmap.mem_of_lookup_eq_some (h.recorded l hl), hne⟩

/-- Every step keeps the invariant; exactly the proxy makes an entry stale. -/
theorem Inv.step (h : t.Inv top f) (hs : Step f t e t') :
    t'.Inv top f ∧ (t'.Stale ↔ t.Stale ∨ e.isProxy = true) := by
  cases hs with
  | alloc _ hcall =>
    obtain ⟨hinv, hstale⟩ := h.alloc_step hcall
    exact ⟨hinv, by simp [hstale, SimpleEvent.isProxy]⟩
  | free hl hcall =>
    obtain ⟨s', hok, hinv, hstale⟩ := h.free_step hl
    obtain rfl := ok_unique hcall hok
    exact ⟨hinv, by simp [hstale, SimpleEvent.isProxy]⟩
  | freeOrder hl hcall =>
    obtain ⟨s', hok, hinv, hstale⟩ := h.freeOrder_step hl
    obtain rfl := ok_unique hcall hok
    exact ⟨hinv, by simp [hstale, SimpleEvent.isProxy]⟩
  | other hmono => exact ⟨⟨h.memory.mono hmono, h.recorded⟩, by simp [Stale, SimpleEvent.isProxy]⟩

/-- A new simple buddy is consistent. -/
theorem new_inv {maxOrd : ℕ} (hbyte : maxOrd < 2 ^ 8) {s : SimpleBuddy}
    (hnew : SimpleBuddy.new maxOrd true = (.ok s : Except (SimpleBuddyFault ε) SimpleBuddy))
    (w : ω) : Inv maxOrd f ⟨s, w, []⟩ ∧ ¬Stale ⟨s, w, []⟩ := by
  cases hb : BuddyImpl.new maxOrd with
  | error e => simp [SimpleBuddy.new, hb] at hnew
  | ok b =>
    obtain ⟨b', hb', hinv, hempty⟩ := BuddyImpl.new_ok (BuddyImpl.le_of_new_eq_ok hbyte hb)
    obtain rfl := ok_unique hb hb'
    simp only [SimpleBuddy.new, hb, mapError_ok, ok_bind, ensure_of, pure_eq_ok,
      Except.ok.injEq] at hnew
    subst hnew
    refine ⟨⟨⟨hinv, by simp [hempty], by simp, by simp, by simp, List.Pairwise.nil⟩, by simp⟩, ?_⟩
    rintro ⟨addr, hmem, -⟩
    exact Finmap.notMem_empty hmem

/-- In every run the invariant holds, and an entry is stale exactly after a use of the proxy. -/
theorem Inv.run {init : Tracked ω} {es : List SimpleEvent} (h : init.Inv top f)
    (hstart : ¬init.Stale) (hrun : Run (Step f) init es t) :
    t.Inv top f ∧ (t.Stale ↔ ∃ e ∈ es, e.isProxy = true) := by
  apply hrun.history_invariant (fun es t => t.Inv top f ∧ (t.Stale ↔ ∃ e ∈ es, e.isProxy = true))
  · exact ⟨h, by simp [hstart]⟩
  · intro es s e s' _ ih hstep
    obtain ⟨hinv, hstale⟩ := ih.1.step hstep
    refine ⟨hinv, ?_⟩
    rw [hstale, ih.2]
    simp [or_and_right, exists_or]

/-- Without stale entries no allocation is trapped. -/
theorem Inv.alloc_not_trapped (h : t.Inv top f) (hexact : t.MapExact) (order : ℕ) :
    t.impl.alloc f.call t.world order ≠ .error .addressInMap := by
  intro htrap
  rcases h.memory.allocBuddy_ok order with herror | hok
  · obtain ⟨e, herror⟩ := herror
    simp [SimpleBuddy.alloc, herror] at htrap
  · obtain ⟨r, b', w', hok, hpart⟩ := hok
    cases r with
    | none => simp [SimpleBuddy.alloc, hok] at htrap
    | some a =>
      have hpair := List.pairwise_cons.mp hpart.live_disjoint
      have hnew : a ∉ t.impl.allocMap := by
        intro hmem
        obtain ⟨o, ho⟩ := Finmap.mem_iff.mp hmem
        exact Block.addr_ne_of_disjoint (hpair.1 _ ((hexact a o).mp ho)) rfl
      simp [SimpleBuddy.alloc, hok, hnew] at htrap

/-- The bookkeeping is exact and no allocation is trapped in a reached state exactly when no
earlier call freed through the two-argument proxy. -/
theorem bookkeeping_exact_iff {maxOrd : ℕ} (hbyte : maxOrd < 2 ^ 8) {s : SimpleBuddy} {w : ω}
    {es : List SimpleEvent}
    (hnew : SimpleBuddy.new maxOrd true = (.ok s : Except (SimpleBuddyFault ε) SimpleBuddy))
    (hrun : Run (Step f) ⟨s, w, []⟩ es t) :
    (t.MapExact ∧
      ∀ order < 2 ^ 8, t.impl.alloc f.call t.world order ≠ .error .addressInMap) ↔
      ∀ e ∈ es, e.isProxy = false := by
  obtain ⟨hinit, hstart⟩ := new_inv hbyte hnew w
  obtain ⟨hinv, hstale⟩ := hinit.run hstart hrun
  have hexact : t.MapExact ↔ ∀ e ∈ es, e.isProxy = false := by
    rw [hinv.mapExact_iff, hstale]
    simp
  rw [← hexact]
  exact ⟨fun h => h.1, fun h => ⟨h, fun order _ => hinv.alloc_not_trapped h order⟩⟩

end Tracked

/-- Hand out consecutive ranges, as long as the address space lasts. -/
def bumpAlloc (w size : ℕ) : ℕ × ℕ := if w + size ≤ 2 ^ 64 then (w, w + size) else (0, w)

theorem bumpAlloc_spec {w size p w' : ℕ} (h : bumpAlloc w size = (p, w')) :
    w ≤ w' ∧ (p ≠ 0 → p = w ∧ w' = w + size ∧ w + size ≤ 2 ^ 64) := by
  unfold bumpAlloc at h
  split at h
  · simp only [Prod.mk.injEq] at h
    omega
  · simp only [Prod.mk.injEq] at h
    omega

/-- Consecutive ranges are fresh. -/
theorem bumpAlloc_fresh {w size p w' : ℕ} (h : bumpAlloc w size = (p, w')) (hp : p ≠ 0) :
    p + size ≤ 2 ^ 64 ∧ Disjoint (Set.Ico p (p + size)) (Set.Iio w) := by
  obtain ⟨rfl, -, hend⟩ := (bumpAlloc_spec h).2 hp
  exact ⟨hend, Set.disjoint_left.mpr fun x hx hlt => absurd hx.1 (not_le.mpr hlt)⟩

theorem bumpAlloc_range {w size p w' : ℕ} (h : bumpAlloc w size = (p, w')) (hp : p ≠ 0) :
    Set.Ico p (p + size) ⊆ Set.Iio w' := by
  obtain ⟨rfl, rfl, -⟩ := (bumpAlloc_spec h).2 hp
  exact fun x hx => hx.2

/-- An allocation function that hands out consecutive ranges. -/
def bump : FreshAlloc Empty ℕ where
  call w size := .ok (bumpAlloc w size)
  claimed w := Set.Iio w
  fresh h hp := bumpAlloc_fresh (Except.ok.inj h) hp
  claimed_range h hp := bumpAlloc_range (Except.ok.inj h) hp
  claimed_mono h := Set.Iio_subset_Iio (bumpAlloc_spec (Except.ok.inj h)).1

namespace Tracked

/-- A simple buddy of maximal order thirteen without memory. -/
def emptyThirteen : SimpleBuddy := ⟨⟨13, ⟨List.replicate 14 ∅, 13⟩⟩, ∅⟩

/-- The same simple buddy with one free block of maximal order. -/
def fullThirteen : SimpleBuddy := ⟨⟨13, ⟨List.replicate 13 ∅ ++ [{65536}], 13⟩⟩, ∅⟩

/-- The lower half of the block is allocated and recorded. -/
def halfThirteen : SimpleBuddy :=
  ⟨⟨13, ⟨List.replicate 12 ∅ ++ [{69632}, ∅], 13⟩⟩, Finmap.insert 65536 12 ∅⟩

theorem new_thirteen : SimpleBuddy.new 13 true =
    (.ok emptyThirteen : Except (SimpleBuddyFault Empty) SimpleBuddy) := by decide +kernel

theorem halfThirteen_run :
    Run (Step bump) ⟨emptyThirteen, 65536, []⟩ [.alloc 12 (some 65536)]
      ⟨halfThirteen, 73728, [⟨12, 65536⟩]⟩ := by
  have halloc : emptyThirteen.alloc bump.call 65536 12 =
      .ok (some 65536, halfThirteen, 73728) := by decide +kernel
  exact Run.nil.snoc (.alloc (by decide) halloc)

/-- The bookkeeping after an allocation and a free by address. -/
theorem bookkeeping_exact_iff_freed :
    Run (Step bump) ⟨emptyThirteen, 65536, []⟩ [.alloc 12 (some 65536), .free 65536]
      ⟨fullThirteen, 73728, []⟩ ∧
    fullThirteen.alloc bump.call 73728 12 ≠ .error .addressInMap := by
  have hfree : halfThirteen.free 65536 =
      (.ok fullThirteen : Except (SimpleBuddyFault Empty) SimpleBuddy) := by decide +kernel
  have hrun := halfThirteen_run.snoc (.free (l := ⟨12, 65536⟩) (by simp) hfree)
  simp only [List.cons_append, List.nil_append, List.erase_cons_head] at hrun
  obtain ⟨-, htrap⟩ := (bookkeeping_exact_iff (by decide) new_thirteen hrun).mpr
    (by simp [SimpleEvent.isProxy])
  exact ⟨hrun, htrap 12 (by decide)⟩

/-- A free through the proxy leaves an entry behind; the next allocation of the same range is
trapped. -/
theorem proxy_breaks_bookkeeping :
    ¬∀ s es t, SimpleBuddy.new 13 true =
        (.ok s : Except (SimpleBuddyFault Empty) SimpleBuddy) →
      Run (Step bump) ⟨s, 65536, []⟩ es t →
      t.MapExact ∧
        ∀ order < 2 ^ 8, t.impl.alloc bump.call t.world order ≠ .error .addressInMap := by
  intro h
  have hfree : halfThirteen.freeOrder 65536 12 =
      (.ok ⟨fullThirteen.buddy, halfThirteen.allocMap⟩ :
        Except (SimpleBuddyFault Empty) SimpleBuddy) := by decide +kernel
  have htrap : SimpleBuddy.alloc bump.call ⟨fullThirteen.buddy, halfThirteen.allocMap⟩ 73728 12 =
      .error .addressInMap := by decide +kernel
  have hrun := halfThirteen_run.snoc (.freeOrder (l := ⟨12, 65536⟩) (by simp) hfree)
  exact (h _ _ _ new_thirteen hrun).2 12 (by decide) htrap

end Tracked

end Toyos.Memory
