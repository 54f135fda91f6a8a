import Toyos.Util.Math
import Toyos.Util.Interval
import Toyos.Core.Tiling

/-!
# Decomposition of a range into naturally aligned blocks

`order_range_` iterates over one range, or over several ranges of one size in
lockstep. Each step is the largest power of two that respects the alignment of
all bases, the remaining size and the maximal order. The iteration ends by
equality with the end iterator.
-/

namespace Toyos.Util

open Toyos.Core

/-- The iterator state. -/
structure OrderIterator where
  /-- Current position in every range. -/
  base : List ℕ
  /-- Points that are still to be covered. -/
  restSize : ℕ
  /-- Largest order that may be chosen. -/
  maxOrderChoice : ℕ
  /-- Size of the current block. -/
  currentStep : ℕ
  deriving DecidableEq, Repr

namespace OrderIterator

/-- The largest step for the given position and rest. -/
def orderStep (base rest maxOrderUser : ℕ) : ℕ :=
  let maxBit := wrap (1 <<< 63)
  let minOrder := orderMin (base ||| maxBit)
  let maxOrder := min (orderMax rest) maxOrderUser
  wrap (1 <<< min minOrder maxOrder)

/-- Bits in which some base is set. -/
def mixBase (base : List ℕ) : ℕ := base.foldl (· ||| ·) 0

/-- Recompute the step, unless nothing is left. -/
def updateStep (it : OrderIterator) : OrderIterator :=
  if it.restSize = 0 then it
  else { it with currentStep := orderStep (mixBase it.base) it.restSize it.maxOrderChoice }

/-- The constructor; the step of an exhausted iterator is zero. -/
def new (base : List ℕ) (size maxOrder : ℕ) : OrderIterator :=
  updateStep ⟨base, size, maxOrder, 0⟩

/-- `operator++`. -/
def next (it : OrderIterator) : OrderIterator :=
  updateStep { it with
    base := it.base.map fun b => wrap (b + it.currentStep)
    restSize := wsub it.restSize it.currentStep }

/-- `operator==` compares positions and rests. -/
def same (it other : OrderIterator) : Bool :=
  it.base == other.base && it.restSize == other.restSize

/-- `operator*` of an iterator over one range. -/
def getIval (it : OrderIterator) : Interval :=
  ⟨it.base.getD 0 0, wrap (it.base.getD 0 0 + it.currentStep)⟩

/-- The current block of one of the ranges. -/
def ival (it : OrderIterator) (n : ℕ) : Interval :=
  ⟨it.base.getD n 0, wrap (it.base.getD n 0 + it.currentStep)⟩

/-- `operator*` of an iterator over two ranges. -/
def getIvals (it : OrderIterator) : Interval × Interval := (it.ival 0, it.ival 1)

/-- The iterators that a range-based loop visits, if it ends within the given rounds. -/
def visit (stop : OrderIterator) : ℕ → OrderIterator → Option (List OrderIterator)
  | 0, it => if it.same stop then some [] else none
  | rounds + 1, it =>
    if it.same stop then some [] else (visit stop rounds it.next).map (it :: ·)

end OrderIterator

/-- A range over several bases. -/
structure OrderRange where
  /-- First position in every range. -/
  base : List ℕ
  /-- The common size. -/
  size : ℕ
  /-- Largest order of a block. -/
  maxOrder : ℕ

namespace OrderRange

/-- `begin()`. -/
def first (r : OrderRange) : OrderIterator := .new r.base r.size r.maxOrder

/-- `end()`. -/
def last (r : OrderRange) : OrderIterator :=
  .new (r.base.map fun b => wrap (b + r.size)) 0 r.maxOrder

/-- The iterators from `begin()` to `end()`; every round consumes at least one point. -/
def iterators (r : OrderRange) : Option (List OrderIterator) :=
  OrderIterator.visit r.last r.size r.first

/-- The blocks of a single range, in order. -/
def intervals (base size maxOrder : ℕ) : Option (List Interval) :=
  (iterators ⟨[base], size, maxOrder⟩).map (List.map OrderIterator.getIval)

end OrderRange

/-- Orders chosen greedily: every one is the largest that respects the alignment of all
bases, the rest and the maximal order, and together they exhaust the rest. -/
def Greedy (maxOrder : ℕ) : List ℕ → ℕ → List ℕ → Prop
  | _, rest, [] => rest = 0
  | bases, rest, k :: ks =>
    (∀ j, ((∀ b ∈ bases, 2 ^ j ∣ b) ∧ 2 ^ j ≤ rest ∧ j ≤ maxOrder) ↔ j ≤ k) ∧
      Greedy maxOrder (bases.map (· + 2 ^ k)) (rest - 2 ^ k) ks

/-- The iterator states along a list of chosen orders. -/
def stops (maxOrder : ℕ) : List ℕ → ℕ → List ℕ → List OrderIterator
  | _, _, [] => []
  | bases, rest, k :: ks =>
    ⟨bases, rest, maxOrder, 2 ^ k⟩ :: stops maxOrder (bases.map (· + 2 ^ k)) (rest - 2 ^ k) ks

/-- A power of two divides a disjunction exactly when it divides both sides. -/
theorem two_pow_dvd_or {a b k : ℕ} : 2 ^ k ∣ a ||| b ↔ 2 ^ k ∣ a ∧ 2 ^ k ∣ b := by
  simp only [two_pow_dvd_iff_testBit, Nat.testBit_or, Bool.or_eq_false_iff]
  exact ⟨fun h => ⟨fun j hj => (h j hj).1, fun j hj => (h j hj).2⟩,
    fun h j hj => ⟨h.1 j hj, h.2 j hj⟩⟩

namespace OrderIterator

theorem two_pow_dvd_mixBase {bases : List ℕ} {k : ℕ} :
    2 ^ k ∣ mixBase bases ↔ ∀ b ∈ bases, 2 ^ k ∣ b := by
  have hfold (acc : ℕ) : 2 ^ k ∣ bases.foldl (· ||| ·) acc ↔
      2 ^ k ∣ acc ∧ ∀ b ∈ bases, 2 ^ k ∣ b := by
    induction bases generalizing acc with
    | nil => simp
    | cons b bs ih => simp [ih, two_pow_dvd_or, and_assoc]
  simpa [mixBase] using hfold 0

theorem mixBase_lt {bases : List ℕ} (h : ∀ b ∈ bases, b < 2 ^ 64) : mixBase bases < 2 ^ 64 := by
  have hfold (acc : ℕ) (hacc : acc < 2 ^ 64) : bases.foldl (· ||| ·) acc < 2 ^ 64 := by
    induction bases generalizing acc with
    | nil => exact hacc
    | cons b bs ih =>
      exact ih (fun c hc => h c (by simp [hc])) _ (Nat.or_lt_two_pow hacc (h b (by simp)))
  exact hfold 0 (by decide)

/-- The step is the largest power of two that respects all three limits. -/
theorem orderStep_spec {base rest : ℕ} (maxOrder : ℕ) (hbase : base < 2 ^ 64) (hpos : rest ≠ 0)
    (hrest : rest < 2 ^ 64) :
    ∃ k, orderStep base rest maxOrder = 2 ^ k ∧
      ∀ j, (2 ^ j ∣ base ∧ 2 ^ j ≤ rest ∧ j ≤ maxOrder) ↔ j ≤ k := by
  have hbit : wrap (1 <<< 63) = 2 ^ 63 := wrap_one_shiftLeft (by decide)
  have hlog : Nat.log 2 rest < 64 := Nat.log_lt_of_lt_pow hpos hrest
  refine ⟨min (orderMin (base ||| 2 ^ 63)) (min (orderMax rest) maxOrder), ?_, fun j => ?_⟩
  · simp only [orderStep, hbit]
    rw [wrap_one_shiftLeft]
    rw [orderMax_eq_log hrest]
    omega
  · have hne : base ||| 2 ^ 63 ≠ 0 := by
      intro h
      simp [Nat.or_eq_zero_iff] at h
    have hlt : base ||| 2 ^ 63 < 2 ^ 64 := Nat.or_lt_two_pow hbase (by decide)
    rw [le_min_iff, le_min_iff, ← two_pow_dvd_iff_le_orderMin hne hlt, two_pow_dvd_or,
      orderMax_eq_log hrest, Nat.le_log_iff_pow_le (by decide) hpos,
      Nat.pow_dvd_pow_iff_le_right (by decide)]
    constructor
    · rintro ⟨hd, hle, hm⟩
      have := (Nat.le_log_iff_pow_le (by decide) hpos).mpr hle
      exact ⟨⟨hd, by omega⟩, hle, hm⟩
    · rintro ⟨⟨hd, -⟩, hle, hm⟩
      exact ⟨hd, hle, hm⟩

/-- A constructed iterator with something left has a greedy step. -/
theorem updateStep_spec {bases : List ℕ} {rest : ℕ} (maxOrder step : ℕ)
    (hbases : ∀ b ∈ bases, b < 2 ^ 64) (hpos : rest ≠ 0) (hrest : rest < 2 ^ 64) :
    ∃ k, updateStep ⟨bases, rest, maxOrder, step⟩ = ⟨bases, rest, maxOrder, 2 ^ k⟩ ∧
      ∀ j, ((∀ b ∈ bases, 2 ^ j ∣ b) ∧ 2 ^ j ≤ rest ∧ j ≤ maxOrder) ↔ j ≤ k := by
  obtain ⟨k, hstep, hk⟩ := orderStep_spec maxOrder (mixBase_lt hbases) hpos hrest
  refine ⟨k, by simp [updateStep, hpos, hstep], fun j => ?_⟩
  rw [← hk j, two_pow_dvd_mixBase]

/-- The loop from any position visits a greedy decomposition of the rest. -/
theorem visit_greedy {maxOrder rounds : ℕ} {bases : List ℕ} {rest step : ℕ}
    (hbases : ∀ b ∈ bases, b + rest < 2 ^ 64) (hrest : rest < 2 ^ 64) (hrounds : rest ≤ rounds)
    (stop : OrderIterator) (hstop : stop.base = bases.map (· + rest)) (hzero : stop.restSize = 0) :
    ∃ ks, visit stop rounds (updateStep ⟨bases, rest, maxOrder, step⟩) =
      some (stops maxOrder bases rest ks) ∧ Greedy maxOrder bases rest ks := by
  induction rounds generalizing bases rest step with
  | zero =>
    have h0 : rest = 0 := by omega
    subst h0
    refine ⟨[], ?_, rfl⟩
    simp [visit, updateStep, same, hstop, hzero, stops]
  | succ rounds ih =>
    by_cases h0 : rest = 0
    · subst h0
      refine ⟨[], ?_, rfl⟩
      simp [visit, updateStep, same, hstop, hzero, stops]
    · obtain ⟨k, hupdate, hk⟩ := updateStep_spec maxOrder step
        (fun b hb => lt_of_le_of_lt (Nat.le_add_right b rest) (hbases b hb)) h0 hrest
      have hle : 2 ^ k ≤ rest := ((hk k).mpr le_rfl).2.1
      have hpos := Nat.two_pow_pos k
      have hnext : next ⟨bases, rest, maxOrder, 2 ^ k⟩ =
          updateStep ⟨bases.map (· + 2 ^ k), rest - 2 ^ k, maxOrder, 2 ^ k⟩ := by
        have hmap : bases.map (fun b => wrap (b + 2 ^ k)) = bases.map (· + 2 ^ k) := by
          apply List.map_congr_left
          intro b hb
          exact wrap_of_lt (by have := hbases b hb; omega)
        simp only [next, hmap, wsub_of_le hrest hle]
      have hbases' : ∀ b ∈ bases.map (· + 2 ^ k), b + (rest - 2 ^ k) < 2 ^ 64 := by
        intro b hb
        obtain ⟨c, hc, rfl⟩ := List.mem_map.mp hb
        have := hbases c hc
        omega
      have hstop' : stop.base = (bases.map (· + 2 ^ k)).map (· + (rest - 2 ^ k)) := by
        rw [hstop, List.map_map]
        apply List.map_congr_left
        intro b _
        simp only [Function.comp_apply]
        omega
      obtain ⟨ks, hvisit, hgreedy⟩ :=
        @ih _ (rest - 2 ^ k) (2 ^ k) hbases' (by omega) (by omega) hstop'
      refine ⟨k :: ks, ?_, hk, hgreedy⟩
      rw [hupdate, visit, if_neg (by simp [same, hzero, h0]), hnext, hvisit]
      rfl

end OrderIterator

namespace OrderRange

/-- Iteration from begin to end terminates and visits a greedy decomposition. -/
theorem iterators_greedy {r : OrderRange} (hsize : r.size < 2 ^ 64)
    (hbases : ∀ b ∈ r.base, b + r.size < 2 ^ 64) :
    ∃ ks, r.iterators = some (stops r.maxOrder r.base r.size ks) ∧
      Greedy r.maxOrder r.base r.size ks := by
  have hmap : r.base.map (fun b => wrap (b + r.size)) = r.base.map (· + r.size) :=
    List.map_congr_left fun b hb => wrap_of_lt (hbases b hb)
  apply OrderIterator.visit_greedy hbases hsize le_rfl
  · simp [last, OrderIterator.new, OrderIterator.updateStep, hmap]
  · simp [last, OrderIterator.new, OrderIterator.updateStep]

end OrderRange

/-- The consecutive blocks of the given orders. -/
def consecutive : ℕ → List ℕ → List Block
  | _, [] => []
  | a, k :: ks => ⟨k, a⟩ :: consecutive (a + 2 ^ k) ks

/-- The interval of a block that does not end the address space. -/
def blockInterval (b : Block) : Interval := ⟨b.addr, b.addr + 2 ^ b.ord⟩

/-- Greedy blocks of a single range are aligned, bounded, disjoint and fill the range. -/
theorem Greedy.consecutive_spec {maxOrder a rest : ℕ} {ks : List ℕ}
    (h : Greedy maxOrder [a] rest ks) :
    (∀ b ∈ consecutive a ks, b.Aligned ∧ b.ord ≤ maxOrder ∧ a ≤ b.addr) ∧
      (consecutive a ks).Pairwise (fun b c => Disjoint b.range c.range) ∧
      cover {b | b ∈ consecutive a ks} = Set.Ico a (a + rest) := by
  induction ks generalizing a rest with
  | nil =>
    have h0 : rest = 0 := h
    simp [consecutive, h0, cover]
  | cons k ks ih =>
    obtain ⟨hk, hrest⟩ := h
    obtain ⟨hdvd, hle, hmax⟩ := (hk k).mpr le_rfl
    have hpos := Nat.two_pow_pos k
    simp only [List.map_cons, List.map_nil] at hrest
    obtain ⟨hall, hpair, hcover⟩ := ih hrest
    refine ⟨?_, ?_, ?_⟩
    · intro b hb
      cases hb with
      | head => exact ⟨hdvd a (by simp), hmax, le_rfl⟩
      | tail _ hb =>
        obtain ⟨hal, hord, hge⟩ := hall b hb
        exact ⟨hal, hord, by omega⟩
    · rw [consecutive, List.pairwise_cons]
      refine ⟨fun c hc => ?_, hpair⟩
      rw [Set.disjoint_left]
      intro x hx hxc
      have hge := (hall c hc).2.2
      have hlt : x < a + 2 ^ k := hx.2
      have hcx : c.addr ≤ x := hxc.1
      omega
    · rw [consecutive, cover_cons, hcover]
      ext x
      simp only [Block.range, Set.mem_union, Set.mem_Ico]
      omega

/-- Dereferencing along the chosen orders yields the intervals of consecutive blocks. -/
theorem map_getIval_stops {maxOrder a rest : ℕ} {ks : List ℕ}
    (h : ∀ b ∈ consecutive a ks, b.addr + 2 ^ b.ord < 2 ^ 64) :
    (stops maxOrder [a] rest ks).map OrderIterator.getIval =
      (consecutive a ks).map blockInterval := by
  induction ks generalizing a rest with
  | nil => rfl
  | cons k ks ih =>
    have hhead : a + 2 ^ k < 2 ^ 64 := h ⟨k, a⟩ (by simp [consecutive])
    have htail := @ih (a + 2 ^ k) (rest - 2 ^ k) fun b hb => h b (by simp [consecutive, hb])
    simp only [stops, consecutive, List.map_cons, List.map_nil, htail]
    simp [OrderIterator.getIval, blockInterval, wrap_of_lt hhead]

/-- A loop over a single range visits the intervals of disjoint aligned blocks that fill it. -/
theorem intervals_spec {base size : ℕ} (maxOrder : ℕ) (hend : base + size < 2 ^ 64) :
    ∃ bs : List Block, OrderRange.intervals base size maxOrder = some (bs.map blockInterval) ∧
      (∀ b ∈ bs, b.Aligned ∧ b.ord ≤ maxOrder ∧ b.addr + 2 ^ b.ord < 2 ^ 64) ∧
      bs.Pairwise (fun b c => Disjoint b.range c.range) ∧
      cover {b | b ∈ bs} = Set.Ico base (base + size) := by
  obtain ⟨ks, hiter, hgreedy⟩ := OrderRange.iterators_greedy (r := ⟨[base], size, maxOrder⟩)
    (by simp only; omega) (by simpa using hend)
  obtain ⟨hall, hpair, hcover⟩ := hgreedy.consecutive_spec
  have hinside : ∀ b ∈ consecutive base ks, b.addr + 2 ^ b.ord < 2 ^ 64 := by
    intro b hb
    have hpos := Nat.two_pow_pos b.ord
    have hlast : b.addr + 2 ^ b.ord - 1 ∈ b.range := ⟨by omega, by omega⟩
    have hx : b.addr + 2 ^ b.ord - 1 ∈ cover {b | b ∈ consecutive base ks} :=
      range_subset_cover hb hlast
    rw [hcover, Set.mem_Ico] at hx
    simp only at hx
    omega
  refine ⟨consecutive base ks, ?_, fun b hb => ⟨(hall b hb).1, (hall b hb).2.1, hinside b hb⟩,
    hpair, hcover⟩
  rw [OrderRange.intervals, hiter, Option.map_some]
  rw [map_getIval_stops hinside]

/-- Blocks that follow one another from `a` to `b`, none of them empty. -/
def Tiles : ℕ → ℕ → List Interval → Prop
  | a, b, [] => a = b
  | a, b, i :: is => i.a = a ∧ i.a < i.b ∧ Tiles i.b b is

/-- A position inside the lists of bases. -/
private theorem getD_map_add {bases : List ℕ} {n : ℕ} (hn : n < bases.length) (d : ℕ) :
    (bases.map (· + d)).getD n 0 = bases.getD n 0 + d := by
  simp [List.getD_eq_getElem?_getD, hn]

private theorem getD_mem {bases : List ℕ} {n : ℕ} (hn : n < bases.length) :
    bases.getD n 0 ∈ bases := by
  rw [List.getD_eq_getElem _ _ hn]
  exact List.getElem_mem hn

/-- Greedy blocks tile every one of the ranges. -/
theorem Greedy.tiles {maxOrder rest n : ℕ} {bases ks : List ℕ} (h : Greedy maxOrder bases rest ks)
    (hn : n < bases.length) (hend : bases.getD n 0 + rest < 2 ^ 64) :
    Tiles (bases.getD n 0) (bases.getD n 0 + rest)
      ((stops maxOrder bases rest ks).map (·.ival n)) := by
  induction ks generalizing bases rest with
  | nil =>
    have h0 : rest = 0 := h
    simp [stops, Tiles, h0]
  | cons k ks ih =>
    obtain ⟨hk, hrest⟩ := h
    have hle : 2 ^ k ≤ rest := ((hk k).mpr le_rfl).2.1
    have hpos := Nat.two_pow_pos k
    have hb : wrap (bases.getD n 0 + 2 ^ k) = bases.getD n 0 + 2 ^ k := wrap_of_lt (by omega)
    have hnext := getD_map_add hn (2 ^ k)
    have htail := ih hrest (by simpa using hn) (by rw [hnext]; omega)
    have hsum : bases.getD n 0 + 2 ^ k + (rest - 2 ^ k) = bases.getD n 0 + rest := by omega
    rw [hnext, hsum] at htail
    rw [stops, List.map_cons, Tiles, OrderIterator.ival, hb]
    exact ⟨rfl, by simp only; omega, htail⟩

/-- Along greedy blocks the step is a power of two, the position and the rest add up, and the
step is the largest that respects all limits. -/
theorem Greedy.stops_spec {maxOrder rest : ℕ} {bases ks : List ℕ}
    (h : Greedy maxOrder bases rest ks) {it : OrderIterator}
    (hit : it ∈ stops maxOrder bases rest ks) :
    it.base.map (· + it.restSize) = bases.map (· + rest) ∧
      ∃ k, it.currentStep = 2 ^ k ∧
        ∀ j, ((∀ b ∈ it.base, 2 ^ j ∣ b) ∧ 2 ^ j ≤ it.restSize ∧ j ≤ maxOrder) ↔ j ≤ k := by
  induction ks generalizing bases rest with
  | nil => simp [stops] at hit
  | cons k ks ih =>
    obtain ⟨hk, hrest⟩ := h
    have hle : 2 ^ k ≤ rest := ((hk k).mpr le_rfl).2.1
    cases hit with
    | head => exact ⟨rfl, k, rfl, hk⟩
    | tail _ hit =>
      obtain ⟨hsum, hstep⟩ := ih hrest hit
      refine ⟨?_, hstep⟩
      rw [hsum, List.map_map]
      apply List.map_congr_left
      intro b _
      simp only [Function.comp_apply]
      omega

/-- The same in terms of the current blocks. -/
theorem Greedy.block_spec {maxOrder rest : ℕ} {bases ks : List ℕ}
    (h : Greedy maxOrder bases rest ks) (hend : ∀ n < bases.length, bases.getD n 0 + rest < 2 ^ 64)
    {it : OrderIterator} (hit : it ∈ stops maxOrder bases rest ks) :
    (∀ n < bases.length, (it.ival n).a + it.restSize = bases.getD n 0 + rest) ∧
      ∃ k ≤ maxOrder,
        (∀ n < bases.length, (it.ival n).b = (it.ival n).a + 2 ^ k ∧ 2 ^ k ∣ (it.ival n).a) ∧
        ∀ j ≤ maxOrder, 2 ^ j ≤ it.restSize →
          (∀ n < bases.length, 2 ^ j ∣ (it.ival n).a) → j ≤ k := by
  obtain ⟨hsum, k, hstep, hk⟩ := h.stops_spec hit
  have hlen : it.base.length = bases.length := by simpa using congrArg List.length hsum
  have hpos : ∀ n < bases.length, (it.ival n).a + it.restSize = bases.getD n 0 + rest := by
    intro n hn
    have hget := congrArg (fun l => l.getD n 0) hsum
    simp only [getD_map_add hn, getD_map_add (hlen ▸ hn)] at hget
    exact hget
  obtain ⟨hdvd, hle, hmax⟩ := (hk k).mpr le_rfl
  refine ⟨hpos, k, hmax, fun n hn => ?_, fun j hj hjle hjdvd => ?_⟩
  · have hsum := hpos n hn
    have hlast := hend n hn
    refine ⟨?_, hdvd _ (getD_mem (hlen ▸ hn))⟩
    simp only [OrderIterator.ival, hstep] at hsum ⊢
    exact wrap_of_lt (by omega)
  · refine (hk j).mp ⟨fun b hb => ?_, hjle, hj⟩
    obtain ⟨n, hn, rfl⟩ := List.mem_iff_getElem.mp hb
    have hdvd := hjdvd n (hlen ▸ hn)
    rwa [OrderIterator.ival, List.getD_eq_getElem _ _ hn] at hdvd

namespace OrderRange

/-- Iteration from begin to end terminates. In every one of the ranges the blocks follow one
another from the base to the end of the range; each block is a power of two that is no larger
than permitted and divides its starts, and no larger power of two would do. -/
theorem decomposition {r : OrderRange} (hne : r.base ≠ [])
    (hend : ∀ b ∈ r.base, b + r.size < 2 ^ 64) :
    ∃ its, r.iterators = some its ∧
      (∀ n < r.base.length,
        Tiles (r.base.getD n 0) (r.base.getD n 0 + r.size) (its.map (·.ival n))) ∧
      (∀ it ∈ its, (∀ n < r.base.length, (it.ival n).a + it.restSize = r.base.getD n 0 + r.size) ∧
        ∃ k ≤ r.maxOrder,
          (∀ n < r.base.length, (it.ival n).b = (it.ival n).a + 2 ^ k ∧ 2 ^ k ∣ (it.ival n).a) ∧
          ∀ j ≤ r.maxOrder, 2 ^ j ≤ it.restSize →
            (∀ n < r.base.length, 2 ^ j ∣ (it.ival n).a) → j ≤ k) ∧
      (r.base.length = 2 → ∀ it ∈ its, ∃ k,
        it.getIvals = (⟨it.base.getD 0 0, it.base.getD 0 0 + 2 ^ k⟩,
          ⟨it.base.getD 1 0, it.base.getD 1 0 + 2 ^ k⟩) ∧
        2 ^ k ∣ it.base.getD 0 0 ∧ 2 ^ k ∣ it.base.getD 1 0) := by
  have hsize : r.size < 2 ^ 64 := by
    obtain ⟨b, hb⟩ := List.exists_mem_of_ne_nil _ hne
    have := hend b hb
    omega
  obtain ⟨ks, hits, hgreedy⟩ := iterators_greedy hsize hend
  have hlast : ∀ n < r.base.length, r.base.getD n 0 + r.size < 2 ^ 64 :=
    fun n hn => hend _ (getD_mem hn)
  refine ⟨_, hits, fun n hn => hgreedy.tiles hn (hlast n hn),
    fun it hit => hgreedy.block_spec hlast hit, fun htwo it hit => ?_⟩
  obtain ⟨-, k, -, hk, -⟩ := hgreedy.block_spec hlast hit
  obtain ⟨hfirst, hfirst_dvd⟩ := hk 0 (by omega)
  obtain ⟨hsecond, hsecond_dvd⟩ := hk 1 (by omega)
  refine ⟨k, ?_, hfirst_dvd, hsecond_dvd⟩
  simp only [OrderIterator.getIvals, OrderIterator.ival] at hfirst hsecond ⊢
  rw [hfirst, hsecond]

/-- Two ranges of twelve kilobytes that are aligned to four kilobytes. -/
theorem decomposition_two : ∃ its,
    (OrderRange.mk [4096, 65536] 12288 255).iterators = some its ∧
      Tiles 4096 16384 (its.map (·.ival 0)) ∧ Tiles 65536 77824 (its.map (·.ival 1)) := by
  obtain ⟨its, hits, htiles, -, -⟩ :=
    decomposition (r := ⟨[4096, 65536], 12288, 255⟩) (by simp) (by simp)
  exact ⟨its, hits, htiles 0 (by simp), htiles 1 (by simp)⟩

end OrderRange

end Toyos.Util
