import Toyos.Util.OrderRange
import Toyos.Memory.BuddyRuns

/-!
# Giving whole intervals to a buddy

Intervals of any size are given to a buddy as the naturally aligned ranges of
`order_range`. The callers differ only in the function that recovers the order
from the size of such a range.
-/

namespace Toyos.Memory

open Toyos.Core Toyos.Util

namespace BuddyImpl

/-- Free every aligned range of an interval, with the order computed from its size. -/
def freeRanges (orderOf : ℕ → ℕ) (b : BuddyImpl) (ival : Interval) :
    Except BuddyFault BuddyImpl :=
  match OrderRange.intervals ival.a ival.size b.maxOrder with
  | none => .error .unfinishedLoop
  | some ranges => ranges.foldlM (fun b range => b.free range.a (orderOf range.size)) b

/-- `buddy_reclaim_range` adds an interval as the biggest possible chunks. -/
def reclaimRange (b : BuddyImpl) (ival : Interval) : Except BuddyFault BuddyImpl :=
  b.freeRanges orderMax ival

variable {top : ℕ} {s : BuddyImpl}

/-- Freeing the intervals of blocks is freeing the blocks. -/
theorem foldlM_free_blockInterval {orderOf : ℕ → ℕ} (horder : ∀ k < 64, orderOf (2 ^ k) = k)
    {bs : List Block} (hin : ∀ b ∈ bs, b.addr + 2 ^ b.ord < 2 ^ 64) (s : BuddyImpl) :
    (bs.map blockInterval).foldlM (fun b range => b.free range.a (orderOf range.size)) s =
      s.freeAll bs := by
  induction bs generalizing s with
  | nil => rfl
  | cons b bs ih =>
    have hend := hin b (by simp)
    have hord : b.ord < 64 := (Nat.pow_lt_pow_iff_right (by decide : 1 < 2)).mp (by omega)
    have hsize : (blockInterval b).size = 2 ^ b.ord := by
      rw [Interval.size_eq hend]
      simp [blockInterval]
    rw [List.map_cons, List.foldlM_cons, freeAll, List.foldlM_cons, hsize, horder b.ord hord]
    exact bind_congr fun t => ih (fun c hc => hin c (by simp [hc])) t

/-- An interval outside free memory is added exactly, however the orders are recovered. -/
theorem Inv.freeRanges_ok (h : s.Inv top) {orderOf : ℕ → ℕ}
    (horder : ∀ k < 64, orderOf (2 ^ k) = k) {ival : Interval} (ha : ival.a < 2 ^ 64)
    (hb : ival.b < 2 ^ 64) (hd : Disjoint ival.points s.freeSet) :
    ∃ t, s.freeRanges orderOf ival = .ok t ∧ t.Inv top ∧ t.freeSet = s.freeSet ∪ ival.points := by
  have hend : ival.a + ival.size < 2 ^ 64 := by
    rw [Interval.size_eq hb]
    omega
  obtain ⟨bs, hbs, hall, hpair, hcover⟩ := intervals_spec s.maxOrder hend
  rw [← Interval.points_eq hb] at hcover
  have hlegal : ∀ b ∈ bs, s.FreeLegal b.addr b.ord := by
    intro b hbmem
    obtain ⟨hal, hord, hlt⟩ := hall b hbmem
    have hpos := Nat.two_pow_pos b.ord
    refine ⟨by omega, hord, hal, hd.mono_left ?_⟩
    rw [← hcover]
    exact range_subset_cover hbmem
  obtain ⟨t, hfree, ht, hset⟩ := h.freeAll_ok hlegal hpair
  refine ⟨t, ?_, ht, by rw [hset, hcover]⟩
  rw [freeRanges, hbs]
  simp only
  rw [foldlM_free_blockInterval horder (fun b hbmem => (hall b hbmem).2.2), hfree]

/-- Reclaiming an interval outside free memory adds it exactly. -/
theorem Inv.reclaimRange_ok (h : s.Inv top) {ival : Interval} (ha : ival.a < 2 ^ 64)
    (hb : ival.b < 2 ^ 64) (hd : Disjoint ival.points s.freeSet) :
    ∃ t, s.reclaimRange ival = .ok t ∧ t.Inv top ∧ t.freeSet = s.freeSet ∪ ival.points :=
  h.freeRanges_ok (fun _ hk => orderMax_two_pow hk) ha hb hd

end BuddyImpl

end Toyos.Memory
