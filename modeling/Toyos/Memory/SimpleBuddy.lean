import Toyos.Memory.Reclaim
import Mathlib.Data.Finmap

/-!
# The simple buddy

`simple_buddy_impl` adds two things to the buddy. It records the order of every
allocation, so that a range can be freed by its address alone, and it claims
memory with `alloc_func` when the buddy cannot serve a request. The allocation
function has a state of its own, which is passed along explicitly.
-/

namespace Toyos.Memory

open Toyos.Core Toyos.Util

/-- The checks of the simple buddy; `ε` are the failures of its allocation function. -/
inductive SimpleBuddyFault (ε : Type)
  /-- "BUG: alloc function is null". -/
  | allocFunctionNull
  /-- The internal trap for an address that is already in the map. -/
  | addressInMap
  /-- `alloc_map.at` without an entry for the address. -/
  | noMapEntry
  /-- A failed check of the underlying buddy. -/
  | buddy (fault : BuddyFault)
  /-- A failure inside the allocation function. -/
  | allocFunc (fault : ε)
  deriving DecidableEq, Repr

/-- A buddy together with the orders of its allocations. -/
structure SimpleBuddy where
  /-- The parent class. -/
  buddy : BuddyImpl
  /-- The recorded order of every allocated address. -/
  allocMap : Finmap fun _ : ℕ => ℕ
  deriving DecidableEq

/-- `std::clamp`. -/
def clamp (v lo hi : ℕ) : ℕ := if v < lo then lo else if hi < v then hi else v

/-- The page size is two to this power. -/
def pageBits : ℕ := 12

namespace SimpleBuddy

/-- The smallest order that callers need. -/
def minClaimOrder : ℕ := pageBits

/-- The largest order that is claimed at once. -/
def maxClaimOrder : ℕ := 63

/-- A simple buddy without memory; the flag says whether an allocation function was given. -/
def new {ε : Type} (maxOrd : ℕ) (hasAllocFunc : Bool) :
    Except (SimpleBuddyFault ε) SimpleBuddy := do
  let buddy ← (BuddyImpl.new maxOrd).mapError .buddy
  ensure (hasAllocFunc = true) .allocFunctionNull
  return ⟨buddy, ∅⟩

/-- The order of the memory claimed for a request; orders are eight-bit values. -/
def claimOrder (order : ℕ) : ℕ :=
  clamp ((order + 1) % 2 ^ 8) (minClaimOrder + 1) maxClaimOrder

variable {ε ω : Type}

/-- Claim fresh memory, add it to the buddy and try the allocation again. -/
def refill (allocFunc : ω → ℕ → Except ε (ℕ × ω)) (buddy : BuddyImpl) (world : ω) (order : ℕ) :
    Except (SimpleBuddyFault ε) (Option ℕ × BuddyImpl × ω) := do
  let (newSpace, world) ← (allocFunc world (wrap (1 <<< claimOrder order))).mapError .allocFunc
  if newSpace = 0 then return (none, buddy, world)
  else
    let buddy ← (buddy.reclaimRange (.fromOrder newSpace (claimOrder order))).mapError .buddy
    let (optAddr, buddy) ← (buddy.alloc order).mapError .buddy
    return (optAddr, buddy, world)

/-- Allocate from the buddy, after a refill if it has no suitable memory. -/
def allocBuddy (allocFunc : ω → ℕ → Except ε (ℕ × ω)) (buddy : BuddyImpl) (world : ω)
    (order : ℕ) : Except (SimpleBuddyFault ε) (Option ℕ × BuddyImpl × ω) := do
  let (optAddr, buddy) ← (buddy.alloc order).mapError .buddy
  match optAddr with
  | some addr => return (some addr, buddy, world)
  | none => refill allocFunc buddy world order

/-- Take a range of the given order and record it. -/
def alloc (allocFunc : ω → ℕ → Except ε (ℕ × ω)) (s : SimpleBuddy) (world : ω) (order : ℕ) :
    Except (SimpleBuddyFault ε) (Option ℕ × SimpleBuddy × ω) := do
  let (optAddr, buddy, world) ← allocBuddy allocFunc s.buddy world order
  match optAddr with
  | none => return (none, { s with buddy }, world)
  | some addr =>
    ensure (addr ∉ s.allocMap) .addressInMap
    return (some addr, ⟨buddy, s.allocMap.insert addr order⟩, world)

/-- `free(addr)`: give back a range by its address. -/
def free (s : SimpleBuddy) (addr : ℕ) : Except (SimpleBuddyFault ε) SimpleBuddy := do
  match s.allocMap.lookup addr with
  | none => .error .noMapEntry
  | some order =>
    let buddy ← (s.buddy.free addr order).mapError .buddy
    return ⟨buddy, s.allocMap.erase addr⟩

/-- `free(addr, order)`: a proxy for the free of the parent class. -/
def freeOrder (s : SimpleBuddy) (addr order : ℕ) : Except (SimpleBuddyFault ε) SimpleBuddy := do
  let buddy ← (s.buddy.free addr order).mapError .buddy
  return { s with buddy }

end SimpleBuddy

end Toyos.Memory
