import Toyos.Core.Vec
import Toyos.Util.Interval

/-!
# Interval maps

`interval_vector_impl` for 64-bit keys: a vector of pairs, each giving a value
from its key up to the next key. Iterators are offsets from the begin of the
vector; forming one outside the vector is harmless, using it is a fault. The
failed assertions of `insert` are faults of their own.
-/

namespace Toyos.Util

open Toyos.Core

/-- The checks of the interval map. -/
inductive IntervalFault
  /-- The assertion that the inserted interval is not empty. -/
  | emptyInterval
  /-- The assertion that the vector is not empty. -/
  | emptyVector
  /-- The assertion that an interval is inserted behind the first entry. -/
  | beforeFirst
  /-- An access through an iterator outside the vector. -/
  | badIterator
  deriving DecidableEq, Repr

/-- `ival_last`: all bits set. -/
def ivalLast : ℕ := 2 ^ 64 - 1

/-- A map from intervals to values. -/
structure IntervalVector (V : Type) where
  /-- Keys with the value from there on. -/
  m : List (ℕ × V)
  deriving DecidableEq, Repr

namespace IntervalVector

variable {V : Type}

/-- The constructor maps all keys to one value. -/
def new (val : V) : IntervalVector V := ⟨[(0, val)]⟩

/-- The first entry whose key is not less than the point. -/
def lowerBound (m : List (ℕ × V)) (point : ℕ) : Except IntervalFault ℤ := do
  let n ← Vec.search .badIterator (fun e => e.1 < point) m
  return (n : ℤ)

/-- The first entry whose key is greater than the point. -/
def upperBound (m : List (ℕ × V)) (point : ℕ) : Except IntervalFault ℤ := do
  let n ← Vec.search .badIterator (fun e => !(point < e.1)) m
  return (n : ℤ)

/-- `find`: the stored interval around a point and its value. -/
def find (s : IntervalVector V) (point : ℕ) : Except IntervalFault (Option (Interval × V)) := do
  let upper ← upperBound s.m point
  let lower := upper - 1
  let upperVal ←
    if upper = s.m.length then pure ivalLast
    else do
      let e ← Vec.deref .badIterator s.m upper
      pure e.1
  let e ← Vec.deref .badIterator s.m lower
  return some (⟨e.1, upperVal⟩, e.2)

/-- `iterate_range`: iterators to the entry of the begin point and behind the last entry before
the end point. -/
def iterateRange (s : IntervalVector V) (beginPoint endPoint : ℕ) :
    Except IntervalFault (ℤ × ℤ) := do
  let first ← lowerBound s.m beginPoint
  let e ← Vec.deref .badIterator s.m first
  let first := if e.1 ≠ beginPoint then first - 1 else first
  let last ← lowerBound s.m endPoint
  return (first, last)

/-- The entries that a loop from one iterator to another visits. -/
def between (s : IntervalVector V) (first last : ℤ) : List (ℕ × V) :=
  (s.m.drop first.toNat).take (last - first).toNat

variable [DecidableEq V]

/-- One round of `find_last_fit`: an entry with the key may hold a later interval. -/
def fitRound (s : IntervalVector V) (size : ℕ) (key : V) (limit : ℕ) (finalRange : Interval)
    (elem : ℕ × V) : Except IntervalFault Interval := do
  if elem.2 = key then
    match ← s.find elem.1 with
    | none => .error .badIterator
    | some (candidate, _) =>
      if size ≤ candidate.size ∧ wrap (candidate.a + size) ≤ limit then
        let stop := min candidate.b limit
        return ⟨wsub stop size, stop⟩
      else return finalRange
  else return finalRange

/-- `find_last_fit`: the last interval of a size below a limit that is mapped to the key. -/
def findLastFit (s : IntervalVector V) (size : ℕ) (key : V) (limit : ℕ) :
    Except IntervalFault Interval :=
  s.m.foldlM (s.fitRound size key limit) ⟨0, 0⟩

/-- The first half of `merge`: join an entry with its predecessor. -/
def mergePrev (m : List (ℕ × V)) (cur : ℤ) : Except IntervalFault (List (ℕ × V) × ℤ) := do
  let pre := cur - 1
  if cur = 0 then return (m, cur)
  else
    let c ← Vec.deref .badIterator m cur
    let p ← Vec.deref .badIterator m pre
    if c.2 = p.2 then
      let m ← Vec.modify .badIterator m cur fun c => (p.1, c.2)
      Vec.erase .badIterator m pre
    else return (m, cur)

/-- The second half of `merge`: join an entry with its successor. -/
def mergePost (m : List (ℕ × V)) (cur : ℤ) : Except IntervalFault (List (ℕ × V)) := do
  let post := cur + 1
  if post = m.length then return m
  else
    let c ← Vec.deref .badIterator m cur
    let p ← Vec.deref .badIterator m post
    if c.2 = p.2 then
      let (m, _) ← Vec.erase .badIterator m post
      return m
    else return m

/-- Join an entry with neighbours of the same value. -/
def merge (m : List (ℕ × V)) (newElem : ℤ) : Except IntervalFault (List (ℕ × V)) := do
  if newElem = m.length then return m
  else
    let (m, cur) ← mergePrev m newElem
    mergePost m cur

/-- The case of `insert` in which no stored key lies inside the interval. -/
def insertInside (m : List (ℕ × V)) (lba lbb : ℤ) (ival : Interval) (val : V) :
    Except IntervalFault (List (ℕ × V)) := do
  ensure (lba ≠ 0) .beforeFirst
  let intervToInsert ← Vec.deref .badIterator m (lbb - 1)
  if val = intervToInsert.2 then return m
  else if ival.b = ivalLast then
    let (m, _) ← Vec.insert .badIterator m lbb (ival.a, val)
    return m
  else
    let separate ←
      if lbb = m.length then pure true
      else do
        let e ← Vec.deref .badIterator m lbb
        pure (decide (ival.b ≠ e.1))
    if separate then
      let cur ← Vec.deref .badIterator m (lba - 1)
      let (m, following) ← Vec.insert .badIterator m lbb (ival.a, val)
      let (m, _) ← Vec.insert .badIterator m (following + 1) (ival.b, cur.2)
      return m
    else
      let (m, newElem) ← Vec.insert .badIterator m lbb (ival.a, val)
      merge m newElem

/-- The case of `insert` in which no stored key lies behind the interval. -/
def insertAtEnd (m : List (ℕ × V)) (lba lbb : ℤ) (ival : Interval) (val : V) :
    Except IntervalFault (List (ℕ × V)) := do
  if ival.b = ivalLast then
    let (m, _) ← Vec.eraseRange .badIterator m lba lbb
    let (m, inserted) ← Vec.insert .badIterator m m.length (ival.a, val)
    merge m inserted
  else
    let (m, prev) ← Vec.eraseRange .badIterator m lba (lbb - 1)
    let e ← Vec.deref .badIterator m prev
    if e.2 = val then
      let m ← Vec.modify .badIterator m prev fun e => (ival.a, e.2)
      merge m prev
    else
      let m ← Vec.modify .badIterator m prev fun e => (ival.b, e.2)
      let (m, inserted) ← Vec.insert .badIterator m prev (ival.a, val)
      merge m inserted

/-- The case of `insert` in which stored keys lie inside and behind the interval. -/
def insertAcross (m : List (ℕ × V)) (lba lbb : ℤ) (ival : Interval) (val : V) :
    Except IntervalFault (List (ℕ × V)) := do
  let e ← Vec.deref .badIterator m lbb
  let (m, deleteUpTo) ←
    if ival.b ≠ e.1 then do
      let m ← Vec.modify .badIterator m (lbb - 1) fun e => (ival.b, e.2)
      pure (m, lbb - 1)
    else pure (m, lbb)
  let (m, toInsert) ← Vec.eraseRange .badIterator m lba deleteUpTo
  let (m, newElem) ← Vec.insert .badIterator m toInsert (ival.a, val)
  merge m newElem

/-- Destructive insert: overwrites the interval with one value. -/
def insert (s : IntervalVector V) (ival : Interval) (val : V) :
    Except IntervalFault (Bool × IntervalVector V) := do
  ensure (ival.empty = false) .emptyInterval
  ensure (s.m ≠ []) .emptyVector
  let lba ← lowerBound s.m ival.a
  let lbb ← lowerBound s.m ival.b
  let m ←
    if lba = lbb then insertInside s.m lba lbb ival val
    else if lbb = s.m.length then insertAtEnd s.m lba lbb ival val
    else insertAcross s.m lba lbb ival val
  return (true, ⟨m⟩)

/-- Remove the stored interval that contains a point. -/
def remove [Inhabited V] (s : IntervalVector V) (point : ℕ) :
    Except IntervalFault (Bool × IntervalVector V) := do
  let next ← upperBound s.m point
  let actual := next - 1
  if next ≠ s.m.length then
    if actual = 0 then
      let m ← Vec.modify .badIterator s.m next fun e => (0, e.2)
      let (m, _) ← Vec.erase .badIterator m actual
      return (true, ⟨m⟩)
    else
      let before ← Vec.deref .badIterator s.m (actual - 1)
      let after ← Vec.deref .badIterator s.m next
      let m ←
        if before.2 = after.2 then do
          let (m, _) ← Vec.erase .badIterator s.m next
          pure m
        else pure s.m
      let (m, _) ← Vec.erase .badIterator m actual
      return (true, ⟨m⟩)
  else if actual = 0 then
    let m ← Vec.modify .badIterator s.m actual fun e => (e.1, default)
    return (true, ⟨m⟩)
  else
    let (m, _) ← Vec.erase .badIterator s.m actual
    return (true, ⟨m⟩)

end IntervalVector

end Toyos.Util
