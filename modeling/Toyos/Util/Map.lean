import Toyos.Core.Run
import Toyos.Core.Vec
import Mathlib.Data.List.TakeWhile
import Mathlib.Order.Lattice

/-!
# Maps in a vector and in a tree

`map_vector` keeps key-value pairs in a sorted vector, and `map_map` offers the same
interface over `std::map`. A map of the standard library is a list of pairs in strictly
increasing order of their keys, with iterators as positions in it. For all insertions
the two containers hold the same pairs; they report the same unless an insertion with
a hint meets a key that is present already.
-/

namespace Toyos.Util

open Toyos.Core

variable {K V : Type} [LinearOrder K]

/-- Keys in strictly increasing order. -/
def Increasing (l : List (K × V)) : Prop := l.Pairwise fun a b => a.1 < b.1

/-- The pairs in front of the lower bound of a key. -/
def below (key : K) (l : List (K × V)) : List (K × V) := l.takeWhile fun p => p.1 < key

/-- The pairs from the lower bound of a key on. -/
def notBelow (key : K) (l : List (K × V)) : List (K × V) := l.dropWhile fun p => p.1 < key

section Split

variable {l : List (K × V)} {key : K} {val : V} {p : K × V}

theorem below_append_notBelow (key : K) (l : List (K × V)) :
    below key l ++ notBelow key l = l := List.takeWhile_append_dropWhile

theorem lt_of_mem_below (h : p ∈ below key l) : p.1 < key := by
  simpa using List.mem_takeWhile_imp h

theorem Increasing.le_of_mem_notBelow (hl : Increasing l) (h : p ∈ notBelow key l) :
    key ≤ p.1 := by
  induction l with
  | nil => cases h
  | cons q l ih =>
    obtain ⟨hq, hl⟩ := List.pairwise_cons.mp hl
    rw [notBelow] at h
    by_cases hlt : q.1 < key
    · rw [List.dropWhile_cons_of_pos (by simpa using hlt)] at h
      exact ih hl h
    · rw [List.dropWhile_cons_of_neg (by simpa using hlt)] at h
      rcases List.mem_cons.mp h with rfl | hp
      · exact not_lt.mp hlt
      · exact (not_lt.mp hlt).trans (hq p hp).le

/-- Without the key itself, all keys from its lower bound on are greater. -/
theorem Increasing.lt_of_mem_notBelow (hl : Increasing l) (hkey : key ∉ l.map Prod.fst)
    (h : p ∈ notBelow key l) : key < p.1 := by
  refine lt_of_le_of_ne (hl.le_of_mem_notBelow h) ?_
  rintro rfl
  exact hkey (List.mem_map_of_mem ((List.dropWhile_sublist _).subset h))

theorem getElem_lt {i : ℕ} (hi : i < (below key l).length) (hlt : i < l.length) :
    l[i].1 < key := by
  have hbelow : below key l <+: l := List.takeWhile_prefix _
  have hget : (below key l)[i] = l[i] := hbelow.getElem hi
  exact hget ▸ lt_of_mem_below (List.getElem_mem hi)

theorem Increasing.le_getElem (hl : Increasing l) {i : ℕ} (hi : (below key l).length ≤ i)
    (hlt : i < l.length) : key ≤ l[i].1 := by
  rw [List.getElem_of_eq (below_append_notBelow key l).symm, List.getElem_append_right hi]
  exact hl.le_of_mem_notBelow (List.getElem_mem _)

/-- A pair with a new key goes to its lower bound. -/
theorem Increasing.insert (hl : Increasing l) (h : key ∉ l.map Prod.fst) :
    Increasing (below key l ++ (key, val) :: notBelow key l) := by
  refine List.pairwise_append.mpr ⟨hl.sublist (List.takeWhile_sublist _),
    List.pairwise_cons.mpr ⟨fun p hp => hl.lt_of_mem_notBelow h hp,
      hl.sublist (List.dropWhile_sublist _)⟩, ?_⟩
  intro p hp q hq
  rcases List.mem_cons.mp hq with rfl | hq
  · exact lt_of_mem_below hp
  · exact (lt_of_mem_below hp).trans (hl.lt_of_mem_notBelow h hq)

/-- A key that is present stands at its lower bound. -/
theorem Increasing.notBelow_of_mem (hl : Increasing l) (h : key ∈ l.map Prod.fst) :
    ∃ p after, notBelow key l = p :: after ∧ p.1 = key := by
  obtain ⟨p, hp, rfl⟩ := List.mem_map.mp h
  have hmem : p ∈ notBelow p.1 l := by
    rw [← below_append_notBelow p.1 l, List.mem_append] at hp
    exact hp.resolve_left fun hbelow => lt_irrefl p.1 (lt_of_mem_below hbelow)
  have hsorted : Increasing (notBelow p.1 l) := hl.sublist (List.dropWhile_sublist _)
  cases hsplit : notBelow p.1 l with
  | nil =>
    rw [hsplit] at hmem
    cases hmem
  | cons q after =>
    refine ⟨q, after, rfl, ?_⟩
    have hle : p.1 ≤ q.1 := hl.le_of_mem_notBelow (hsplit ▸ List.mem_cons_self)
    rw [hsplit] at hmem hsorted
    rcases List.mem_cons.mp hmem with rfl | hp
    · rfl
    · exact absurd ((List.pairwise_cons.mp hsorted).1 p hp) (not_lt.mpr hle)

end Split

/-- A map of the standard library. -/
structure StdMap (K V : Type) [LinearOrder K] where
  /-- The pairs in the order of iteration. -/
  items : List (K × V)
  /-- The keys are in order. -/
  increasing : Increasing items

namespace StdMap

/-- The empty map. -/
def empty : StdMap K V := ⟨[], List.Pairwise.nil⟩

variable (m : StdMap K V) (key : K) (val : V)

/-- `lower_bound`. -/
def lowerBound : ℕ := (below key m.items).length

/-- `emplace`: the iterator to the element with the key, and whether it was inserted. -/
def emplace : StdMap K V × ℕ × Bool :=
  if h : key ∈ m.items.map Prod.fst then (m, m.lowerBound key, false)
  else (⟨below key m.items ++ (key, val) :: notBelow key m.items, m.increasing.insert h⟩,
    m.lowerBound key, true)

/-- `emplace_hint`: the hint may save time only. -/
def emplaceHint (_hint : ℕ) : StdMap K V × ℕ :=
  let (m', it, _) := m.emplace key val
  (m', it)

end StdMap

namespace MapMap

variable (map : StdMap K V) (key : K) (val : V)

/-- Insertion with a hint. -/
def insertHint (it : ℕ) : StdMap K V × Option ℕ :=
  let (map, ret) := map.emplaceHint key val it
  (map, if ret ≠ map.items.length then some ret else none)

/-- Insertion with automatic position lookup. -/
def insert : StdMap K V × Option ℕ :=
  let (map, ret) := map.emplace key val
  (map, if ret.2 then some ret.1 else none)

/-- Lower bound search. -/
def lowerBound : ℕ := map.lowerBound key

end MapMap

namespace MapVector

/-- Reasons for stopping. -/
inductive Fault where
  /-- An access outside the vector. -/
  | outside
  deriving DecidableEq, Repr

variable (vec : List (K × V)) (key : K) (val : V)

/-- The order of pairs and keys. -/
def pairCompKey (p : K × V) : Bool := p.1 < key

/-- Insertion with automatic position lookup. -/
def insert : Except Fault (List (K × V) × Option ℕ) := do
  let pos ← Vec.search Fault.outside (pairCompKey key) vec
  if pos ≠ vec.length then
    if (← Vec.deref Fault.outside vec pos).1 = key then
      return (vec, none)
  let (vec, it) ← Vec.insert Fault.outside vec pos (key, val)
  return (vec, some it.toNat)

/-- Insertion with a hint, which is checked. -/
def insertHint (it : ℕ) : Except Fault (List (K × V) × Option ℕ) := do
  if it ≠ vec.length then
    if ¬key < (← Vec.deref Fault.outside vec it).1 then
      return ← insert vec key val
  if it ≠ 0 then
    if ¬(← Vec.deref Fault.outside vec (it - 1 : ℤ)).1 < key then
      return ← insert vec key val
  let (vec, pos) ← Vec.insert Fault.outside vec it (key, val)
  return (vec, some pos.toNat)

/-- Lower bound search. -/
def lowerBound : Except Fault ℕ := Vec.search Fault.outside (pairCompKey key) vec

section Results

variable {vec : List (K × V)} {key : K} {val : V}

/-- Binary search finds the lower bound. -/
theorem search_eq (h : Increasing vec) :
    Vec.search Fault.outside (pairCompKey key) vec = .ok (below key vec).length := by
  have hsearch : Vec.search Fault.outside (pairCompKey key) (below key vec ++ notBelow key vec) =
      .ok (below key vec).length :=
    Vec.search_append _ (fun p hp => decide_eq_true (lt_of_mem_below hp))
      fun p hp => decide_eq_false (not_lt.mpr (h.le_of_mem_notBelow hp))
  rwa [below_append_notBelow] at hsearch

/-- A pair whose key is present is not inserted. -/
theorem insert_of_mem (h : Increasing vec) (hkey : key ∈ vec.map Prod.fst) :
    insert vec key val = .ok (vec, none) := by
  obtain ⟨p, after, hsplit, hp⟩ := h.notBelow_of_mem hkey
  have hvec : below key vec ++ p :: after = vec := by rw [← hsplit, below_append_notBelow]
  have hlt : (below key vec).length ≠ vec.length := by
    rw [ne_eq, ← congrArg List.length hvec]
    simp
  have hderef : Vec.deref Fault.outside (below key vec ++ p :: after) (below key vec).length =
      .ok p := Vec.deref_append _ rfl
  rw [hvec] at hderef
  rw [insert, search_eq h, ok_bind, if_pos hlt, hderef, ok_bind, if_pos hp]
  rfl

theorem insert_at_below : Vec.insert Fault.outside vec (below key vec).length (key, val) =
    .ok (below key vec ++ (key, val) :: notBelow key vec, ((below key vec).length : ℤ)) := by
  have happend : Vec.insert Fault.outside (below key vec ++ notBelow key vec)
      (below key vec).length (key, val) = _ := Vec.insert_append _ rfl _ _
  rwa [below_append_notBelow] at happend

/-- A pair with a new key is inserted at its lower bound. -/
theorem insert_of_not_mem (h : Increasing vec) (hkey : key ∉ vec.map Prod.fst) :
    insert vec key val = .ok (below key vec ++ (key, val) :: notBelow key vec,
      some (below key vec).length) := by
  rw [insert, search_eq h, ok_bind]
  by_cases hend : (below key vec).length = vec.length
  · rw [if_neg (not_not.mpr hend), insert_at_below]
    rfl
  · have hlt : (below key vec).length < vec.length :=
      lt_of_le_of_ne (List.takeWhile_sublist _).length_le hend
    rw [if_pos hend, Vec.deref_natCast _ hlt, ok_bind, if_neg, insert_at_below]
    · rfl
    · intro heq
      exact hkey (List.mem_map.mpr ⟨_, List.getElem_mem hlt, heq⟩)

/-- A hint that passes the checks is the lower bound of a new key. -/
theorem hint_eq (h : Increasing vec) {it : ℕ} (hit : it ≤ vec.length)
    (hnext : ∀ hlt : it < vec.length, key < vec[it].1)
    (hprev : ∀ hlt : it - 1 < vec.length, it ≠ 0 → vec[it - 1].1 < key) :
    key ∉ vec.map Prod.fst ∧ it = (below key vec).length := by
  have hle : (below key vec).length ≤ it := by
    by_contra hlt
    have hit' : it < vec.length :=
      (not_le.mp hlt).trans_le (List.takeWhile_sublist _).length_le
    exact lt_asymm (hnext hit') (getElem_lt (not_le.mp hlt) hit')
  have hge : it ≤ (below key vec).length := by
    by_contra hlt
    have hit' : it - 1 < vec.length := by omega
    exact not_le.mpr (hprev hit' (by omega)) (h.le_getElem (by omega) hit')
  refine ⟨fun hkey => ?_, Nat.le_antisymm hge hle⟩
  obtain ⟨p, after, hsplit, rfl⟩ := h.notBelow_of_mem hkey
  have hvec : below p.1 vec ++ p :: after = vec := by rw [← hsplit, below_append_notBelow]
  have hit' : it < vec.length := by
    rw [← congrArg List.length hvec, List.length_append, List.length_cons]
    omega
  have hget : vec[it] = p := by
    rw [List.getElem_of_eq hvec.symm, List.getElem_append_right hle]
    simp [Nat.sub_eq_zero_of_le hge]
  exact lt_irrefl p.1 (hget ▸ hnext hit')

/-- The check of a hint against the pair before it. -/
theorem insertHint_of_lt (h : Increasing vec) {it : ℕ} (hit : it ≤ vec.length)
    (hnext : ∀ hlt : it < vec.length, key < vec[it].1) :
    insertHint vec key val it = insert vec key val := by
  have hgood (hprev : ∀ hlt : it - 1 < vec.length, it ≠ 0 → vec[it - 1].1 < key) :
      Vec.insert Fault.outside vec it (key, val) >>= (fun r => pure (r.1, some r.2.toNat)) =
        insert vec key val := by
    obtain ⟨hkey, rfl⟩ := hint_eq h hit hnext hprev
    rw [insert_at_below, insert_of_not_mem h hkey]
    rfl
  have hskip : insertHint vec key val it = (do
      if it ≠ 0 then
        if ¬(← Vec.deref Fault.outside vec (it - 1 : ℤ)).1 < key then
          return ← insert vec key val
      Vec.insert Fault.outside vec it (key, val) >>= fun r => pure (r.1, some r.2.toNat)) := by
    rw [insertHint]
    by_cases hend : it = vec.length
    · rw [if_neg (not_not.mpr hend)]
    · have hlt : it < vec.length := lt_of_le_of_ne hit hend
      rw [if_pos hend, Vec.deref_natCast _ hlt, ok_bind, if_neg (not_not.mpr (hnext hlt))]
  rw [hskip]
  by_cases hzero : it = 0
  · rw [if_neg (not_not.mpr hzero)]
    exact hgood fun _ hne => absurd hzero hne
  · have hlt : it - 1 < vec.length := by omega
    have hderef : Vec.deref Fault.outside vec (it - 1 : ℤ) = .ok vec[it - 1] := by
      rw [show (it : ℤ) - 1 = (it - 1 : ℕ) by omega, Vec.deref_natCast _ hlt]
    rw [if_pos hzero, hderef, ok_bind]
    by_cases hprev : vec[it - 1].1 < key
    · rw [if_neg (not_not.mpr hprev)]
      exact hgood fun _ _ => hprev
    · rw [if_pos hprev]

/-- Hints make no difference. -/
theorem insertHint_eq (h : Increasing vec) {it : ℕ} (hit : it ≤ vec.length) :
    insertHint vec key val it = insert vec key val := by
  by_cases hnext : ∀ hlt : it < vec.length, key < vec[it].1
  · exact insertHint_of_lt h hit hnext
  · obtain ⟨hlt, hbad⟩ := not_forall.mp hnext
    rw [insertHint, if_pos (Nat.ne_of_lt hlt), Vec.deref_natCast _ hlt, ok_bind, if_pos hbad]

end Results

end MapVector

namespace MapMap

section Results

variable {map : StdMap K V} {key : K} {val : V}

/-- The map with a new pair. -/
def added (map : StdMap K V) (key : K) (val : V) (h : key ∉ map.items.map Prod.fst) :
    StdMap K V :=
  ⟨below key map.items ++ (key, val) :: notBelow key map.items, map.increasing.insert h⟩

theorem insert_of_mem (h : key ∈ map.items.map Prod.fst) :
    insert map key val = (map, none) := by
  simp [insert, StdMap.emplace, h]

theorem insert_of_not_mem (h : key ∉ map.items.map Prod.fst) :
    insert map key val = (added map key val h, some (below key map.items).length) := by
  rw [insert, StdMap.emplace, dif_neg h]
  rfl

/-- An insertion with a hint reports an element that was present before. -/
theorem insertHint_of_mem {it : ℕ} (h : key ∈ map.items.map Prod.fst) :
    insertHint map key val it = (map, some (below key map.items).length) := by
  obtain ⟨p, after, hsplit, -⟩ := map.increasing.notBelow_of_mem h
  have hlt : (below key map.items).length ≠ map.items.length := by
    rw [ne_eq, ← congrArg List.length (below_append_notBelow key map.items), hsplit]
    simp
  rw [insertHint, StdMap.emplaceHint, StdMap.emplace, dif_pos h]
  dsimp only
  rw [StdMap.lowerBound, if_pos hlt]

theorem insertHint_of_not_mem {it : ℕ} (h : key ∉ map.items.map Prod.fst) :
    insertHint map key val it = insert map key val := by
  have hlt : (below key map.items).length ≠
      (below key map.items ++ (key, val) :: notBelow key map.items).length := by
    simp
  rw [insert_of_not_mem h, insertHint, StdMap.emplaceHint, StdMap.emplace, dif_neg h]
  dsimp only
  rw [StdMap.lowerBound, if_pos hlt]
  rfl

end Results

end MapMap

/-- The calls of both containers. -/
inductive MapCall (K V : Type) where
  | insert (key : K) (val : V)
  | insertHint (it : ℕ) (key : K) (val : V)
  | lowerBound (key : K)
  deriving DecidableEq, Repr

/-- A call of `map_vector`. -/
def MapVector.exec (vec : List (K × V)) :
    MapCall K V → Except MapVector.Fault (List (K × V) × Option ℕ)
  | .insert key val => MapVector.insert vec key val
  | .insertHint it key val => MapVector.insertHint vec key val it
  | .lowerBound key => do return (vec, some (← MapVector.lowerBound vec key))

/-- A call of `map_map`. -/
def MapMap.exec (map : StdMap K V) : MapCall K V → StdMap K V × Option ℕ
  | .insert key val => MapMap.insert map key val
  | .insertHint it key val => MapMap.insertHint map key val it
  | .lowerBound key => (map, some (MapMap.lowerBound map key))

/-- A hint is a position of the container or its end. -/
def MapCall.Valid (size : ℕ) : MapCall K V → Prop
  | .insertHint it _ _ => it ≤ size
  | _ => True

/-- A call of both containers, with the pairs in the vector before and after it and with what the
containers report. -/
structure MapEvent (K V : Type) where
  /-- The call. -/
  call : MapCall K V
  /-- The pairs before. -/
  before : List (K × V)
  /-- The pairs after. -/
  after : List (K × V)
  /-- The report of `map_vector`. -/
  vectorResult : Option ℕ
  /-- The report of `map_map`. -/
  mapResult : Option ℕ
  deriving DecidableEq, Repr

/-- The two containers. -/
structure Maps (K V : Type) [LinearOrder K] where
  /-- The vector of `map_vector`. -/
  vec : List (K × V)
  /-- The tree of `map_map`. -/
  map : StdMap K V

namespace Maps

/-- Empty containers. -/
def empty : Maps K V := ⟨[], .empty⟩

/-- The same call of both containers. -/
inductive Step : Maps K V → MapEvent K V → Maps K V → Prop
  | call {s : Maps K V} {call : MapCall K V} {vec : List (K × V)} {map : StdMap K V}
      {vectorResult mapResult : Option ℕ} (hvalid : call.Valid s.vec.length)
      (hvec : MapVector.exec s.vec call = .ok (vec, vectorResult))
      (hmap : MapMap.exec s.map call = (map, mapResult)) :
      Step s ⟨call, s.vec, vec, vectorResult, mapResult⟩ ⟨vec, map⟩

end Maps

/-- The pair was inserted. -/
def MapEvent.Inserts {K V : Type} (e : MapEvent K V) (pair : K × V) : Prop :=
  ∃ l₁ l₂, e.before = l₁ ++ l₂ ∧ e.after = l₁ ++ pair :: l₂

/-- Nothing is inserted if nothing changes. -/
theorem MapEvent.not_inserts {K V : Type} {e : MapEvent K V} {pair : K × V}
    (h : e.after = e.before) : ¬e.Inserts pair := by
  rintro ⟨l₁, l₂, hbefore, hafter⟩
  have hlength := congrArg List.length (hafter.symm.trans (h.trans hbefore))
  simp at hlength

namespace MapEvent

/-- Both containers report an element exactly if the pair was inserted; lower bounds are the
same. -/
def Agrees (e : MapEvent K V) : Prop :=
  match e.call with
  | .insert key val | .insertHint _ key val =>
    (e.vectorResult.isSome = true ↔ e.Inserts (key, val)) ∧
      (e.mapResult.isSome = true ↔ e.Inserts (key, val))
  | .lowerBound _ => e.vectorResult = e.mapResult

/-- An insertion with a hint whose key is present already. -/
def Repeats (e : MapEvent K V) : Prop :=
  match e.call with
  | .insertHint _ key _ => key ∈ e.before.map Prod.fst
  | _ => False

/-- A pair that is put at the lower bound of its key is inserted. -/
theorem inserts_below {e : MapEvent K V} {key : K} {val : V}
    (h : e.after = below key e.before ++ (key, val) :: notBelow key e.before) :
    e.Inserts (key, val) :=
  ⟨below key e.before, notBelow key e.before, (below_append_notBelow key e.before).symm, h⟩

end MapEvent

namespace Maps

section Runs

variable {s t : Maps K V} {e : MapEvent K V} {es : List (MapEvent K V)} {key : K} {val : V}

/-- The two containers hold the same pairs. -/
def Same (s : Maps K V) : Prop := s.vec = s.map.items

theorem Same.increasing (h : Same s) : Increasing s.vec := by
  rw [h]
  exact s.map.increasing

/-- A call that both containers treat as an insertion of a new key. -/
theorem Same.added (h : Same s) (hkey : key ∉ s.map.items.map Prod.fst) :
    Same
      ⟨below key s.vec ++ (key, val) :: notBelow key s.vec, MapMap.added s.map key val hkey⟩ := by
  rw [Same, h]
  rfl

/-- What a call does to containers with the same pairs. -/
theorem Same.step (h : Same s) (hs : Step s e t) : Same t ∧ (e.Agrees ↔ ¬e.Repeats) := by
  obtain ⟨hvalid, hvec, hmap⟩ := hs
  rename_i call vec map vectorResult mapResult
  cases call with
  | insert key val =>
    rw [MapVector.exec] at hvec
    rw [MapMap.exec] at hmap
    by_cases hkey : key ∈ s.vec.map Prod.fst
    · rw [MapVector.insert_of_mem h.increasing hkey] at hvec
      rw [MapMap.insert_of_mem (h ▸ hkey)] at hmap
      cases hvec
      cases hmap
      refine ⟨h, iff_of_true ⟨?_, ?_⟩ id⟩
      · exact iff_of_false Bool.false_ne_true (MapEvent.not_inserts rfl)
      · exact iff_of_false Bool.false_ne_true (MapEvent.not_inserts rfl)
    · rw [MapVector.insert_of_not_mem h.increasing hkey] at hvec
      rw [MapMap.insert_of_not_mem (h ▸ hkey)] at hmap
      cases hvec
      cases hmap
      refine ⟨h.added _, iff_of_true ⟨?_, ?_⟩ id⟩
      · exact iff_of_true rfl (MapEvent.inserts_below rfl)
      · exact iff_of_true rfl (MapEvent.inserts_below rfl)
  | insertHint it key val =>
    rw [MapVector.exec, MapVector.insertHint_eq h.increasing hvalid] at hvec
    rw [MapMap.exec] at hmap
    by_cases hkey : key ∈ s.vec.map Prod.fst
    · rw [MapVector.insert_of_mem h.increasing hkey] at hvec
      rw [MapMap.insertHint_of_mem (h ▸ hkey)] at hmap
      cases hvec
      cases hmap
      refine ⟨h, iff_of_false ?_ (not_not.mpr hkey)⟩
      rintro ⟨-, hreport⟩
      exact MapEvent.not_inserts rfl (hreport.mp rfl)
    · rw [MapVector.insert_of_not_mem h.increasing hkey] at hvec
      rw [MapMap.insertHint_of_not_mem (h ▸ hkey), MapMap.insert_of_not_mem (h ▸ hkey)] at hmap
      cases hvec
      cases hmap
      refine ⟨h.added _, iff_of_true ⟨?_, ?_⟩ hkey⟩
      · exact iff_of_true rfl (MapEvent.inserts_below rfl)
      · exact iff_of_true rfl (MapEvent.inserts_below rfl)
  | lowerBound key =>
    rw [MapVector.exec, MapVector.lowerBound, MapVector.search_eq h.increasing] at hvec
    rw [MapMap.exec, MapMap.lowerBound, StdMap.lowerBound, ← h] at hmap
    cases hvec
    cases hmap
    exact ⟨h, iff_of_true rfl id⟩

/-- Calls with valid hints return. -/
theorem Same.returns (h : Same s) (call : MapCall K V) (hvalid : call.Valid s.vec.length) :
    ∃ e t, Step s e t ∧ e.call = call := by
  have hexec : ∃ r, MapVector.exec s.vec call = .ok r := by
    have hinsert (key : K) (val : V) : ∃ r, MapVector.insert s.vec key val = .ok r := by
      by_cases hkey : key ∈ s.vec.map Prod.fst
      · exact ⟨_, MapVector.insert_of_mem h.increasing hkey⟩
      · exact ⟨_, MapVector.insert_of_not_mem h.increasing hkey⟩
    cases call with
    | insert key val => exact hinsert key val
    | insertHint it key val =>
      rw [MapVector.exec, MapVector.insertHint_eq h.increasing hvalid]
      exact hinsert key val
    | lowerBound key =>
      rw [MapVector.exec, MapVector.lowerBound, MapVector.search_eq h.increasing]
      exact ⟨_, rfl⟩
  obtain ⟨⟨vec, r⟩, hvec⟩ := hexec
  exact ⟨_, _, .call hvalid hvec rfl, rfl⟩

/-- In every run the containers hold the same pairs in increasing order and every call returns,
and their reports agree exactly if no insertion with a hint repeats a key. -/
theorem interchangeable_iff (hrun : Run Step (empty : Maps K V) es s) :
    s.vec = s.map.items ∧ Increasing s.vec ∧
      (∀ call : MapCall K V, call.Valid s.vec.length → ∃ e t, Step s e t ∧ e.call = call) ∧
      ((∀ e ∈ es, e.Agrees) ↔ ∀ e ∈ es, ¬e.Repeats) := by
  have hempty : Same (empty : Maps K V) := rfl
  have hsame : Same s := hrun.invariant Same hempty fun _ _ _ h hs => (h.step hs).1
  refine ⟨hsame, hsame.increasing, hsame.returns, ?_⟩
  exact Run.forall_iff_of_good Same _ _ hempty (fun _ _ _ h hs => (h.step hs).2)
    (fun _ _ _ h hs _ => (h.step hs).1) hrun

end Runs

/-- The containers after the insertion of one pair. -/
def onePair : Maps ℕ ℕ := ⟨[(1, 10)], ⟨[(1, 10)], List.pairwise_singleton _ _⟩⟩

/-- The insertion of the pair. -/
def insertion : MapEvent ℕ ℕ := ⟨.insert 1 10, [], [(1, 10)], some 0, some 0⟩

/-- Another insertion of the key, with a hint. -/
def repetition : MapEvent ℕ ℕ := ⟨.insertHint 1 1 20, [(1, 10)], [(1, 10)], none, some 0⟩

theorem insertion_run : Run Step empty [insertion] onePair := Run.nil.snoc (.call trivial rfl rfl)

theorem repetition_run : Run Step empty [insertion, repetition] onePair :=
  insertion_run.snoc (.call (Nat.le_refl 1) rfl rfl)

/-- The reports on the insertion agree, and those on its repetition with a hint do not. -/
theorem interchangeable_insertion :
    insertion.Agrees ∧ ¬repetition.Agrees ∧ Increasing onePair.vec ∧
      ∀ call : MapCall ℕ ℕ, call.Valid onePair.vec.length →
        ∃ e t, Step onePair e t ∧ e.call = call := by
  obtain ⟨-, hincreasing, hreturns, hinsertion⟩ := interchangeable_iff insertion_run
  obtain ⟨-, -, -, hboth⟩ := interchangeable_iff repetition_run
  have hagrees := hinsertion.mpr (List.forall_mem_singleton.mpr id)
  have hrepeats : repetition.Repeats := List.mem_singleton_self 1
  have hdisagree := mt hboth.mp fun h => h repetition (by simp) hrepeats
  refine ⟨hagrees _ (List.mem_singleton_self _), fun h => hdisagree ?_, hincreasing, hreturns⟩
  rw [List.forall_mem_cons]
  exact ⟨hagrees _ (List.mem_singleton_self _), List.forall_mem_singleton.mpr h⟩

/-- A hinted insertion of a key that is present fails in the vector, and the tree reports the old
pair as if it had been inserted. -/
theorem repetition_reported : Run Step empty [insertion, repetition] onePair ∧
    repetition.after = repetition.before ∧ repetition.vectorResult = none ∧
    repetition.mapResult = some 0 :=
  ⟨repetition_run, rfl, rfl, rfl⟩

end Maps

end Toyos.Util
