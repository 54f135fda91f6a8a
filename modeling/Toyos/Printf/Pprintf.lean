import Toyos.Printf.Number
import Mathlib.Data.List.Chain

/-!
# Formats with braces

`pprintf` turns a format with braces and the types of the arguments into a format
for `printf`, at compile time. A field in braces becomes the conversion for the
type of its argument, with the flags from the braces. Fields and arguments are
counted against each other; a `%` is passed on without a look at what follows.
-/

namespace Toyos.Printf

open Toyos.Core

/-- The types of arguments that the translation distinguishes. -/
inductive Ty
  | char
  | short
  | int
  | long
  | longLong
  | unsignedChar
  | unsignedShort
  | unsigned
  | unsignedLong
  | unsignedLongLong
  | bool
  | float
  | double
  /-- `nullptr_t`. -/
  | nullptr
  /-- `char*` and `const char*`. -/
  | charPtr
  /-- Other pointers. -/
  | ptr
  /-- Types without a format. -/
  | other
  deriving DecidableEq, Repr

/-- The errors of the translation. -/
inductive FormatFault
  /-- "There are more vars than format tokens!". -/
  | moreVars
  /-- "There are more {} than arguments to print". -/
  | moreTokens
  /-- "Found nested braces: {...{...}...}!". -/
  | nestedBraces
  /-- "Missing } after {.". -/
  | missingBrace
  /-- `%%` in front of an argument matches two specializations. -/
  | ambiguous
  /-- There is no `type2fmt` for the type. -/
  | noFormat
  deriving DecidableEq, Repr

/-- The codes of the characters of a string. -/
def codes (s : String) : List UInt8 := s.toList.map ascii

/-- `type2fmt`. -/
def type2fmt : Ty → Except FormatFault (List UInt8)
  | .char => .ok (codes "c")
  | .short | .int | .bool => .ok (codes "d")
  | .long => .ok (codes "ld")
  | .longLong => .ok (codes "lld")
  | .unsignedChar | .unsignedShort | .unsigned => .ok (codes "u")
  | .unsignedLong => .ok (codes "lu")
  | .unsignedLongLong => .ok (codes "llu")
  | .float => .ok (codes "f")
  | .double => .ok (codes "lf")
  | .nullptr | .charPtr | .ptr => .ok (codes "p")
  | .other => .error .noFormat

/-- `is_str`; a character without a pointer counts as well. -/
def Ty.isStr : Ty → Bool
  | .char | .charPtr => true
  | _ => false

/-- `is_integral`. -/
def Ty.isInt : Ty → Bool
  | .float | .double | .nullptr | .charPtr | .ptr | .other => false
  | _ => true

/-- `substitute_t`. -/
def substitute (l : List UInt8) (a b : UInt8) : List UInt8 := l.map fun c => if c = a then b else c

/-- `remove_t`. -/
def removeChar (l : List UInt8) (a : UInt8) : List UInt8 := l.filter (· ≠ a)

/-- `filtered_fl`. -/
def filteredFl (fl : List UInt8) : List UInt8 := removeChar (removeChar fl (ascii 'x')) (ascii 's')

/-- `format_str`. -/
def formatStr (t : Ty) (fl : List UInt8) : Except FormatFault (List UInt8) := do
  let rawFmt ← type2fmt t
  let uintXFmt :=
    if t.isInt && fl.contains (ascii 'x') then
      substitute (substitute rawFmt (ascii 'd') (ascii 'x')) (ascii 'u') (ascii 'x')
    else rawFmt
  let fmtType :=
    if fl.contains (ascii 's') && t.isStr then substitute rawFmt (ascii 'p') (ascii 's')
    else uintXFmt
  return filteredFl fl ++ fmtType

/-- `find_brace`: what is before and behind the closing brace. -/
def findBrace : List UInt8 → List UInt8 → Except FormatFault (List UInt8 × List UInt8)
  | [], _ => .error .missingBrace
  | c :: inList, outList =>
    if c = ascii '}' then .ok (outList, inList)
    else if c = ascii '{' then .error .nestedBraces
    else findBrace inList (outList ++ [c])

/-- `autoformat`, for formats up to a length. -/
def autoformatUpTo : ℕ → List UInt8 → List Ty → Except FormatFault (List UInt8)
  | _, [], [] => .ok []
  | _, [], _ :: _ => .error .moreVars
  | 0, _ :: _, _ => .error .missingBrace
  | n + 1, c :: sl, tl =>
    if c = ascii '%' then
      if sl.head? = some (ascii '%') then
        if tl = [] then do
          return ascii '%' :: ascii '%' :: (← autoformatUpTo n sl.tail tl)
        else .error .ambiguous
      else do return ascii '%' :: (← autoformatUpTo n sl tl.tail)
    else if c = ascii '\\' ∧ sl.head? = some (ascii '{') then do
      return ascii '{' :: (← autoformatUpTo n sl.tail tl)
    else if c = ascii '{' then do
      let (formatBlock, restStr) ← findBrace sl []
      match tl with
      | [] => .error .moreTokens
      | t :: tl => do
        let fmtStr ← formatStr t formatBlock
        return ascii '%' :: (fmtStr ++ (← autoformatUpTo n restStr tl))
    else do return c :: (← autoformatUpTo n sl tl)

/-- `autoformat`. Every step takes a character. -/
def autoformat (sl : List UInt8) (tl : List Ty) : Except FormatFault (List UInt8) :=
  autoformatUpTo sl.length sl tl

example : autoformat (codes "[INF \x7bs\x7d:\x7b\x7d] \x7b#x\x7d\n")
    [.charPtr, .int, .unsignedLong] = .ok (codes "[INF %s:%d] %#lx\n") := by decide

example : autoformat (codes "%%\x7b\x7d") [.int] = .error .ambiguous := by decide

/-- The parts of a format with braces. -/
inductive Piece
  /-- A character that is printed as it is. -/
  | lit (c : UInt8)
  /-- A field with what stands in its braces. -/
  | field (block : List UInt8)
  deriving DecidableEq, Repr

/-- The parts of a format up to a length. -/
def piecesUpTo : ℕ → List UInt8 → Except FormatFault (List Piece)
  | _, [] => .ok []
  | 0, _ :: _ => .error .missingBrace
  | n + 1, c :: sl =>
    if c = ascii '\\' ∧ sl.head? = some (ascii '{') then do
      return .lit (ascii '{') :: (← piecesUpTo n sl.tail)
    else if c = ascii '{' then do
      let (block, rest) ← findBrace sl []
      return .field block :: (← piecesUpTo n rest)
    else do return .lit c :: (← piecesUpTo n sl)

/-- The parts of a format. -/
def pieces (sl : List UInt8) : Except FormatFault (List Piece) := piecesUpTo sl.length sl

/-- The format that the parts are translated to. -/
def generate : List Piece → List Ty → Except FormatFault (List UInt8)
  | [], [] => .ok []
  | [], _ :: _ => .error .moreVars
  | .lit c :: ps, tl => do return c :: (← generate ps tl)
  | .field _ :: _, [] => .error .moreTokens
  | .field block :: ps, t :: tl => do
    let fmtStr ← formatStr t block
    return ascii '%' :: (fmtStr ++ (← generate ps tl))

/-- There is an opening brace at a position, with no backslash in front of it. -/
def opens (sl : List UInt8) (i : ℕ) : Bool :=
  sl[i]? == some (ascii '{') && (i == 0 || sl[i - 1]? != some (ascii '\\'))

/-- Behind a position there is a closing brace, with no opening brace in between. -/
def Closes (sl : List UInt8) (i : ℕ) : Prop :=
  ∃ j < sl.length, i < j ∧ sl[j]? = some (ascii '}') ∧
    ∀ k < j, i < k → sl[k]? ≠ some (ascii '{')

/-- The opening braces of a format. -/
def openings (sl : List UInt8) : ℕ := (List.range sl.length).countP (opens sl)

/-- Every opening brace is closed before the next one. -/
def Braced (sl : List UInt8) : Prop := ∀ i < sl.length, opens sl i = true → Closes sl i

section Braces

variable {sl pre rest outList before after : List UInt8} {i : ℕ}

theorem opens_append_left (hi : i < pre.length) : opens (pre ++ rest) i = opens pre i := by
  rw [opens, opens, List.getElem?_append_left hi, List.getElem?_append_left (by omega)]

theorem getElem?_append_add (k : ℕ) : (pre ++ rest)[pre.length + k]? = rest[k]? := by
  rw [List.getElem?_append_right (Nat.le_add_right _ _), Nat.add_sub_cancel_left]

/-- What follows other characters opens as before, unless a backslash is in front of it. -/
theorem opens_append_right (h : pre.getLast? ≠ some (ascii '\\') ∨ rest.head? ≠ some (ascii '{')) :
    opens (pre ++ rest) (pre.length + i) = opens rest i := by
  rw [opens, opens, getElem?_append_add]
  cases i with
  | succ i =>
    rw [← Nat.add_assoc, Nat.add_sub_cancel, getElem?_append_add]
    simp
  | zero =>
    rcases h with hlast | hhead
    · by_cases hpre : pre = []
      · simp [hpre]
      · have hpos := List.length_pos_iff.mpr hpre
        rw [List.getLast?_eq_getElem?] at hlast
        rw [Nat.add_zero, List.getElem?_append_left (by omega)]
        simp [hlast]
    · rw [← List.head?_eq_getElem?]
      simp [hhead]

theorem closes_append_right : Closes (pre ++ rest) (pre.length + i) ↔ Closes rest i := by
  constructor
  · rintro ⟨j, hj, hij, hbrace, hbetween⟩
    obtain ⟨j, rfl⟩ := Nat.exists_eq_add_of_le (show pre.length ≤ j by omega)
    rw [getElem?_append_add] at hbrace
    rw [List.length_append] at hj
    refine ⟨j, by omega, by omega, hbrace, fun k hk hik => ?_⟩
    rw [← getElem?_append_add]
    exact hbetween _ (by omega) (by omega)
  · rintro ⟨j, hj, hij, hbrace, hbetween⟩
    refine ⟨pre.length + j, by rw [List.length_append]; omega, by omega,
      by rw [getElem?_append_add, hbrace], fun k hk hik => ?_⟩
    obtain ⟨k, rfl⟩ := Nat.exists_eq_add_of_le (show pre.length ≤ k by omega)
    rw [getElem?_append_add]
    exact hbetween k (by omega) (by omega)

theorem openings_append (h : pre.getLast? ≠ some (ascii '\\') ∨ rest.head? ≠ some (ascii '{')) :
    openings (pre ++ rest) = openings pre + openings rest := by
  rw [openings, List.length_append, List.range_add, List.countP_append, List.countP_map]
  congr 1
  · exact List.countP_congr fun i hi => by rw [opens_append_left (List.mem_range.mp hi)]
  · exact List.countP_congr fun i _ => by rw [Function.comp_apply, opens_append_right h]

theorem braced_append (h : pre.getLast? ≠ some (ascii '\\') ∨ rest.head? ≠ some (ascii '{')) :
    Braced (pre ++ rest) ↔
      (∀ i < pre.length, opens pre i = true → Closes (pre ++ rest) i) ∧ Braced rest := by
  constructor
  · intro hall
    refine ⟨fun i hi hopen => ?_, fun i hi hopen => ?_⟩
    · exact hall i (by rw [List.length_append]; omega) (by rw [opens_append_left hi, hopen])
    · exact closes_append_right.mp
        (hall (pre.length + i) (by rw [List.length_append]; omega)
          (by rw [opens_append_right h, hopen]))
  · rintro ⟨hpre, hrest⟩ i hi hopen
    by_cases hlt : i < pre.length
    · exact hpre i hlt (by rw [← opens_append_left hlt, hopen])
    · obtain ⟨i, rfl⟩ := Nat.exists_eq_add_of_le (show pre.length ≤ i by omega)
      rw [List.length_append] at hi
      rw [opens_append_right h] at hopen
      exact closes_append_right.mpr (hrest i (by omega) hopen)

/-- Characters without an opening brace in front of a format change nothing. -/
theorem braced_lit (pre rest : List UInt8)
    (h : pre.getLast? ≠ some (ascii '\\') ∨ rest.head? ≠ some (ascii '{'))
    (hpre : ∀ i < pre.length, opens pre i = false) :
    (Braced (pre ++ rest) ↔ Braced rest) ∧ openings (pre ++ rest) = openings rest := by
  refine ⟨?_, ?_⟩
  · rw [braced_append h, and_iff_right]
    intro i hi hopen
    rw [hpre i hi] at hopen
    cases hopen
  · rw [openings_append h, Nat.add_eq_right, openings, List.countP_eq_zero]
    intro i hi
    rw [hpre i (List.mem_range.mp hi)]
    exact Bool.false_ne_true

/-- A field is one opening brace, which is closed. -/
theorem braced_field {block : List UInt8} (rest : List UInt8) (hblock : ascii '{' ∉ block) :
    (Braced (ascii '{' :: (block ++ ascii '}' :: rest)) ↔ Braced rest) ∧
      openings (ascii '{' :: (block ++ ascii '}' :: rest)) = openings rest + 1 := by
  have hsplit : ascii '{' :: (block ++ ascii '}' :: rest) =
      (ascii '{' :: (block ++ [ascii '}'])) ++ rest := by simp
  have hlast : (ascii '{' :: (block ++ [ascii '}'])).getLast? ≠ some (ascii '\\') := by
    rw [← List.cons_append, List.getLast?_concat]
    decide
  have hnext {k : ℕ} (hk : k < block.length + 1) :
      (block ++ [ascii '}'])[k]? ≠ some (ascii '{') := by
    intro hget
    rcases List.mem_append.mp (List.mem_of_getElem? hget) with hmem | hmem
    · exact hblock hmem
    · exact absurd (List.mem_singleton.mp hmem) (by decide)
  have hfirst : opens (ascii '{' :: (block ++ [ascii '}'])) 0 = true := by simp [opens]
  have hothers (i : ℕ) (hi : i + 1 < (ascii '{' :: (block ++ [ascii '}'])).length) :
      opens (ascii '{' :: (block ++ [ascii '}'])) (i + 1) = false := by
    rw [List.length_cons, List.length_append, List.length_singleton] at hi
    rw [opens, List.getElem?_cons_succ, beq_false_of_ne (hnext (by omega)), Bool.false_and]
  rw [hsplit]
  constructor
  · rw [braced_append (.inl hlast), and_iff_right]
    intro i hi hopen
    cases i with
    | succ i =>
      rw [hothers i hi] at hopen
      cases hopen
    | zero =>
      refine ⟨block.length + 1, by simp, Nat.succ_pos _, ?_, fun k hk hpos => ?_⟩
      · rw [List.cons_append, List.append_assoc, List.getElem?_cons_succ]
        simp
      · obtain ⟨k, rfl⟩ := Nat.exists_eq_succ_of_ne_zero hpos.ne'
        rw [List.cons_append, List.getElem?_cons_succ, List.getElem?_append_left (by simp; omega)]
        exact hnext (by omega)
  · have hzero : (List.map Nat.succ (List.range (block ++ [ascii '}']).length)).countP
        (opens (ascii '{' :: (block ++ [ascii '}']))) = 0 := by
      rw [List.countP_map, List.countP_eq_zero]
      intro i hi
      rw [Function.comp_apply, hothers i (by simpa using List.mem_range.mp hi)]
      exact Bool.false_ne_true
    have hone : openings (ascii '{' :: (block ++ [ascii '}'])) = 1 := by
      rw [openings, List.length_cons, List.range_succ_eq_map, List.countP_cons, hzero, hfirst]
      rfl
    rw [openings_append (.inl hlast), hone, Nat.add_comm]

/-- `find_brace` finds a closing brace with no opening brace before it. -/
theorem findBrace_isOk : (∃ r, findBrace sl outList = .ok r) ↔
    ∃ j : ℕ, sl[j]? = some (ascii '}') ∧ ∀ k < j, sl[k]? ≠ some (ascii '{') := by
  induction sl generalizing outList with
  | nil => simp [findBrace]
  | cons c sl ih =>
    rw [findBrace]
    by_cases hclose : c = ascii '}'
    · rw [if_pos hclose]
      exact iff_of_true ⟨_, rfl⟩ ⟨0, by simp [hclose], by simp⟩
    · by_cases hopen : c = ascii '{'
      · rw [if_neg hclose, if_pos hopen]
        refine iff_of_false (by simp) ?_
        rintro ⟨j, hj, hbefore⟩
        cases j with
        | zero => exact hclose (by simpa using hj)
        | succ j => exact hbefore 0 (Nat.succ_pos j) (by simp [hopen])
      · rw [if_neg hclose, if_neg hopen, ih]
        constructor
        · rintro ⟨j, hj, hbefore⟩
          refine ⟨j + 1, by simpa using hj, fun k hk => ?_⟩
          cases k with
          | zero => simpa using hopen
          | succ k => simpa using hbefore k (by omega)
        · rintro ⟨j, hj, hbefore⟩
          cases j with
          | zero => exact absurd (by simpa using hj) hclose
          | succ j =>
            exact ⟨j, by simpa using hj, fun k hk => by simpa using hbefore (k + 1) (by omega)⟩

/-- What `find_brace` returns lies around the closing brace. -/
theorem findBrace_split (h : findBrace sl outList = .ok (before, after)) :
    ∃ block, before = outList ++ block ∧ sl = block ++ ascii '}' :: after ∧
      ascii '{' ∉ block := by
  induction sl generalizing outList with
  | nil => cases h
  | cons c sl ih =>
    rw [findBrace] at h
    by_cases hclose : c = ascii '}'
    · rw [if_pos hclose] at h
      obtain ⟨rfl, rfl⟩ := Prod.mk.inj (Except.ok.inj h)
      exact ⟨[], (List.append_nil _).symm, by rw [hclose]; rfl, List.not_mem_nil⟩
    · by_cases hopen : c = ascii '{'
      · rw [if_neg hclose, if_pos hopen] at h
        cases h
      · rw [if_neg hclose, if_neg hopen] at h
        obtain ⟨block, rfl, rfl, hblock⟩ := ih h
        exact ⟨c :: block, List.append_assoc _ _ _, rfl,
          List.not_mem_cons_of_ne_of_not_mem (Ne.symm hopen) hblock⟩

/-- A brace at the beginning is closed exactly if `find_brace` finds the closing brace. -/
theorem closes_zero_iff {c : UInt8} (outList : List UInt8) :
    Closes (c :: sl) 0 ↔ ∃ r, findBrace sl outList = .ok r := by
  rw [findBrace_isOk]
  constructor
  · rintro ⟨j, -, hpos, hbrace, hbetween⟩
    obtain ⟨j, rfl⟩ := Nat.exists_eq_succ_of_ne_zero hpos.ne'
    refine ⟨j, by simpa using hbrace, fun k hk => ?_⟩
    simpa using hbetween (k + 1) (by omega) (Nat.succ_pos k)
  · rintro ⟨j, hbrace, hbefore⟩
    have hj := (List.getElem?_eq_some_iff.mp hbrace).1
    refine ⟨j + 1, by rw [List.length_cons]; omega, Nat.succ_pos j, by simpa using hbrace,
      fun k hk hpos => ?_⟩
    obtain ⟨k, rfl⟩ := Nat.exists_eq_succ_of_ne_zero hpos.ne'
    simpa using hbefore k (by omega)

end Braces

section Translation

variable {sl outList before after g : List UInt8} {tl : List Ty} {n : ℕ}

/-- What is behind a closing brace is shorter and has no new characters. -/
theorem findBrace_eq_ok (h : findBrace sl outList = .ok (before, after)) :
    after.length < sl.length ∧ ∀ c ∈ after, c ∈ sl := by
  obtain ⟨block, -, rfl, -⟩ := findBrace_split h
  refine ⟨?_, fun c hc => List.mem_append_right _ (List.mem_cons_of_mem _ hc)⟩
  rw [List.length_append, List.length_cons]
  omega

/-- A character that is printed as it is. -/
theorem lit_eq_ok {c : UInt8} {x : Except FormatFault (List UInt8)}
    {y : Except FormatFault (List Piece)}
    (h : ∀ g, x = .ok g ↔ ∃ ps, y = .ok ps ∧ generate ps tl = .ok g) :
    (do return c :: (← x)) = Except.ok g ↔
      ∃ ps, (do return Piece.lit c :: (← y)) = Except.ok ps ∧ generate ps tl = .ok g := by
  simp only [bind_eq_ok, pure_eq_ok, Except.ok.injEq, h]
  constructor
  · rintro ⟨g, ⟨ps, hps, hg⟩, rfl⟩
    exact ⟨_, ⟨ps, hps, rfl⟩, by rw [generate, hg]; rfl⟩
  · rintro ⟨_, ⟨ps, hps, rfl⟩, hg⟩
    obtain ⟨g', hg', hcons⟩ := bind_eq_ok.mp hg
    exact ⟨g', ⟨ps, hps, hg'⟩, Except.ok.inj hcons⟩

/-- A field takes one argument. -/
theorem field_eq_ok {block : List UInt8} {x : List Ty → Except FormatFault (List UInt8)}
    {y : Except FormatFault (List Piece)}
    (h : ∀ tl g, x tl = .ok g ↔ ∃ ps, y = .ok ps ∧ generate ps tl = .ok g) :
    (match tl with
      | [] => .error .moreTokens
      | t :: tl => do
        let fmtStr ← formatStr t block
        return ascii '%' :: (fmtStr ++ (← x tl))) = Except.ok g ↔
      ∃ ps, (do return Piece.field block :: (← y)) = Except.ok ps ∧ generate ps tl = .ok g := by
  cases tl with
  | nil =>
    simp only [bind_eq_ok, pure_eq_ok, Except.ok.injEq, reduceCtorEq, false_iff]
    rintro ⟨_, ⟨ps, -, rfl⟩, hg⟩
    cases hg
  | cons t tl =>
    simp only [bind_eq_ok, pure_eq_ok, Except.ok.injEq, h]
    constructor
    · rintro ⟨fmtStr, hfmt, g, ⟨ps, hps, hg⟩, rfl⟩
      exact ⟨_, ⟨ps, hps, rfl⟩, by rw [generate, hfmt, ok_bind, hg]; rfl⟩
    · rintro ⟨_, ⟨ps, hps, rfl⟩, hg⟩
      obtain ⟨fmtStr, hfmt, hrest⟩ := bind_eq_ok.mp hg
      obtain ⟨g', hg', hcons⟩ := bind_eq_ok.mp hrest
      exact ⟨fmtStr, hfmt, g', ⟨ps, hps, hg'⟩, Except.ok.inj hcons⟩

/-- Without `%` the translation finds the parts and translates each. -/
theorem autoformatUpTo_eq_ok (hn : sl.length ≤ n) (hpercent : ascii '%' ∉ sl) :
    autoformatUpTo n sl tl = .ok g ↔
      ∃ ps, piecesUpTo n sl = .ok ps ∧ generate ps tl = .ok g := by
  induction n generalizing sl tl g with
  | zero =>
    obtain rfl := List.length_eq_zero_iff.mp (Nat.le_zero.mp hn)
    cases tl <;> simp [autoformatUpTo, piecesUpTo, generate]
  | succ n ih =>
    cases sl with
    | nil => cases tl <;> simp [autoformatUpTo, piecesUpTo, generate]
    | cons c sl =>
      rw [List.mem_cons, not_or] at hpercent
      rw [List.length_cons] at hn
      have htail : ascii '%' ∉ sl.tail := fun h => hpercent.2 (List.mem_of_mem_tail h)
      have hlength : sl.tail.length ≤ n := by
        rw [List.length_tail]
        omega
      rw [autoformatUpTo, if_neg (Ne.symm hpercent.1), piecesUpTo]
      split_ifs
      · exact lit_eq_ok fun g => ih hlength htail
      · cases hbrace : findBrace sl [] with
        | error e => simp
        | ok r =>
          obtain ⟨block, rest⟩ := r
          obtain ⟨hlt, hmem⟩ := findBrace_eq_ok hbrace
          exact field_eq_ok fun tl g => ih (by omega) fun h => hpercent.2 (hmem _ h)
      · exact lit_eq_ok fun g => ih (by omega) hpercent.2

/-- The fields of a format. -/
def fields : List Piece → List (List UInt8)
  | [] => []
  | .lit _ :: ps => fields ps
  | .field block :: ps => block :: fields ps

theorem formatStr_isOk {t : Ty} (block : List UInt8) :
    (∃ fmtStr, formatStr t block = .ok fmtStr) ↔ t ≠ .other := by
  cases t <;> simp [formatStr, type2fmt]

theorem generate_isOk {ps : List Piece} : (∃ g, generate ps tl = .ok g) ↔
    (fields ps).length = tl.length ∧ ∀ t ∈ tl, t ≠ .other := by
  induction ps generalizing tl with
  | nil => cases tl <;> simp [generate, fields]
  | cons p ps ih =>
    cases p with
    | lit c =>
      rw [fields, ← ih]
      simp only [generate, bind_eq_ok, pure_eq_ok, Except.ok.injEq]
      constructor
      · rintro ⟨_, g, hg, -⟩
        exact ⟨g, hg⟩
      · rintro ⟨g, hg⟩
        exact ⟨_, g, hg, rfl⟩
    | field block =>
      cases tl with
      | nil => simp [generate, fields]
      | cons t tl =>
        rw [fields, List.length_cons, List.length_cons, Nat.add_right_cancel_iff,
          List.forall_mem_cons, and_left_comm, ← ih, ← formatStr_isOk block]
        simp only [generate, bind_eq_ok, pure_eq_ok, Except.ok.injEq]
        constructor
        · rintro ⟨_, fmtStr, hfmt, g, hg, -⟩
          exact ⟨⟨fmtStr, hfmt⟩, g, hg⟩
        · rintro ⟨⟨fmtStr, hfmt⟩, g, hg⟩
          exact ⟨_, fmtStr, hfmt, g, hg, rfl⟩

theorem exists_lit {c : UInt8} {m : ℕ} {x : Except FormatFault (List Piece)} :
    (∃ ps, (do return Piece.lit c :: (← x)) = Except.ok ps ∧ (fields ps).length = m) ↔
      ∃ ps, x = .ok ps ∧ (fields ps).length = m := by
  cases x with
  | error e => simp
  | ok ps => simp [fields]

theorem exists_field {block : List UInt8} {m : ℕ} {x : Except FormatFault (List Piece)} :
    (∃ ps, (do return Piece.field block :: (← x)) = Except.ok ps ∧ (fields ps).length = m) ↔
      ∃ ps, x = .ok ps ∧ (fields ps).length + 1 = m := by
  cases x with
  | error e => simp
  | ok ps => simp [fields]

/-- A format has parts exactly if all braces are closed, and then a field for each of them. -/
theorem piecesUpTo_isOk {m : ℕ} (hn : sl.length ≤ n) :
    (∃ ps, piecesUpTo n sl = .ok ps ∧ (fields ps).length = m) ↔
      Braced sl ∧ openings sl = m := by
  induction n generalizing sl m with
  | zero =>
    obtain rfl := List.length_eq_zero_iff.mp (Nat.le_zero.mp hn)
    simp [piecesUpTo, fields, Braced, openings]
  | succ n ih =>
    cases sl with
    | nil => simp [piecesUpTo, fields, Braced, openings]
    | cons c sl =>
      rw [List.length_cons] at hn
      rw [piecesUpTo]
      by_cases hmask : c = ascii '\\' ∧ sl.head? = some (ascii '{')
      · rw [if_pos hmask, exists_lit]
        obtain ⟨rfl, hhead⟩ := hmask
        obtain ⟨rest, rfl⟩ := List.head?_eq_some_iff.mp hhead
        rw [List.length_cons] at hn
        have hrest : rest.length ≤ n := by omega
        obtain ⟨hbraced, hcount⟩ := braced_lit [ascii '\\', ascii '{'] rest
          (.inl (by decide)) (by decide)
        rw [List.cons_append, List.singleton_append] at hbraced hcount
        rw [List.tail_cons, ih hrest, hbraced, hcount]
      · rw [if_neg hmask]
        by_cases hopen : c = ascii '{'
        · rw [if_pos hopen, hopen]
          cases hfind : findBrace sl [] with
          | error e =>
            refine iff_of_false (by simp) ?_
            rintro ⟨hbraced, -⟩
            obtain ⟨r, hr⟩ := (closes_zero_iff []).mp
              (hbraced 0 (Nat.succ_pos _) (by simp [opens]))
            rw [hfind] at hr
            cases hr
          | ok r =>
            obtain ⟨before, rest⟩ := r
            obtain ⟨hlt, -⟩ := findBrace_eq_ok hfind
            have hrest : rest.length ≤ n := by omega
            obtain ⟨block, -, rfl, hblock⟩ := findBrace_split hfind
            obtain ⟨hbraced, hcount⟩ := braced_field rest hblock
            rw [ok_bind, exists_field, hbraced, hcount]
            cases m with
            | zero => simp
            | succ m =>
              simp only [Nat.add_right_cancel_iff]
              exact ih hrest
        · have hrest : sl.length ≤ n := by omega
          obtain ⟨hbraced, hcount⟩ := braced_lit [c] sl
            ((not_and_or.mp hmask).imp (fun hne h => hne (by simpa using h)) id)
            (by simp [opens, hopen])
          rw [List.singleton_append] at hbraced hcount
          rw [if_neg hopen, exists_lit, ih hrest, hbraced, hcount]

/-- A format without `%` is accepted exactly if every opening brace is closed before the next one,
there are as many opening braces as arguments and every argument has a type with a format. -/
theorem autoformat_accepts_iff (hpercent : ascii '%' ∉ sl) :
    (∃ g, autoformat sl tl = .ok g) ↔
      Braced sl ∧ openings sl = tl.length ∧ ∀ t ∈ tl, t ≠ .other := by
  simp only [autoformat, autoformatUpTo_eq_ok le_rfl hpercent]
  rw [← and_assoc, ← piecesUpTo_isOk (Nat.le_refl sl.length)]
  constructor
  · rintro ⟨g, ps, hps, hg⟩
    obtain ⟨hfields, htypes⟩ := generate_isOk.mp ⟨g, hg⟩
    exact ⟨⟨ps, hps, hfields⟩, htypes⟩
  · rintro ⟨⟨ps, hps, hfields⟩, htypes⟩
    obtain ⟨g, hg⟩ := generate_isOk.mpr ⟨hfields, htypes⟩
    exact ⟨g, ps, hps, hg⟩

/-- Two closed fields are accepted with two arguments, a nested brace is not. -/
theorem autoformat_accepts_line :
    (∃ g, autoformat (codes "\x7bs\x7d:\x7b\x7d\n") [.charPtr, .int] = .ok g) ∧
      ¬∃ g, autoformat (codes "a\x7b\x7bs\x7d") [.charPtr] = .ok g := by
  refine ⟨(autoformat_accepts_iff (by decide)).mpr ⟨?_, by decide, by decide⟩, ?_⟩
  · have hopen : ∀ i < 7, opens (codes "\x7bs\x7d:\x7b\x7d\n") i = true → i = 0 ∨ i = 4 := by
      decide
    intro i hi hbrace
    rcases hopen i hi hbrace with rfl | rfl
    · exact ⟨2, by decide, by decide, by decide, by decide⟩
    · exact ⟨5, by decide, by decide, by decide, by decide⟩
  · rw [autoformat_accepts_iff (by decide)]
    rintro ⟨hbraced, -⟩
    have hclose : ∀ j < 5, 1 < j → (codes "a\x7b\x7bs\x7d")[j]? = some (ascii '}') → j = 4 := by
      decide
    obtain ⟨j, hj, hpos, hbrace, hbetween⟩ := hbraced 1 (by decide) (by decide)
    have hlast := hclose j hj hpos hbrace
    exact hbetween 2 (by omega) (by decide) (by decide)

/-- Formats without braces and without `%%` are left as they are. Their types are not looked at,
and there may be fewer arguments than conversions. -/
theorem percent_unchecked (hbrace : ascii '{' ∉ sl)
    (hdouble : sl.IsChain fun a b => a = ascii '%' → b ≠ ascii '%') :
    autoformat sl tl =
      if tl.length ≤ sl.count (ascii '%') then .ok sl else .error .moreVars := by
  have hupto : ∀ n, sl.length ≤ n → autoformatUpTo n sl tl =
      if tl.length ≤ sl.count (ascii '%') then .ok sl else .error .moreVars := by
    intro n hn
    induction n generalizing sl tl with
    | zero =>
      obtain rfl := List.length_eq_zero_iff.mp (Nat.le_zero.mp hn)
      cases tl <;> simp [autoformatUpTo]
    | succ n ih =>
      cases sl with
      | nil => cases tl <;> simp [autoformatUpTo]
      | cons c sl =>
        rw [List.mem_cons, not_or] at hbrace
        obtain ⟨hnext, hrest⟩ := List.isChain_cons.mp hdouble
        have hhead : sl.head? ≠ some (ascii '{') := fun h => hbrace.2 (List.mem_of_head? h)
        have hstep (tl : List Ty) : autoformatUpTo n sl tl =
            if tl.length ≤ sl.count (ascii '%') then .ok sl else .error .moreVars :=
          ih hbrace.2 hrest (Nat.le_of_succ_le_succ hn)
        rw [autoformatUpTo]
        by_cases hc : c = ascii '%'
        · have hother : ¬sl.head? = some (ascii '%') := fun h => hnext _ h hc rfl
          rw [if_pos hc, if_neg hother, hstep, hc, List.count_cons_self, List.length_tail]
          by_cases hle : tl.length - 1 ≤ sl.count (ascii '%')
          · rw [if_pos hle, if_pos (by omega)]
            rfl
          · rw [if_neg hle, if_neg (by omega)]
            rfl
        · rw [if_neg hc, if_neg fun h => hhead h.2, if_neg (Ne.symm hbrace.1), hstep,
            List.count_cons_of_ne hc]
          by_cases hle : tl.length ≤ sl.count (ascii '%')
          · rw [if_pos hle, if_pos hle]
            rfl
          · rw [if_neg hle, if_neg hle]
            rfl
  exact hupto _ le_rfl

theorem percent_unchecked_missing :
    autoformat (codes "%s: %d\n") [.charPtr] = .ok (codes "%s: %d\n") :=
  percent_unchecked (by decide) (by decide)

end Translation

end Toyos.Printf
