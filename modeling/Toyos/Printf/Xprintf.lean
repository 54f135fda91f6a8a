import Toyos.Core.Checked
import Mathlib.Algebra.Group.Nat.Defs
import Mathlib.Data.List.TakeWhile

/-!
# Formatted output

The interpreter of format strings hands characters to an output, which is the place
behind an output pointer or the console. It is written for any output. Nothing it
does depends on the output, so that all outputs get the same characters.
-/

namespace Toyos.Printf

open Toyos.Core

/-- Reasons for stopping. -/
inductive Fault where
  /-- An argument that is missing or of another type than the format asks for. -/
  | mismatch
  /-- A string whose length is no `unsigned int`, so that its end is not found. -/
  | endless
  /-- A trap in front of the output. -/
  | trap
  deriving DecidableEq, Repr

/-- The code of a character. -/
def ascii (c : Char) : UInt8 := UInt8.ofNat c.toNat

/-- Arguments by their types. -/
inductive Arg where
  /-- `int` or `unsigned int`. -/
  | int (v : BitVec 32)
  /-- `long` or `unsigned long`. -/
  | long (v : BitVec 64)
  /-- `long long` or `unsigned long long`. -/
  | longLong (v : BitVec 64)
  /-- `uintptr_t`. -/
  | pointer (v : BitVec 64)
  /-- `char*`, with the characters behind it. -/
  | string (p : List UInt8)
  deriving DecidableEq, Repr

/-- The flags for padding. -/
inductive Flag where
  /-- Spaces in front. -/
  | none
  /-- `FLAG_ZERO_PADDING`. -/
  | zeroPadding
  /-- `FLAG_LEFT_JUSTIFIED`. -/
  | leftJustified
  deriving DecidableEq, Repr

/-- What stands between `%` and the end of a conversion. -/
structure Directive where
  /-- Whether there is a `#`. -/
  sharp : Bool
  /-- The padding. -/
  f : Flag
  /-- The width. -/
  w : ℕ
  /-- `FLAG_SIZE_LONG`. -/
  long : Bool
  /-- `FLAG_SIZE_LONG_LONG`. -/
  longLong : Bool
  /-- The conversion; zero at the end of the format. -/
  c : UInt8
  deriving DecidableEq, Repr

/-- A place in a format: the current character, which is zero at the end, and the rest. -/
abbrev Cursor := UInt8 × List UInt8

/-- The next character of a format. -/
def next : List UInt8 → Cursor
  | [] => (0, [])
  | c :: fmt => (c, fmt)

/-- Skip a `#`. -/
def parseSharp (p : Cursor) : Bool × Cursor :=
  if p.1 = ascii '#' then (true, next p.2) else (false, p)

/-- Skip the flag for the padding. -/
def parseFlag (p : Cursor) : Flag × Cursor :=
  if p.1 = ascii '0' then (.zeroPadding, next p.2)
  else if p.1 = ascii '-' then (.leftJustified, next p.2)
  else (.none, p)

/-- Whether a character is a decimal digit. -/
def isDigit (c : UInt8) : Bool := ascii '0' ≤ c && c ≤ ascii '9'

/-- The width with one more digit. -/
def widthStep (w : ℕ) (c : UInt8) : ℕ := (w * 10 + c.toNat - (ascii '0').toNat) % 2 ^ 32

/-- The loop over the digits of the width. -/
def widthLoop (w : ℕ) (c : UInt8) : List UInt8 → ℕ × Cursor
  | [] => if isDigit c then (widthStep w c, next []) else (w, c, [])
  | c' :: fmt => if isDigit c then widthLoop (widthStep w c) c' fmt else (w, c, c' :: fmt)

/-- Skip an `l`. -/
def parseLong (p : Cursor) : Bool × Cursor :=
  if p.1 = ascii 'l' ∨ p.1 = ascii 'L' then (true, next p.2) else (false, p)

/-- The directive at the begin of a format, and the rest of the format. -/
def parse (fmt : List UInt8) : Directive × List UInt8 :=
  let (sharp, p) := parseSharp (next fmt)
  let (f, p) := parseFlag p
  let (w, p) := widthLoop 0 p.1 p.2
  let (long, p) := parseLong p
  let (longLong, p) := parseLong p
  (⟨sharp, f, w, long, longLong, p.1⟩, p.2)

/-- The types of conversions. -/
inductive Conversion where
  | string
  | character
  | binary
  | octal
  | decimal
  | unsigned
  | pointer
  | hexadecimal
  | unknown
  deriving DecidableEq, Repr

/-- A character as the switch over the conversions sees it; characters are signed. -/
def upper (c : UInt8) : UInt8 := if ascii 'a' ≤ c ∧ c < 0x80 then c - 0x20 else c

/-- The switch over the conversions. -/
def conversion (c : UInt8) : Conversion :=
  let d := upper c
  if d = ascii 'S' then .string
  else if d = ascii 'C' then .character
  else if d = ascii 'B' then .binary
  else if d = ascii 'O' then .octal
  else if d = ascii 'D' then .decimal
  else if d = ascii 'U' then .unsigned
  else if d = ascii 'P' then .pointer
  else if d = ascii 'X' then .hexadecimal
  else .unknown

/-- The base of a numeral. -/
def Conversion.radix : Conversion → ℕ
  | .binary => 2
  | .octal => 8
  | .decimal => 10
  | .unsigned => 10
  | _ => 16

/-- `va_arg(arp, int)` and `va_arg(arp, unsigned int)`. -/
def vaInt : List Arg → Except Fault (BitVec 32 × List Arg)
  | .int v :: arp => .ok (v, arp)
  | _ => .error .mismatch

/-- `va_arg(arp, long)`. -/
def vaLong : List Arg → Except Fault (BitVec 64 × List Arg)
  | .long v :: arp => .ok (v, arp)
  | _ => .error .mismatch

/-- `va_arg(arp, long long)`. -/
def vaLongLong : List Arg → Except Fault (BitVec 64 × List Arg)
  | .longLong v :: arp => .ok (v, arp)
  | _ => .error .mismatch

/-- `va_arg(arp, uintptr_t)`. -/
def vaPointer : List Arg → Except Fault (BitVec 64 × List Arg)
  | .pointer v :: arp => .ok (v, arp)
  | _ => .error .mismatch

/-- `va_arg(arp, char*)`. -/
def vaString : List Arg → Except Fault (List UInt8 × List Arg)
  | .string p :: arp => .ok (p, arp)
  | _ => .error .mismatch

/-- The length of a string, counted in an `unsigned int`. -/
def lengthLoop (p : List UInt8) : Except Fault ℕ := do
  let j := (p.takeWhile (· ≠ 0)).length
  ensure (j < 2 ^ 32) Fault.endless
  return j

/-- The number to print, as 64 bits, and the arguments that are left. -/
def argument (d : Directive) (conv : Conversion) (arp : List Arg) :
    Except Fault (BitVec 64 × List Arg) :=
  if conv = .pointer then vaPointer arp
  else if d.longLong then vaLongLong arp
  else if d.long then vaLong arp
  else (vaInt arp).map fun (v, arp) =>
    (if conv = .decimal then v.signExtend 64 else v.setWidth 64, arp)

/-- The character for a digit. -/
def digitChar (c : UInt8) (d : ℕ) : UInt8 :=
  let d := if d > 9 then d + (if c = ascii 'x' then 0x27 else 0x07) else d
  UInt8.ofNat d + ascii '0'

/-- The loop over the digits, from the last one on, with the room that is left for them. -/
def digitLoop (c : UInt8) (r : ℕ) : (room : ℕ) → (v : ℕ) → List UInt8
  | 0, _ => []
  | room + 1, v => digitChar c (v % r) :: if v / r ≠ 0 then digitLoop c r room (v / r) else []

/-- The characters of a number, from the last one on. -/
def numeral (c : UInt8) (conv : Conversion) (v : BitVec 64) : List UInt8 :=
  if conv = .decimal ∧ v.msb then digitLoop c conv.radix 32 (0 - v).toNat ++ [ascii '-']
  else digitLoop c conv.radix 32 v.toNat

section Output

variable {σ : Type} (emit : σ → UInt8 → σ)

/-- Put a character; a line feed comes with a carriage return. -/
def putcInternal (s : σ) (c : UInt8) : σ :=
  emit (if c = ascii '\n' then emit s (ascii '\r') else s) c

/-- Put the characters of a string up to its end. -/
def putsInternal (s : σ) : List UInt8 → σ
  | [] => s
  | c :: str => if c = 0 then s else putsInternal (putcInternal emit s c) str

/-- `while (j++ < w)` with a body, and the counter behind it. -/
def padLoop (body : σ → σ) (w : ℕ) : (rounds : ℕ) → (j : ℕ) → σ → ℕ × σ
  | 0, j, s => ((j + 1) % 2 ^ 32, s)
  | rounds + 1, j, s =>
    if j < w then padLoop body w rounds (j + 1) (body s) else ((j + 1) % 2 ^ 32, s)

/-- Put a character until a counter has reached the width; there are `w - j` rounds. -/
def pad (c : UInt8) (w j : ℕ) (s : σ) : ℕ × σ :=
  padLoop (fun s => putcInternal emit s c) w (w - j) j s

/-- Put characters with padding around them. -/
def putPadded (f : Flag) (w : ℕ) (c : UInt8) (j : ℕ) (body : σ → σ) (s : σ) : σ :=
  let (j, s) := if f ≠ .leftJustified then pad emit c w j s else (j, s)
  (pad emit (ascii ' ') w j (body s)).2

/-- Put a number. -/
def putNumber (d : Directive) (conv : Conversion) (v : BitVec 64) (s : σ) : σ :=
  let chars := numeral d.c conv v
  let c := if d.f = .zeroPadding then ascii '0' else ascii ' '
  putPadded emit d.f d.w c chars.length (fun s => chars.reverse.foldl (putcInternal emit) s) s

/-- What a directive does, and the arguments that are left. -/
def execute (d : Directive) (arp : List Arg) (s : σ) : Except Fault (List Arg × σ) :=
  match conversion d.c with
  | .string => do
    let (p, arp) ← vaString arp
    let j ← lengthLoop p
    return (arp, putPadded emit d.f d.w (ascii ' ') j (fun s => putsInternal emit s p) s)
  | .character => do
    let (v, arp) ← vaInt arp
    return (arp, putcInternal emit s (UInt8.ofNat v.toNat))
  | .unknown => return (arp, putcInternal emit s d.c)
  | conv => do
    let s := if conv = .pointer then putsInternal emit s [ascii '0', ascii 'x'] else s
    let (v, arp) ← argument d conv arp
    return (arp, putNumber emit d conv v s)

/-- What follows a `%`, up to the end of the directive or of the format. -/
def directive (fmt : List UInt8) (arp : List Arg) (s : σ) :
    Except Fault (Option (List UInt8 × List Arg) × σ) :=
  let d := (parse fmt).1
  let s := if d.sharp then putsInternal emit s [ascii '0', ascii 'x'] else s
  if d.c = 0 then .ok (none, s)
  else (execute emit d arp s).map fun (arp, s) => (some ((parse fmt).2, arp), s)

/-- One round of the interpreter; without a format to go on with, it is the last one. -/
def round (fmt : List UInt8) (arp : List Arg) (s : σ) :
    Except Fault (Option (List UInt8 × List Arg) × σ) :=
  let (c, fmt) := next fmt
  if c = 0 then .ok (none, s)
  else if c ≠ ascii '%' then .ok (some (fmt, arp), putcInternal emit s c)
  else directive emit fmt arp s

/-- A number of rounds. -/
def rounds : (n : ℕ) → List UInt8 → List Arg → σ → Except Fault σ
  | 0, _, _, s => .ok s
  | n + 1, fmt, arp, s => do
    match ← round emit fmt arp s with
    | (none, s) => return s
    | (some (fmt, arp), s) => rounds n fmt arp s

/-- The interpreter. Every round takes a character of the format, so that there are no more rounds
than characters. -/
def xvprintfInternal (fmt : List UInt8) (arp : List Arg) (s : σ) : Except Fault σ :=
  rounds emit fmt.length fmt arp s

end Output

section Rounds

variable {σ : Type} {emit : σ → UInt8 → σ} {fmt fmt' : List UInt8} {arp arp' : List Arg} {s s' : σ}

theorem length_next_le (fmt : List UInt8) : (next fmt).2.length ≤ fmt.length := by
  cases fmt with
  | nil => exact Nat.le_refl _
  | cons c fmt => exact Nat.le_succ _

theorem length_parseSharp_le (p : Cursor) : (parseSharp p).2.2.length ≤ p.2.length := by
  rw [parseSharp]
  split_ifs
  · exact length_next_le _
  · exact Nat.le_refl _

theorem length_parseFlag_le (p : Cursor) : (parseFlag p).2.2.length ≤ p.2.length := by
  rw [parseFlag]
  split_ifs
  · exact length_next_le _
  · exact length_next_le _
  · exact Nat.le_refl _

theorem length_widthLoop_le (w : ℕ) (c : UInt8) (fmt : List UInt8) :
    (widthLoop w c fmt).2.2.length ≤ fmt.length := by
  induction fmt generalizing w c with
  | nil =>
    rw [widthLoop]
    split_ifs
    · exact Nat.le_refl _
    · exact Nat.le_refl _
  | cons c' fmt ih =>
    rw [widthLoop]
    split_ifs
    · exact (ih _ _).trans (Nat.le_succ _)
    · exact Nat.le_refl _

theorem length_parseLong_le (p : Cursor) : (parseLong p).2.2.length ≤ p.2.length := by
  rw [parseLong]
  split_ifs
  · exact length_next_le _
  · exact Nat.le_refl _

theorem length_parse_le (fmt : List UInt8) : (parse fmt).2.length ≤ fmt.length := by
  rw [parse]
  dsimp only
  refine (length_parseLong_le _).trans <| (length_parseLong_le _).trans ?_
  refine (length_widthLoop_le _ _ _).trans <| (length_parseFlag_le _).trans ?_
  exact (length_parseSharp_le _).trans (length_next_le fmt)

theorem directive_fmt (h : directive emit fmt arp s = .ok (some (fmt', arp'), s')) :
    fmt' = (parse fmt).2 := by
  rw [directive] at h
  by_cases hstop : (parse fmt).1.c = 0
  · rw [if_pos hstop] at h
    simp at h
  · rw [if_neg hstop] at h
    obtain ⟨res, -, hres⟩ := map_eq_ok.mp h
    simp only [Prod.mk.injEq, Option.some.injEq] at hres
    exact hres.1.1

/-- A round that is not the last one takes a character of the format. -/
theorem length_lt_of_round (h : round emit fmt arp s = .ok (some (fmt', arp'), s')) :
    fmt'.length < fmt.length := by
  cases fmt with
  | nil => cases h
  | cons c fmt =>
    rw [round] at h
    dsimp only [next] at h
    by_cases hend : c = 0
    · rw [if_pos hend] at h
      cases h
    · rw [if_neg hend] at h
      by_cases hplain : c ≠ ascii '%'
      · rw [if_pos hplain] at h
        cases h
        exact Nat.lt_succ_self _
      · rw [if_neg hplain] at h
        rw [directive_fmt h]
        exact Nat.lt_succ_of_le (length_parse_le fmt)

/-- A `%` begins a directive. -/
theorem round_percent : round emit (ascii '%' :: fmt) arp s = directive emit fmt arp s := by
  rw [round]
  dsimp only [next]
  rw [if_neg (by decide), if_neg (by decide)]

theorem rounds_nil (n : ℕ) (arp : List Arg) (s : σ) : rounds emit n [] arp s = .ok s := by
  cases n with
  | zero => rfl
  | succ n => rfl

/-- More rounds than characters make no difference. -/
theorem rounds_of_length_le {n : ℕ} (h : fmt.length ≤ n) :
    rounds emit n fmt arp s = xvprintfInternal emit fmt arp s := by
  induction n using Nat.strong_induction_on generalizing fmt arp s with
  | _ n ih =>
    cases fmt with
    | nil => rw [rounds_nil, xvprintfInternal, rounds_nil]
    | cons c fmt =>
      obtain ⟨n, rfl⟩ : ∃ k, n = k + 1 := ⟨n - 1, by rw [List.length_cons] at h; omega⟩
      rw [xvprintfInternal, List.length_cons, rounds, rounds]
      cases hround : round emit (c :: fmt) arp s with
      | error e => rfl
      | ok res =>
        obtain ⟨cont, s'⟩ := res
        cases cont with
        | none => rfl
        | some cont =>
          obtain ⟨fmt', arp'⟩ := cont
          have hlt := length_lt_of_round hround
          rw [List.length_cons] at h hlt
          simp only [ok_bind]
          rw [ih n (by omega) (by omega)]
          rcases Nat.lt_or_ge fmt.length (n + 1) with hless | hge
          · rw [ih fmt.length hless (by omega)]
          · omega

/-- The loop of the interpreter. -/
theorem xvprintfInternal_eq : xvprintfInternal emit fmt arp s = (do
    match ← round emit fmt arp s with
    | (none, s) => return s
    | (some (fmt, arp), s) => xvprintfInternal emit fmt arp s) := by
  rw [← rounds_of_length_le (Nat.le_succ fmt.length), rounds]
  cases hround : round emit fmt arp s with
  | error e => rfl
  | ok res =>
    obtain ⟨cont, s'⟩ := res
    cases cont with
    | none => rfl
    | some cont =>
      obtain ⟨fmt', arp'⟩ := cont
      exact rounds_of_length_le (length_lt_of_round hround).le

theorem xvprintfInternal_nil : xvprintfInternal emit [] arp s = .ok s := rounds_nil 0 arp s

end Rounds

section Homomorphism

variable {σ τ : Type} {emit : σ → UInt8 → σ} {emit' : τ → UInt8 → τ} {h : σ → τ}

theorem map_padLoop {body : σ → σ} {body' : τ → τ} (hbody : ∀ s, h (body s) = body' (h s))
    (w n j : ℕ) (s : σ) :
    padLoop body' w n j (h s) = (padLoop body w n j s).map id h := by
  induction n generalizing j s with
  | zero => rfl
  | succ n ih =>
    rw [padLoop, padLoop]
    split_ifs
    · rw [← hbody, ih]
    · rfl

variable (hemit : ∀ s c, h (emit s c) = emit' (h s) c)

include hemit

theorem map_putcInternal (s : σ) (c : UInt8) :
    h (putcInternal emit s c) = putcInternal emit' (h s) c := by
  rw [putcInternal, putcInternal, hemit]
  split_ifs
  · rw [hemit]
  · rfl

theorem map_putsInternal (s : σ) (str : List UInt8) :
    h (putsInternal emit s str) = putsInternal emit' (h s) str := by
  induction str generalizing s with
  | nil => rfl
  | cons c str ih =>
    rw [putsInternal, putsInternal]
    split_ifs
    · rfl
    · rw [ih, map_putcInternal hemit]

theorem map_pad (c : UInt8) (w j : ℕ) (s : σ) :
    pad emit' c w j (h s) = (pad emit c w j s).map id h :=
  map_padLoop (fun s => map_putcInternal hemit s c) w (w - j) j s

theorem map_putPadded {body : σ → σ} {body' : τ → τ} (hbody : ∀ s, h (body s) = body' (h s))
    (f : Flag) (w : ℕ) (c : UInt8) (j : ℕ) (s : σ) :
    h (putPadded emit f w c j body s) = putPadded emit' f w c j body' (h s) := by
  rw [putPadded, putPadded]
  split_ifs
  · rw [map_pad hemit]
    dsimp only [Prod.map]
    rw [← hbody, map_pad hemit]
    rfl
  · dsimp only
    rw [← hbody, map_pad hemit]
    rfl

theorem map_putNumber (d : Directive) (conv : Conversion) (v : BitVec 64) (s : σ) :
    h (putNumber emit d conv v s) = putNumber emit' d conv v (h s) := by
  rw [putNumber, putNumber]
  refine map_putPadded hemit (fun s => ?_) _ _ _ _ s
  exact (List.foldl_hom h fun s c => (map_putcInternal hemit s c).symm).symm

theorem map_sharp (b : Prop) [Decidable b] (s : σ) :
    h (if b then putsInternal emit s [ascii '0', ascii 'x'] else s) =
      if b then putsInternal emit' (h s) [ascii '0', ascii 'x'] else h s := by
  split_ifs
  · exact map_putsInternal hemit s _
  · rfl

theorem map_execute (d : Directive) (arp : List Arg) (s : σ) :
    execute emit' d arp (h s) = (execute emit d arp s).map (Prod.map id h) := by
  rw [execute, execute]
  split
  · cases vaString arp with
    | error e => rfl
    | ok res =>
      obtain ⟨p, arp⟩ := res
      simp only [ok_bind]
      cases lengthLoop p with
      | error e => rfl
      | ok j =>
        simp only [ok_bind]
        rw [← map_putPadded hemit fun s => map_putsInternal hemit s p]
        rfl
  · cases vaInt arp with
    | error e => rfl
    | ok res =>
      simp only [ok_bind]
      rw [← map_putcInternal hemit]
      rfl
  · rw [← map_putcInternal hemit]
    rfl
  · rw [← map_sharp hemit]
    cases argument d (conversion d.c) arp with
    | error e => rfl
    | ok res =>
      simp only [ok_bind]
      rw [← map_putNumber hemit]
      rfl

theorem map_directive (fmt : List UInt8) (arp : List Arg) (s : σ) :
    directive emit' fmt arp (h s) = (directive emit fmt arp s).map (Prod.map id h) := by
  rw [directive, directive, ← map_sharp hemit, map_execute hemit]
  by_cases hstop : (parse fmt).1.c = 0
  · rw [if_pos hstop, if_pos hstop]
    rfl
  · rw [if_neg hstop, if_neg hstop]
    cases execute emit (parse fmt).1 arp _ with
    | error e => rfl
    | ok res => rfl

theorem map_round (fmt : List UInt8) (arp : List Arg) (s : σ) :
    round emit' fmt arp (h s) = (round emit fmt arp s).map (Prod.map id h) := by
  rw [round, round]
  dsimp only
  split_ifs
  · rfl
  · rw [← map_putcInternal hemit]
    rfl
  · exact map_directive hemit _ arp s

theorem map_rounds (n : ℕ) (fmt : List UInt8) (arp : List Arg) (s : σ) :
    rounds emit' n fmt arp (h s) = (rounds emit n fmt arp s).map h := by
  induction n generalizing fmt arp s with
  | zero => rfl
  | succ n ih =>
    rw [rounds, rounds, map_round hemit]
    cases round emit fmt arp s with
    | error e => rfl
    | ok res =>
      obtain ⟨cont, s'⟩ := res
      cases cont with
      | none => rfl
      | some cont => exact ih cont.1 cont.2 s'

end Homomorphism

/-- An output that collects the characters. -/
def append (text : List UInt8) (c : UInt8) : List UInt8 := text ++ [c]

/-- The characters that a format and its arguments stand for. -/
def output (fmt : List UInt8) (arp : List Arg) : Except Fault (List UInt8) :=
  xvprintfInternal append fmt arp []

/-- Every output gets the same characters, one after the other. -/
theorem xvprintfInternal_eq_output {σ : Type} (emit : σ → UInt8 → σ) (fmt : List UInt8)
    (arp : List Arg) (s : σ) :
    xvprintfInternal emit fmt arp s = (output fmt arp).map fun text => text.foldl emit s := by
  have hemit : ∀ (text : List UInt8) (c : UInt8),
      (append text c).foldl emit s = emit (text.foldl emit s) c := fun text c => by
    rw [append, List.foldl_append, List.foldl_cons, List.foldl_nil]
  exact map_rounds (h := fun text => text.foldl emit s) hemit fmt.length fmt arp []

end Toyos.Printf
