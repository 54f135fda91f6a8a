import Toyos.Printf.Pprintf

/-!
# The meaning of formats with braces

A format with braces stands for its characters and, in place of each field, for
the value that belongs to it, converted as its type asks for. The translated format
makes `printf` print just that: every field takes its own argument in the size in
which it was passed.
-/

namespace Toyos.Printf

open Toyos.Core

/-- Values of the types that `printf` can print. Floating-point numbers are not among them:
`type2fmt` has formats for them, but `xvprintf` has no such conversion. -/
inductive Value
  | char (v : BitVec 8)
  | short (v : BitVec 16)
  | int (v : BitVec 32)
  | long (v : BitVec 64)
  | longLong (v : BitVec 64)
  | unsignedChar (v : BitVec 8)
  | unsignedShort (v : BitVec 16)
  | unsigned (v : BitVec 32)
  | unsignedLong (v : BitVec 64)
  | unsignedLongLong (v : BitVec 64)
  | bool (v : Bool)
  | nullptr
  /-- An address and the characters behind it. -/
  | charPtr (p : BitVec 64) (text : List UInt8)
  | ptr (p : BitVec 64)
  deriving DecidableEq, Repr

/-- The type of a value. -/
def Value.type : Value → Ty
  | char _ => .char
  | short _ => .short
  | int _ => .int
  | long _ => .long
  | longLong _ => .longLong
  | unsignedChar _ => .unsignedChar
  | unsignedShort _ => .unsignedShort
  | unsigned _ => .unsigned
  | unsignedLong _ => .unsignedLong
  | unsignedLongLong _ => .unsignedLongLong
  | bool _ => .bool
  | nullptr => .nullptr
  | charPtr _ _ => .charPtr
  | ptr _ => .ptr

/-- How a value is passed to `printf`; small integers are promoted. The callee takes a pointer to
characters as the string or as the address. -/
def Value.arg (str : Bool) : Value → Arg
  | char v => .int (v.signExtend 32)
  | short v => .int (v.signExtend 32)
  | int v => .int v
  | long v => .long v
  | longLong v => .longLong v
  | unsignedChar v => .int (v.setWidth 32)
  | unsignedShort v => .int (v.setWidth 32)
  | unsigned v => .int v
  | unsignedLong v => .long v
  | unsignedLongLong v => .longLong v
  | bool v => .int (if v then 1 else 0)
  | nullptr => .pointer 0
  | charPtr p text => if str then .string text else .pointer p
  | ptr p => .pointer p

/-- The conversions that fields become. -/
inductive FieldConv
  | c
  | d
  | u
  | x
  | p
  | s
  deriving DecidableEq, Repr

/-- The letter in the format. -/
def FieldConv.letter : FieldConv → UInt8
  | c => ascii 'c'
  | d => ascii 'd'
  | u => ascii 'u'
  | x => ascii 'x'
  | p => ascii 'p'
  | s => ascii 's'

/-- The size and the conversion of a value, which is hexadecimal or a string if the field says so
and the type allows it. -/
def Value.conv (hex str : Bool) : Value → Size × FieldConv
  | char _ => (.int, .c)
  | short _ | int _ | bool _ => (.int, if hex then .x else .d)
  | long _ => (.long, if hex then .x else .d)
  | longLong _ => (.longLong, if hex then .x else .d)
  | unsignedChar _ | unsignedShort _ | unsigned _ => (.int, if hex then .x else .u)
  | unsignedLong _ => (.long, if hex then .x else .u)
  | unsignedLongLong _ => (.longLong, if hex then .x else .u)
  | nullptr | ptr _ => (.int, .p)
  | charPtr _ _ => (.int, if str then .s else .p)

/-- What can stand in front of a conversion. -/
structure Flags where
  /-- Whether there is a `#`. -/
  sharp : Bool
  /-- The padding. -/
  flag : Flag
  /-- The digits of the width. -/
  width : List (Fin 10)
  /-- A width that begins with a zero is a flag and a width. -/
  head_ne_zero : flag = .none → width.head? ≠ some 0

namespace Flags

/-- The letters of the width and of the flags. -/
def letters (f : Flags) : List UInt8 :=
  (if f.sharp then [ascii '#'] else []) ++ (f.flag.letters ++ f.width.map IntFormat.widthLetter)

/-- The width. -/
def minWidth (f : Flags) : ℕ := Nat.ofDigits 10 (f.width.map Fin.val).reverse

end Flags

/-- A field with flags that `printf` understands. -/
structure Field where
  /-- What stands in the braces. -/
  block : List UInt8
  /-- The flags. -/
  flags : Flags
  /-- Besides the flags there are only the letters for hexadecimal numbers and strings. -/
  filtered : filteredFl block = flags.letters

namespace Field

/-- Whether numbers are hexadecimal. -/
def hex (f : Field) : Bool := f.block.contains (ascii 'x')

/-- Whether pointers to characters are strings. -/
def str (f : Field) : Bool := f.block.contains (ascii 's')

/-- What a field asks for, given its value. -/
def directive (f : Field) (v : Value) : Directive where
  sharp := f.flags.sharp
  f := f.flags.flag
  w := f.flags.minWidth % 2 ^ 32
  long := decide ((v.conv f.hex f.str).1 ≠ .int)
  longLong := decide ((v.conv f.hex f.str).1 = .longLong)
  c := (v.conv f.hex f.str).2.letter

end Field

/-- The parts of a format whose fields `printf` understands. -/
inductive Item
  /-- A character that is printed as it is. -/
  | lit (c : UInt8)
  /-- A field. -/
  | field (f : Field)

/-- The part of the format. -/
def Item.piece : Item → Piece
  | .lit c => .lit c
  | .field f => .field f.block

/-- The arguments that belong to the fields. -/
def args : List Item → List Value → List Arg
  | .lit _ :: is, vs => args is vs
  | .field f :: is, v :: vs => v.arg f.str :: args is vs
  | _, _ => []

section Meaning

variable {σ : Type} (emit : σ → UInt8 → σ)

/-- What a format with braces stands for: characters are printed as they are, and each field prints
its own value. -/
def perform : List Item → List Value → σ → Except Fault σ
  | .lit c :: is, vs, s => perform is vs (putcInternal emit s c)
  | .field f :: is, v :: vs, s => do
    let s := if f.flags.sharp then putsInternal emit s [ascii '0', ascii 'x'] else s
    let (_, s) ← execute emit (f.directive v) [v.arg f.str] s
    perform is vs s
  | _, _, s => .ok s

end Meaning

section Field

variable (size : Size) (conv : FieldConv) (rest : List UInt8)

/-- Neither a digit nor a flag begins what stands behind the width. -/
theorem conv_letters_eq : ∃ c tail, size.letters ++ conv.letter :: rest = c :: tail ∧
    isDigit c = false ∧ c ≠ ascii '#' ∧ c ≠ ascii '-' ∧ c ≠ ascii '0' := by
  cases size with
  | int => cases conv <;> exact ⟨_, _, rfl, by decide⟩
  | long => exact ⟨_, _, rfl, by decide⟩
  | longLong => exact ⟨_, _, rfl, by decide⟩

theorem parseLong_conv_first : parseLong (next (size.letters ++ conv.letter :: rest)) =
    (decide (size ≠ .int), next (size.letters.tail ++ conv.letter :: rest)) := by
  cases size with
  | int => cases conv <;> rfl
  | long => rfl
  | longLong => rfl

theorem parseLong_conv_second : parseLong (next (size.letters.tail ++ conv.letter :: rest)) =
    (decide (size = .longLong), conv.letter, rest) := by
  cases size with
  | int => cases conv <;> rfl
  | long => cases conv <;> rfl
  | longLong => rfl

variable (f : Flags)

/-- What stands behind the flag does not begin with a flag. -/
theorem width_letters_eq : ∃ c tail, f.width.map IntFormat.widthLetter ++
    (size.letters ++ conv.letter :: rest) = c :: tail ∧ c ≠ ascii '#' ∧ c ≠ ascii '-' ∧
      (f.flag = .none → c ≠ ascii '0') := by
  obtain ⟨sharp, flag, width, hhead⟩ := f
  cases width with
  | nil =>
    obtain ⟨c, tail, htail, -, hsharp, hminus, hzero⟩ := conv_letters_eq size conv rest
    exact ⟨c, tail, htail, hsharp, hminus, fun _ => hzero⟩
  | cons n ns =>
    have hletters : ∀ n, IntFormat.widthLetter n ≠ ascii '#' ∧
        IntFormat.widthLetter n ≠ ascii '-' ∧ (n ≠ 0 → IntFormat.widthLetter n ≠ ascii '0') := by
      decide
    obtain ⟨hsharp, hminus, hzero⟩ := hletters n
    refine ⟨_, _, rfl, hsharp, hminus, fun hflag => hzero ?_⟩
    rintro rfl
    exact hhead hflag rfl

/-- The directive that `printf` finds, and what is behind it. -/
theorem parse_letters : parse (f.letters ++ (size.letters ++ conv.letter :: rest)) =
    (⟨f.sharp, f.flag, f.minWidth % 2 ^ 32, decide (size ≠ .int), decide (size = .longLong),
      conv.letter⟩, rest) := by
  obtain ⟨c, tail, htail, hsharp, hminus, hzero⟩ := width_letters_eq size conv rest f
  have hfirst : parseSharp (next (f.letters ++ (size.letters ++ conv.letter :: rest))) =
      (f.sharp, next (f.flag.letters ++ (c :: tail))) := by
    rw [Flags.letters, List.append_assoc, List.append_assoc, htail]
    cases f.sharp with
    | true => rfl
    | false =>
      cases f.flag with
      | none => exact if_neg hsharp
      | zeroPadding => rfl
      | leftJustified => rfl
  have hflag : parseFlag (next (f.flag.letters ++ (c :: tail))) = (f.flag, next (c :: tail)) := by
    cases hf : f.flag with
    | none => exact (if_neg (hzero hf)).trans (if_neg hminus)
    | zeroPadding => rfl
    | leftJustified => rfl
  have hwidth : widthLoop 0 (next (c :: tail)).1 (next (c :: tail)).2 =
      (f.minWidth % 2 ^ 32, next (size.letters ++ conv.letter :: rest)) := by
    obtain ⟨c', tail', htail', hc', -⟩ := conv_letters_eq size conv rest
    rw [← htail, htail', widthLoop_digits f.width 0 hc', foldl_horner_mod (by decide)]
    rfl
  rw [parse, hfirst]
  dsimp only
  rw [hflag]
  dsimp only
  rw [hwidth]
  dsimp only
  rw [parseLong_conv_first]
  dsimp only
  rw [parseLong_conv_second]

end Field

/-- The conversion of a field and what stands in front of it. -/
theorem formatStr_eq (f : Field) (v : Value) : formatStr v.type f.block =
    .ok (f.flags.letters ++
      ((v.conv f.hex f.str).1.letters ++ [(v.conv f.hex f.str).2.letter])) := by
  rw [← f.filtered, Field.hex, Field.str]
  cases v <;> cases hx : f.block.contains (ascii 'x') <;>
    cases hs : f.block.contains (ascii 's') <;> simp only [formatStr, hx, hs] <;> rfl

section Preservation

variable {σ : Type} {emit : σ → UInt8 → σ}

/-- Taking an argument does not look at those behind it. -/
theorem argument_cons (d : Directive) (conv : Conversion) (a : Arg) (arp : List Arg) :
    argument d conv (a :: arp) = (argument d conv [a]).map fun r => (r.1, arp) := by
  unfold argument
  split_ifs <;> cases a <;> rfl

/-- A directive takes the argument in front, and no other. -/
theorem execute_cons {d : Directive} (hd : conversion d.c ≠ .unknown) (a : Arg) (arp : List Arg)
    (s : σ) : execute emit d (a :: arp) s =
      (execute emit d [a] s).map fun r => (arp, r.2) := by
  unfold execute
  cases hconv : conversion d.c with
  | unknown => exact absurd hconv hd
  | string =>
    cases a with
    | string p =>
      simp only [vaString, ok_bind]
      cases lengthLoop p <;> rfl
    | _ => rfl
  | character => cases a <;> rfl
  | _ =>
    dsimp only
    rw [argument_cons]
    cases argument d _ [a] <;> rfl

theorem conversion_letter_ne (conv : FieldConv) : conversion conv.letter ≠ .unknown := by
  cases conv <;> decide

theorem letter_ne_zero (conv : FieldConv) : conv.letter ≠ 0 := by
  cases conv <;> decide

/-- A character that is printed as it is. -/
theorem xvprintfInternal_lit {c : UInt8} (hpercent : c ≠ ascii '%') (hnul : c ≠ 0)
    (fmt : List UInt8) (arp : List Arg) (s : σ) :
    xvprintfInternal emit (c :: fmt) arp s =
      xvprintfInternal emit fmt arp (putcInternal emit s c) := by
  have hround : round emit (c :: fmt) arp s = .ok (some (fmt, arp), putcInternal emit s c) := by
    rw [round]
    dsimp only [next]
    rw [if_neg hnul, if_pos hpercent]
  rw [xvprintfInternal_eq, hround, ok_bind]

/-- A field prints its own value. -/
theorem xvprintfInternal_field (f : Field) (v : Value) {fmtStr : List UInt8}
    (hfmt : formatStr v.type f.block = .ok fmtStr) (fmt : List UInt8) (arp : List Arg) (s : σ) :
    xvprintfInternal emit (ascii '%' :: (fmtStr ++ fmt)) (v.arg f.str :: arp) s = (do
      let s := if f.flags.sharp then putsInternal emit s [ascii '0', ascii 'x'] else s
      let (_, s) ← execute emit (f.directive v) [v.arg f.str] s
      xvprintfInternal emit fmt arp s) := by
  obtain rfl := Except.ok.inj ((formatStr_eq f v).symm.trans hfmt)
  have hparse := parse_letters (v.conv f.hex f.str).1 (v.conv f.hex f.str).2 fmt f.flags
  rw [xvprintfInternal_eq, round_percent, directive]
  simp only [List.append_assoc, List.cons_append, List.nil_append] at hparse ⊢
  rw [hparse]
  dsimp only
  rw [if_neg (letter_ne_zero _), execute_cons (conversion_letter_ne _)]
  generalize (if f.flags.sharp = true then putsInternal emit s [ascii '0', ascii 'x'] else s) = s'
  change (Except.map _ (Except.map _ (execute emit (f.directive v) [v.arg f.str] s'))) >>= _ = _
  cases execute emit (f.directive v) [v.arg f.str] s' <;> rfl

/-- The translated parts print what the parts stand for. -/
theorem xvprintfInternal_generate {is : List Item} {vs : List Value} {g : List UInt8}
    (hlit : ∀ c, .lit c ∈ is → c ≠ ascii '%' ∧ c ≠ 0)
    (hg : generate (is.map Item.piece) (vs.map Value.type) = .ok g) (s : σ) :
    xvprintfInternal emit g (args is vs) s = perform emit is vs s := by
  induction is generalizing vs g s with
  | nil =>
    cases vs with
    | nil =>
      obtain rfl := Except.ok.inj hg
      exact xvprintfInternal_nil
    | cons v vs => cases hg
  | cons i is ih =>
    have hlit' : ∀ c, Item.lit c ∈ is → c ≠ ascii '%' ∧ c ≠ 0 := fun c hc =>
      hlit c (List.mem_cons_of_mem _ hc)
    cases i with
    | lit c =>
      obtain ⟨g', hg', hcons⟩ := bind_eq_ok.mp hg
      obtain rfl := Except.ok.inj hcons
      obtain ⟨hpercent, hnul⟩ := hlit c List.mem_cons_self
      rw [xvprintfInternal_lit hpercent hnul]
      exact ih hlit' hg' _
    | field f =>
      cases vs with
      | nil => cases hg
      | cons v vs =>
        obtain ⟨fmtStr, hfmt, hrest⟩ := bind_eq_ok.mp hg
        obtain ⟨g', hg', hcons⟩ := bind_eq_ok.mp hrest
        obtain rfl := Except.ok.inj hcons
        refine (xvprintfInternal_field f v hfmt g' _ s).trans ?_
        simp only [ih hlit' hg', perform]

theorem not_mem_piecesUpTo {sl : List UInt8} {n : ℕ} {ps : List Piece} {c : UInt8}
    (hc : c ∉ sl) (hbrace : c ≠ ascii '{') (hps : piecesUpTo n sl = .ok ps) : .lit c ∉ ps := by
  induction n generalizing sl ps with
  | zero =>
    cases sl with
    | nil =>
      obtain rfl := Except.ok.inj hps
      exact List.not_mem_nil
    | cons c' sl => cases hps
  | succ n ih =>
    cases sl with
    | nil =>
      obtain rfl := Except.ok.inj hps
      exact List.not_mem_nil
    | cons c' sl =>
      rw [List.mem_cons, not_or] at hc
      rw [piecesUpTo] at hps
      split_ifs at hps
      · obtain ⟨ps', hps', hcons⟩ := bind_eq_ok.mp hps
        obtain rfl := Except.ok.inj hcons
        have := ih (fun h => hc.2 (List.mem_of_mem_tail h)) hps'
        simp [this, hbrace]
      · obtain ⟨⟨block, rest⟩, hfind, hrest⟩ := bind_eq_ok.mp hps
        obtain ⟨ps', hps', hcons⟩ := bind_eq_ok.mp hrest
        obtain rfl := Except.ok.inj hcons
        have := ih (fun h => hc.2 ((findBrace_eq_ok hfind).2 c h)) hps'
        simp [this]
      · obtain ⟨ps', hps', hcons⟩ := bind_eq_ok.mp hps
        obtain rfl := Except.ok.inj hcons
        have := ih hc.2 hps'
        simp [this, hc.1]

/-- No flags. -/
def Flags.plain : Flags := ⟨false, .none, [], head?_nil_ne_zero .none⟩

/-- The format of a message: a string, a number and a hexadecimal number. -/
def messageItems : List Item :=
  [.field ⟨codes "s", .plain, by decide⟩, .lit (ascii ':'), .field ⟨[], .plain, by decide⟩,
    .lit (ascii ' '), .field ⟨codes "#x", ⟨true, .none, [], head?_nil_ne_zero .none⟩, by decide⟩,
    .lit (ascii '\n')]

/-- The values of a message. -/
def messageValues : List Value :=
  [.charPtr 0x1000 (codes "main.cpp"), .int 42, .unsignedLong 0xfee00000]

end Preservation

end Toyos.Printf
