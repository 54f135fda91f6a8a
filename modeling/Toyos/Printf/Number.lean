import Toyos.Core.Numeral
import Toyos.Printf.Xprintf

/-!
# Conversions of integers

The text of an integer is compared with its representation in the base of the
conversion. There are three differences. There is room for 32 digits, which binary
numbers can exceed; zeros for padding stand in front of the sign; and the width and
the counter for the padding are 32-bit numbers that wrap.
-/

namespace Toyos.Printf

open Toyos.Core

/-- The conversions for integers. -/
inductive IntConversion where
  /-- Binary. -/
  | b
  /-- Octal. -/
  | o
  /-- Signed decimal. -/
  | d
  /-- Unsigned decimal. -/
  | u
  /-- Hexadecimal with small letters. -/
  | x
  /-- Hexadecimal with capital letters. -/
  | X
  deriving DecidableEq, Repr

namespace IntConversion

/-- The letter in the format. -/
def letter : IntConversion → UInt8
  | b => ascii 'b'
  | o => ascii 'o'
  | d => ascii 'd'
  | u => ascii 'u'
  | x => ascii 'x'
  | X => ascii 'X'

/-- The base of the representation. -/
def base : IntConversion → ℕ
  | b => 2
  | o => 8
  | d => 10
  | u => 10
  | x => 16
  | X => 16

/-- The character of a digit. -/
def digit (conv : IntConversion) (n : ℕ) : UInt8 :=
  ascii (if conv = X then (Nat.digitChar n).toUpper else Nat.digitChar n)

end IntConversion

/-- The sizes of integers. -/
inductive Size where
  /-- `int`. -/
  | int
  /-- `long`. -/
  | long
  /-- `long long`. -/
  | longLong
  deriving DecidableEq, Repr

namespace Size

/-- The number of bits. -/
def bits : Size → ℕ
  | int => 32
  | long => 64
  | longLong => 64

/-- The letters in the format. -/
def letters : Size → List UInt8
  | int => []
  | long => [ascii 'l']
  | longLong => [ascii 'l', ascii 'l']

/-- An argument of a size. -/
def arg : (size : Size) → BitVec size.bits → Arg
  | int, v => .int v
  | long, v => .long v
  | longLong, v => .longLong v

end Size

/-- The letter of a flag in the format. -/
def Flag.letters : Flag → List UInt8
  | none => []
  | zeroPadding => [ascii '0']
  | leftJustified => [ascii '-']

/-- The conversion of an integer. -/
structure IntFormat where
  /-- The padding. -/
  flag : Flag
  /-- The digits of the width. -/
  width : List (Fin 10)
  /-- The size of the argument. -/
  size : Size
  /-- The conversion. -/
  conv : IntConversion
  /-- A width that begins with a zero is a flag and a width. -/
  head_ne_zero : flag = .none → width.head? ≠ some 0

namespace IntFormat

/-- The letter of a digit of the width. -/
def widthLetter (n : Fin 10) : UInt8 := ascii (Nat.digitChar n)

/-- What stands behind the flag. -/
def rest (f : IntFormat) : List UInt8 :=
  f.width.map widthLetter ++ (f.size.letters ++ [f.conv.letter])

/-- The format. -/
def fmt (f : IntFormat) : List UInt8 := ascii '%' :: (f.flag.letters ++ f.rest)

/-- The width. -/
def minWidth (f : IntFormat) : ℕ := Nat.ofDigits 10 (f.width.map Fin.val).reverse

variable (f : IntFormat) (v : BitVec f.size.bits)

/-- The number that an argument stands for. -/
def value : ℤ := if f.conv = .d then v.toInt else v.toNat

/-- The sign of a number. -/
def sign : List UInt8 := if f.value v < 0 then [ascii '-'] else []

/-- The digits of a number. -/
def digits : List UInt8 := (representation f.conv.base (f.value v).natAbs).map f.conv.digit

/-- The significant characters of a number. -/
def significant : List UInt8 := f.sign v ++ f.digits v

/-- A text is the number, with spaces in front of it or behind it or with zeros between the sign and
the digits, as many as the width asks for. -/
def Prints (text : List UInt8) : Prop :=
  text.length = max f.minWidth (f.significant v).length ∧
    ∃ k, text = List.replicate k (ascii ' ') ++ f.significant v ∨
      text = f.significant v ++ List.replicate k (ascii ' ') ∨
      text = f.sign v ++ List.replicate k (ascii '0') ++ f.digits v

end IntFormat

section Parse

theorem widthStep_widthLetter (w : ℕ) (n : Fin 10) :
    widthStep w (IntFormat.widthLetter n) = (w * 10 + n) % 2 ^ 32 := by
  have hnat : (IntFormat.widthLetter n).toNat = (ascii '0').toNat + n := by
    revert n
    decide
  rw [widthStep, hnat, Nat.add_left_comm, Nat.add_sub_cancel_left]

theorem isDigit_widthLetter (n : Fin 10) : isDigit (IntFormat.widthLetter n) = true := by
  revert n
  decide

theorem widthLoop_digit {c : UInt8} (hc : isDigit c = true) (w : ℕ) (fmt : List UInt8) :
    widthLoop w c fmt = widthLoop (widthStep w c) (next fmt).1 (next fmt).2 := by
  cases fmt with
  | nil =>
    rw [widthLoop, if_pos hc]
    rfl
  | cons c' fmt =>
    rw [widthLoop, if_pos hc]
    rfl

theorem widthLoop_other {c : UInt8} (hc : isDigit c = false) (w : ℕ) (fmt : List UInt8) :
    widthLoop w c fmt = (w, c, fmt) := by
  cases fmt with
  | nil => rw [widthLoop, hc, if_neg Bool.false_ne_true]
  | cons c' fmt => rw [widthLoop, hc, if_neg Bool.false_ne_true]

/-- The digits of a width are read up to the first other character. -/
theorem widthLoop_digits (ns : List (Fin 10)) (w : ℕ) {c : UInt8} (hc : isDigit c = false)
    (rest : List UInt8) :
    widthLoop w (next (ns.map IntFormat.widthLetter ++ c :: rest)).1
        (next (ns.map IntFormat.widthLetter ++ c :: rest)).2 =
      ((ns.map Fin.val).foldl (fun w n => (w * 10 + n) % 2 ^ 32) w, c, rest) := by
  induction ns generalizing w with
  | nil => exact widthLoop_other hc w rest
  | cons n ns ih =>
    rw [List.map_cons, List.cons_append, next, widthLoop_digit (isDigit_widthLetter n),
      widthStep_widthLetter, ih, List.map_cons, List.foldl_cons]

section Tail

variable (size : Size) (conv : IntConversion)

/-- Neither a digit nor a flag begins what stands behind the width. -/
theorem size_letters_eq : ∃ c rest, size.letters ++ [conv.letter] = c :: rest ∧
    isDigit c = false ∧ c ≠ ascii '#' ∧ c ≠ ascii '-' := by
  cases size with
  | int => cases conv <;> exact ⟨_, _, rfl, by decide⟩
  | long => exact ⟨_, _, rfl, by decide⟩
  | longLong => exact ⟨_, _, rfl, by decide⟩

theorem parseLong_first : parseLong (next (size.letters ++ [conv.letter])) =
    (decide (size ≠ .int), next (size.letters.tail ++ [conv.letter])) := by
  cases size with
  | int => cases conv <;> rfl
  | long => rfl
  | longLong => rfl

theorem parseLong_second : parseLong (next (size.letters.tail ++ [conv.letter])) =
    (decide (size = .longLong), conv.letter, []) := by
  cases size with
  | int => cases conv <;> rfl
  | long => cases conv <;> rfl
  | longLong => rfl

end Tail

variable (f : IntFormat)

/-- What stands behind the flag does not begin with a flag. -/
theorem rest_eq : ∃ c rest, f.rest = c :: rest ∧ c ≠ ascii '#' ∧ c ≠ ascii '-' ∧
    (f.flag = .none → c ≠ ascii '0') := by
  obtain ⟨flag, width, size, conv, hhead⟩ := f
  cases width with
  | nil =>
    obtain ⟨c, rest, htail, hc, hsharp, hminus⟩ := size_letters_eq size conv
    refine ⟨c, rest, htail, hsharp, hminus, fun _ hzero => ?_⟩
    rw [hzero] at hc
    exact absurd hc (by decide)
  | cons n ns =>
    have hletters : ∀ n, IntFormat.widthLetter n ≠ ascii '#' ∧
        IntFormat.widthLetter n ≠ ascii '-' ∧ (n ≠ 0 → IntFormat.widthLetter n ≠ ascii '0') := by
      decide
    obtain ⟨hsharp, hminus, hzero⟩ := hletters n
    refine ⟨_, _, rfl, hsharp, hminus, fun hflag => hzero ?_⟩
    rintro rfl
    exact hhead hflag rfl

/-- The directive of a format. -/
theorem parse_fmt : parse (f.flag.letters ++ f.rest) =
    (⟨false, f.flag, f.minWidth % 2 ^ 32, decide (f.size ≠ .int), decide (f.size = .longLong),
      f.conv.letter⟩, []) := by
  obtain ⟨c, rest, hrest, hsharp, hminus, hzero⟩ := rest_eq f
  have hfirst : parseSharp (next (f.flag.letters ++ f.rest)) =
      (false, next (f.flag.letters ++ f.rest)) := by
    cases f.flag with
    | none =>
      rw [hrest]
      exact if_neg hsharp
    | zeroPadding => rfl
    | leftJustified => rfl
  have hflag : parseFlag (next (f.flag.letters ++ f.rest)) = (f.flag, next f.rest) := by
    cases hf : f.flag with
    | none =>
      rw [hrest]
      exact (if_neg (hzero hf)).trans (if_neg hminus)
    | zeroPadding => rfl
    | leftJustified => rfl
  have hwidth : widthLoop 0 (next f.rest).1 (next f.rest).2 =
      (f.minWidth % 2 ^ 32, next (f.size.letters ++ [f.conv.letter])) := by
    obtain ⟨c, rest, htail, hc, -⟩ := size_letters_eq f.size f.conv
    rw [IntFormat.rest, htail, widthLoop_digits f.width 0 hc, foldl_horner_mod (by decide)]
    rfl
  rw [parse, hfirst]
  dsimp only
  rw [hflag]
  dsimp only
  rw [hwidth]
  dsimp only
  rw [parseLong_first]
  dsimp only
  rw [parseLong_second]

end Parse

section Text

variable {text : List UInt8} {c : UInt8}

theorem putcInternal_append (hc : c ≠ ascii '\n') : putcInternal append text c = text ++ [c] := by
  rw [putcInternal, if_neg hc, append]

theorem foldl_putcInternal_append {cs : List UInt8} (hcs : ascii '\n' ∉ cs) :
    cs.foldl (putcInternal append) text = text ++ cs := by
  induction cs generalizing text with
  | nil => exact (List.append_nil text).symm
  | cons c cs ih =>
    rw [List.mem_cons, not_or] at hcs
    rw [List.foldl_cons, putcInternal_append (Ne.symm hcs.1), ih hcs.2, List.append_assoc,
      List.singleton_append]

/-- The loop puts as many characters as are missing. -/
theorem pad_append (hc : c ≠ ascii '\n') (w j : ℕ) :
    pad append c w j text = ((max j w + 1) % 2 ^ 32, text ++ List.replicate (w - j) c) := by
  rw [pad]
  generalize hn : w - j = n
  induction n generalizing j text with
  | zero =>
    rw [padLoop, Nat.max_eq_left (by omega), List.replicate_zero, List.append_nil]
  | succ n ih =>
    rw [padLoop, if_pos (by omega), ih (j + 1) (by omega), putcInternal_append hc,
      List.append_assoc, List.singleton_append, List.replicate_succ,
      show max (j + 1) w = max j w by omega]

/-- Characters with their padding; the counter behind the first loop may have wrapped. -/
theorem putPadded_append {chars : List UInt8} (hc : c ≠ ascii '\n') (hchars : ascii '\n' ∉ chars)
    (f : Flag) (w j : ℕ) :
    putPadded append f w c j (fun s => chars.foldl (putcInternal append) s) text =
      if f = .leftJustified then text ++ chars ++ List.replicate (w - j) (ascii ' ')
      else text ++ List.replicate (w - j) c ++ chars ++
        List.replicate (w - (max j w + 1) % 2 ^ 32) (ascii ' ') := by
  have hspace : ascii ' ' ≠ ascii '\n' := by decide
  rw [putPadded]
  by_cases hleft : f = .leftJustified
  · rw [if_pos hleft, if_neg (not_not_intro hleft)]
    dsimp only
    rw [foldl_putcInternal_append hchars, pad_append hspace]
  · rw [if_neg hleft, if_pos hleft, pad_append hc]
    dsimp only
    rw [foldl_putcInternal_append hchars, pad_append hspace]

end Text

section Execution

namespace IntConversion

/-- The conversion as the interpreter sees it. -/
def type : IntConversion → Conversion
  | b => .binary
  | o => .octal
  | d => .decimal
  | u => .unsigned
  | x => .hexadecimal
  | X => .hexadecimal

theorem conversion_letter (conv : IntConversion) : conversion conv.letter = conv.type := by
  cases conv <;> rfl

theorem radix_type (conv : IntConversion) : conv.type.radix = conv.base := by
  cases conv <;> rfl

theorem letter_ne_zero (conv : IntConversion) : conv.letter ≠ 0 := by
  cases conv <;> decide

theorem type_eq_decimal_iff (conv : IntConversion) : conv.type = .decimal ↔ conv = d := by
  cases conv <;> decide

theorem type_ne_pointer (conv : IntConversion) : conv.type ≠ .pointer := by
  cases conv <;> decide

theorem one_lt_base (conv : IntConversion) : 1 < conv.base := by
  cases conv <;> decide

/-- The code's digits are those of the representation. -/
theorem digitChar_letter (conv : IntConversion) {n : ℕ} (hn : n < conv.base) :
    digitChar conv.letter n = conv.digit n := by
  have hall : ∀ conv : IntConversion, ∀ n < conv.base,
      digitChar conv.letter n = conv.digit n := by
    intro conv
    cases conv <;> decide
  exact hall conv n hn

/-- Digits are no line feeds. -/
theorem digit_ne_newline (conv : IntConversion) {n : ℕ} (hn : n < conv.base) :
    conv.digit n ≠ ascii '\n' := by
  have hall : ∀ conv : IntConversion, ∀ n < conv.base, conv.digit n ≠ ascii '\n' := by
    intro conv
    cases conv <;> decide
  exact hall conv n hn

/-- There is room for a 64-bit number in every base other than two. -/
theorem lt_base_pow (conv : IntConversion) {n : ℕ} (hn : n < 2 ^ 64)
    (hb : conv = b → n < 2 ^ 32) : n < conv.base ^ 32 := by
  cases conv with
  | b => exact hb rfl
  | o => exact hn.trans (by decide)
  | d => exact hn.trans (by decide)
  | u => exact hn.trans (by decide)
  | x => exact hn.trans (by decide)
  | X => exact hn.trans (by decide)

end IntConversion

theorem digitLoop_eq_map (c : UInt8) (r room v : ℕ) :
    digitLoop c r room v = (lowDigits r room v).map (digitChar c) := by
  induction room generalizing v with
  | zero => rfl
  | succ room ih =>
    rw [digitLoop, lowDigits, List.map_cons]
    split_ifs
    · rw [ih]
    · rfl

/-- The absolute value of a negative number. -/
theorem toNat_zero_sub_of_msb {v : BitVec 64} (h : v.msb = true) :
    v.toInt < 0 ∧ (0 - v).toNat = v.toInt.natAbs := by
  have hlt := v.isLt
  have hge := BitVec.msb_eq_true_iff_two_mul_ge.mp h
  rw [BitVec.toInt_eq_msb_cond, if_pos h, BitVec.toNat_sub, show (0 : BitVec 64).toNat = 0 from rfl]
  omega

theorem toNat_of_not_msb {v : BitVec 64} (h : ¬v.msb = true) :
    0 ≤ v.toInt ∧ v.toNat = v.toInt.natAbs := by
  rw [BitVec.toInt_eq_msb_cond, if_neg h]
  omega

/-- An argument as 64 bits. -/
def extend (conv : IntConversion) {bits : ℕ} (v : BitVec bits) : BitVec 64 :=
  if conv = .d then v.signExtend 64 else v.setWidth 64

theorem extend_long (conv : IntConversion) (v : BitVec 64) : extend conv v = v := by
  rw [extend, BitVec.signExtend_eq, BitVec.setWidth_eq, ite_self]

theorem argument_eq (conv : IntConversion) (size : Size) (v : BitVec size.bits) (d : Directive)
    (hlong : d.long = decide (size ≠ .int)) (hlongLong : d.longLong = decide (size = .longLong)) :
    argument d conv.type [size.arg v] = .ok (extend conv v, []) := by
  have hlongArg : ∀ w : BitVec 64,
      (Except.ok (w, []) : Except Fault (BitVec 64 × List Arg)) = .ok (extend conv w, []) :=
    fun w => by rw [extend_long]
  rw [argument, if_neg conv.type_ne_pointer, hlong, hlongLong]
  cases size with
  | int =>
    simp only [Size.arg, vaInt, Except.map, conv.type_eq_decimal_iff]
    rfl
  | long => exact hlongArg v
  | longLong => exact hlongArg v

variable (f : IntFormat) (v : BitVec f.size.bits)

/-- The digits that there is room for. -/
def IntFormat.lowText : List UInt8 :=
  (lowDigits f.conv.base 32 (f.value v).natAbs).reverse.map f.conv.digit

theorem bits_le (size : Size) : size.bits ≤ 64 := by
  cases size <;> decide

/-- The sign and the absolute value of the number, as the code finds them. -/
theorem extend_eq (f : IntFormat) (v : BitVec f.size.bits) :
    (f.conv.type = .decimal ∧ (extend f.conv v).msb = true ∧ f.value v < 0 ∧
        (0 - extend f.conv v).toNat = (f.value v).natAbs) ∨
      ¬(f.conv.type = .decimal ∧ (extend f.conv v).msb = true) ∧ ¬f.value v < 0 ∧
        (extend f.conv v).toNat = (f.value v).natAbs := by
  rw [f.conv.type_eq_decimal_iff, IntFormat.value]
  by_cases hd : f.conv = .d
  · have hint : (extend f.conv v).toInt = v.toInt := by
      rw [extend, if_pos hd, BitVec.toInt_signExtend_of_le (bits_le f.size)]
    rw [if_pos hd, ← hint]
    by_cases hmsb : (extend f.conv v).msb = true
    · obtain ⟨hneg, habs⟩ := toNat_zero_sub_of_msb hmsb
      exact .inl ⟨hd, hmsb, hneg, habs⟩
    · obtain ⟨hnonneg, habs⟩ := toNat_of_not_msb hmsb
      exact .inr ⟨fun h => hmsb h.2, Int.not_lt.mpr hnonneg, habs⟩
  · have hnat : (extend f.conv v).toNat = v.toNat := by
      rw [extend, if_neg hd, BitVec.toNat_setWidth_of_le (bits_le f.size)]
    rw [if_neg hd, hnat]
    exact .inr ⟨fun h => hd h.1, by omega, by omega⟩

/-- The characters of a number, from the last one on. -/
theorem numeral_eq : numeral f.conv.letter f.conv.type (extend f.conv v) =
    (f.sign v ++ f.lowText v).reverse := by
  have hdigits : ∀ n, digitLoop f.conv.letter f.conv.type.radix 32 n =
      ((lowDigits f.conv.base 32 n).reverse.map f.conv.digit).reverse := by
    intro n
    rw [digitLoop_eq_map, f.conv.radix_type, List.map_reverse, List.reverse_reverse]
    refine List.map_congr_left fun d hd => f.conv.digitChar_letter ?_
    exact lt_of_mem_lowDigits (Nat.zero_lt_of_lt f.conv.one_lt_base) hd
  rw [numeral, List.reverse_append, IntFormat.lowText, IntFormat.sign, hdigits, hdigits]
  rcases extend_eq f v with ⟨hd, hmsb, hneg, habs⟩ | ⟨hcode, hneg, habs⟩
  · rw [if_pos ⟨hd, hmsb⟩, if_pos hneg, habs, List.reverse_singleton]
  · rw [if_neg hcode, if_neg hneg, habs, List.reverse_nil, List.append_nil]

/-- What is put for a number: the padding in front, the number, and what the second loop puts. -/
def IntFormat.emitted : List UInt8 :=
  let w := f.minWidth % 2 ^ 32
  let chars := f.sign v ++ f.lowText v
  if f.flag = .leftJustified then chars ++ List.replicate (w - chars.length) (ascii ' ')
  else List.replicate (w - chars.length)
      (if f.flag = .zeroPadding then ascii '0' else ascii ' ') ++ chars ++
    List.replicate (w - (max chars.length w + 1) % 2 ^ 32) (ascii ' ')

theorem newline_not_mem : ascii '\n' ∉ f.sign v ++ f.lowText v := by
  rw [List.mem_append, not_or]
  constructor
  · rw [IntFormat.sign]
    split_ifs
    · decide
    · exact List.not_mem_nil
  · intro hmem
    obtain ⟨n, hn, heq⟩ := List.mem_map.mp hmem
    have hlt := lt_of_mem_lowDigits (Nat.zero_lt_of_lt f.conv.one_lt_base) (List.mem_reverse.mp hn)
    exact f.conv.digit_ne_newline hlt heq

theorem putNumber_eq (d : Directive) (hc : d.c = f.conv.letter) (hf : d.f = f.flag)
    (hw : d.w = f.minWidth % 2 ^ 32) :
    putNumber append d f.conv.type (extend f.conv v) [] = f.emitted v := by
  have hpad : (if f.flag = .zeroPadding then ascii '0' else ascii ' ') ≠ ascii '\n' := by
    split_ifs <;> decide
  rw [putNumber, hc, hf, hw, numeral_eq, List.reverse_reverse, List.length_reverse,
    putPadded_append hpad (newline_not_mem f v), IntFormat.emitted, List.nil_append,
    List.nil_append]

theorem execute_eq {conv : IntConversion} {d : Directive} {arp arp' : List Arg} {w : BitVec 64}
    {text : List UInt8} (hc : d.c = conv.letter) (harg : argument d conv.type arp = .ok (w, arp')) :
    execute append d arp text = .ok (arp', putNumber append d conv.type w text) := by
  rw [execute, hc, conv.conversion_letter]
  cases conv <;> simp only [IntConversion.type, reduceCtorEq, if_false] at harg ⊢ <;> rw [harg] <;>
    rfl

/-- The text of a number. -/
theorem output_fmt : output f.fmt [f.size.arg v] = .ok (f.emitted v) := by
  have hdirective : directive append (f.flag.letters ++ f.rest) [f.size.arg v] [] =
      .ok (some ([], []), f.emitted v) := by
    rw [directive, parse_fmt]
    dsimp only
    rw [if_neg f.conv.letter_ne_zero, if_neg Bool.false_ne_true,
      execute_eq rfl (argument_eq f.conv f.size v _ rfl rfl), putNumber_eq f v _ rfl rfl rfl]
    rfl
  rw [output, IntFormat.fmt, xvprintfInternal_eq, round_percent, hdirective, ok_bind]
  exact xvprintfInternal_nil

end Execution

section Comparison

variable (f : IntFormat) (v : BitVec f.size.bits)

/-- The width fits the counter for the padding, a binary number has no more than 32 digits, and
zeros do not have to stand behind a sign. -/
def IntFormat.Supported : Prop :=
  (f.minWidth < 2 ^ 32 - 1 ∨ f.flag = .leftJustified ∧ f.minWidth < 2 ^ 32) ∧
    (f.conv = .b → (f.value v).natAbs < 2 ^ 32) ∧
    ¬(f.flag = .zeroPadding ∧ f.value v < 0 ∧ (f.significant v).length < f.minWidth)

theorem natAbs_value_lt : (f.value v).natAbs < 2 ^ 64 := by
  rcases extend_eq f v with ⟨-, -, -, habs⟩ | ⟨-, -, habs⟩
  · rw [← habs]
    exact (0 - extend f.conv v).isLt
  · rw [← habs]
    exact (extend f.conv v).isLt

/-- There is room for all digits of a number that is not binary. -/
theorem lowText_eq_digits (h : f.conv = .b → (f.value v).natAbs < 2 ^ 32) :
    f.lowText v = f.digits v := by
  have hroom := f.conv.lt_base_pow (natAbs_value_lt f v) h
  rw [IntFormat.lowText, IntFormat.digits, reverse_lowDigits f.conv.one_lt_base (by decide) hroom]

theorem length_sign_le : (f.sign v).length ≤ 1 := by
  rw [IntFormat.sign]
  split_ifs
  · exact Nat.le_refl _
  · exact Nat.zero_le _

theorem length_lowText_le : (f.lowText v).length ≤ 32 := by
  rw [IntFormat.lowText, List.length_map, List.length_reverse]
  exact length_lowDigits_le _ _ _

theorem length_significant_le : (f.significant v).length ≤ 65 := by
  have hdigits : (f.digits v).length ≤ 64 := by
    rw [IntFormat.digits, List.length_map]
    refine length_representation_le f.conv.one_lt_base (by decide) ?_
    exact (natAbs_value_lt f v).trans_le (Nat.pow_le_pow_left f.conv.one_lt_base 64)
  have hsign := length_sign_le f v
  rw [IntFormat.significant, List.length_append]
  omega

/-- How long the text of a number is. -/
theorem length_emitted : (f.emitted v).length =
    if f.flag = .leftJustified then max (f.sign v ++ f.lowText v).length (f.minWidth % 2 ^ 32)
    else max (f.sign v ++ f.lowText v).length (f.minWidth % 2 ^ 32) +
      (f.minWidth % 2 ^ 32 -
        (max (f.sign v ++ f.lowText v).length (f.minWidth % 2 ^ 32) + 1) % 2 ^ 32) := by
  rw [IntFormat.emitted]
  generalize f.sign v ++ f.lowText v = chars
  split_ifs
  all_goals simp only [List.length_append, List.length_replicate]
  all_goals omega

/-- A text of the right length has a width that fits the counter. -/
theorem width_of_prints (h : f.Prints v (f.emitted v)) :
    f.minWidth < 2 ^ 32 - 1 ∨ f.flag = .leftJustified ∧ f.minWidth < 2 ^ 32 := by
  have hlength := h.1
  have hlow := length_lowText_le f v
  have hsign := length_sign_le f v
  have hsig := length_significant_le f v
  have hchars : (f.sign v ++ f.lowText v).length ≤ 33 := by
    rw [List.length_append]
    omega
  rw [length_emitted] at hlength
  by_cases hleft : f.flag = .leftJustified
  · rw [if_pos hleft] at hlength
    exact .inr ⟨hleft, by omega⟩
  · rw [if_neg hleft] at hlength
    exact .inl (by omega)

/-- The number that the characters of a text other than spaces stand for in binary. -/
def binaryValue (text : List UInt8) : ℕ :=
  Nat.ofDigits 2 ((text.filter (· ≠ ascii ' ')).map
    fun c => c.toNat - (ascii '0').toNat).reverse

/-- Padding does not change the number. -/
theorem binaryValue_padded {ds : List ℕ} (hds : ∀ d ∈ ds, d < 2) (k l : ℕ) {c : UInt8}
    (hc : c = ascii ' ' ∨ c = ascii '0') :
    binaryValue (List.replicate k c ++ ds.map IntConversion.b.digit ++
      List.replicate l (ascii ' ')) = Nat.ofDigits 2 ds.reverse := by
  have hdigit : ∀ d < 2, IntConversion.b.digit d ≠ ascii ' ' ∧
      (IntConversion.b.digit d).toNat - (ascii '0').toNat = d := by decide
  have hfilter : (ds.map IntConversion.b.digit).filter (· ≠ ascii ' ') =
      ds.map IntConversion.b.digit := by
    rw [List.filter_eq_self]
    intro c hmem
    obtain ⟨d, hd, rfl⟩ := List.mem_map.mp hmem
    exact decide_eq_true (hdigit d (hds d hd)).1
  have hmap : (ds.map IntConversion.b.digit).map (fun c => c.toNat - (ascii '0').toNat) = ds := by
    rw [List.map_map]
    exact (List.map_congr_left fun d hd => (hdigit d (hds d hd)).2).trans (List.map_id ds)
  have hspaces : (List.replicate l (ascii ' ')).filter (· ≠ ascii ' ') = [] := by
    rw [List.filter_replicate, if_neg (by decide)]
  rw [binaryValue, List.filter_append, List.filter_append, hfilter, hspaces, List.append_nil,
    List.map_append, hmap, List.reverse_append]
  rcases hc with rfl | rfl
  · rw [List.filter_replicate, if_neg (by decide), List.map_nil, List.reverse_nil, List.append_nil]
  · rw [List.filter_replicate, if_pos (by decide), List.map_replicate, List.reverse_replicate]
    exact Nat.ofDigits_append_replicate_zero _

theorem sign_eq_nil (h : ¬f.value v < 0) : f.sign v = [] := if_neg h

theorem value_nonneg (h : f.conv ≠ .d) : ¬f.value v < 0 := by
  rw [IntFormat.value, if_neg h]
  omega

/-- What is put for a binary number stands for its last 32 digits. -/
theorem binaryValue_emitted (hb : f.conv = .b) :
    binaryValue (f.emitted v) = (f.value v).natAbs % 2 ^ 32 := by
  have hsign := sign_eq_nil f v (value_nonneg f v (by rw [hb]; decide))
  have hlow : f.lowText v =
      (lowDigits 2 32 (f.value v).natAbs).reverse.map IntConversion.b.digit := by
    rw [IntFormat.lowText, hb]
    rfl
  have hlt : ∀ d ∈ (lowDigits 2 32 (f.value v).natAbs).reverse, d < 2 := fun d hd =>
    lt_of_mem_lowDigits (by decide) (List.mem_reverse.mp hd)
  have hvalue : Nat.ofDigits 2 (lowDigits 2 32 (f.value v).natAbs).reverse.reverse =
      (f.value v).natAbs % 2 ^ 32 := by
    rw [List.reverse_reverse, ofDigits_lowDigits]
  rw [IntFormat.emitted, hsign, hlow, List.nil_append, ← hvalue]
  by_cases hleft : f.flag = .leftJustified
  · rw [if_pos hleft]
    exact binaryValue_padded hlt 0 _ (.inl rfl)
  · rw [if_neg hleft]
    refine binaryValue_padded hlt _ _ ?_
    split_ifs
    · exact .inr rfl
    · exact .inl rfl

/-- A text that is a binary number stands for it. -/
theorem binaryValue_of_prints {text : List UInt8} (hb : f.conv = .b) (h : f.Prints v text) :
    binaryValue text = (f.value v).natAbs := by
  have hsign := sign_eq_nil f v (value_nonneg f v (by rw [hb]; decide))
  have hdigits : f.digits v = (representation 2 (f.value v).natAbs).map IntConversion.b.digit := by
    rw [IntFormat.digits, hb]
    rfl
  have hlt : ∀ d ∈ representation 2 (f.value v).natAbs, d < 2 := fun d hd =>
    lt_of_mem_representation (by decide) hd
  rw [← ofDigits_representation 2 (f.value v).natAbs]
  obtain ⟨-, k, htext⟩ := h
  rw [IntFormat.significant, hsign, hdigits, List.nil_append, List.nil_append] at htext
  rcases htext with rfl | rfl | rfl
  · have hpadded := binaryValue_padded hlt k 0 (.inl rfl)
    rwa [List.replicate_zero, List.append_nil] at hpadded
  · exact binaryValue_padded hlt 0 k (.inl rfl)
  · have hpadded := binaryValue_padded hlt k 0 (.inr rfl)
    rwa [List.replicate_zero, List.append_nil] at hpadded

/-- A text that is a negative number has no zeros in front of the sign. -/
theorem head_of_prints {text : List UInt8} (hneg : f.value v < 0)
    (hshort : (f.significant v).length < f.minWidth) (h : f.Prints v text) :
    text.head? = some (ascii ' ') ∨ text.head? = some (ascii '-') := by
  have hsign : f.sign v = [ascii '-'] := if_pos hneg
  obtain ⟨hlength, k, rfl | rfl | rfl⟩ := h
  · rw [List.length_append, List.length_replicate] at hlength
    obtain ⟨k, rfl⟩ : ∃ i, k = i + 1 := ⟨k - 1, by omega⟩
    exact .inl rfl
  · rw [IntFormat.significant, hsign]
    exact .inr rfl
  · rw [hsign]
    exact .inr rfl

/-- Zeros in front of the sign. -/
theorem head_emitted (hflag : f.flag = .zeroPadding) (hneg : f.value v < 0)
    (hwidth : f.minWidth < 2 ^ 32) (hshort : (f.significant v).length < f.minWidth) :
    (f.emitted v).head? = some (ascii '0') := by
  have hconv : f.conv ≠ .b := fun hb => value_nonneg f v (by rw [hb]; decide) hneg
  have hlow := lowText_eq_digits f v fun hb => absurd hb hconv
  obtain ⟨k, hk⟩ : ∃ k, f.minWidth - (f.significant v).length = k + 1 :=
    ⟨f.minWidth - (f.significant v).length - 1, by omega⟩
  rw [IntFormat.emitted, hlow, ← IntFormat.significant, hflag, Nat.mod_eq_of_lt hwidth,
    if_neg (by decide), hk, if_pos rfl]
  rfl

/-- What is put for a number whose width fits and whose digits have room. -/
theorem emitted_eq (hwidth : f.minWidth < 2 ^ 32 - 1 ∨
      f.flag = .leftJustified ∧ f.minWidth < 2 ^ 32)
    (hroom : f.conv = .b → (f.value v).natAbs < 2 ^ 32) :
    f.emitted v = if f.flag = .leftJustified then f.significant v ++
        List.replicate (f.minWidth - (f.significant v).length) (ascii ' ')
      else List.replicate (f.minWidth - (f.significant v).length)
        (if f.flag = .zeroPadding then ascii '0' else ascii ' ') ++ f.significant v := by
  have hsig := length_significant_le f v
  rw [IntFormat.emitted, lowText_eq_digits f v hroom, ← IntFormat.significant,
    Nat.mod_eq_of_lt (by omega)]
  by_cases hleft : f.flag = .leftJustified
  · rw [if_pos hleft, if_pos hleft]
  · have hsecond : f.minWidth - (max (f.significant v).length f.minWidth + 1) % 2 ^ 32 = 0 := by
      have hlt := hwidth.resolve_right fun h => hleft h.1
      rw [Nat.mod_eq_of_lt (by omega)]
      omega
    rw [if_neg hleft, if_neg hleft, hsecond, List.replicate_zero, List.append_nil]

theorem prints_of_supported (h : f.Supported v) : f.Prints v (f.emitted v) := by
  obtain ⟨hwidth, hroom, hzeros⟩ := h
  rw [emitted_eq f v hwidth hroom, IntFormat.Prints]
  by_cases hleft : f.flag = .leftJustified
  · rw [if_pos hleft]
    refine ⟨?_, _, .inr (.inl rfl)⟩
    rw [List.length_append, List.length_replicate]
    omega
  · rw [if_neg hleft]
    refine ⟨?_, f.minWidth - (f.significant v).length, ?_⟩
    · rw [List.length_append, List.length_replicate]
      omega
    · by_cases hzero : f.flag = .zeroPadding
      · rw [if_pos hzero]
        refine .inr (.inr ?_)
        by_cases hneg : f.value v < 0
        · have hfull : f.minWidth - (f.significant v).length = 0 :=
            Nat.sub_eq_zero_of_le (Nat.le_of_not_lt fun hlt => hzeros ⟨hzero, hneg, hlt⟩)
          rw [hfull, List.replicate_zero, List.append_nil, List.nil_append, IntFormat.significant]
        · rw [IntFormat.significant, sign_eq_nil f v hneg, List.nil_append, List.nil_append]
      · rw [if_neg hzero]
        exact .inl rfl

theorem supported_of_prints (h : f.Prints v (f.emitted v)) : f.Supported v := by
  have hwidth := width_of_prints f v h
  refine ⟨hwidth, fun hb => ?_, fun ⟨hflag, hneg, hshort⟩ => ?_⟩
  · have hmod := (binaryValue_emitted f v hb).symm.trans (binaryValue_of_prints f v hb h)
    rw [← hmod]
    exact Nat.mod_lt _ (by decide)
  · have hhead := head_emitted f v hflag hneg (by omega) hshort
    rcases head_of_prints f v hneg hshort h with hspace | hminus
    · exact absurd (hhead.symm.trans hspace) (by decide)
    · exact absurd (hhead.symm.trans hminus) (by decide)

end Comparison

/-- The text of an integer is the integer with its padding exactly if the width fits the counter for
the padding, a binary number has no more than 32 digits and no zeros stand behind a sign. -/
theorem integer_printed_iff (f : IntFormat) (v : BitVec f.size.bits) :
    ∃ text, output f.fmt [f.size.arg v] = .ok text ∧ (f.Prints v text ↔ f.Supported v) :=
  ⟨f.emitted v, output_fmt f v, supported_of_prints f v, prints_of_supported f v⟩

/-- A signed decimal number with zeros up to a width of five. -/
def fiveZeros : IntFormat := ⟨.zeroPadding, [5], .int, .d, nofun⟩

theorem head?_nil_ne_zero (flag : Flag) :
    flag = .none → ([] : List (Fin 10)).head? ≠ some 0 := fun _ => nofun

/-- A long binary number. -/
def binaryLong : IntFormat := ⟨.none, [], .long, .b, head?_nil_ne_zero .none⟩

/-- The number -5 with zeros up to a width of five and the binary number `2 ^ 32` are not printed as
what they are. -/
theorem integer_misprinted :
    fiveZeros.fmt = ("%05d".toList).map ascii ∧
      output fiveZeros.fmt [.int (-5)] = .ok (("000-5".toList).map ascii) ∧
      ¬fiveZeros.Prints (-5 : BitVec 32) (("000-5".toList).map ascii) ∧
      binaryLong.fmt = ("%lb".toList).map ascii ∧
      output binaryLong.fmt [.long 0x100000000] = .ok (List.replicate 32 (ascii '0')) ∧
      ¬binaryLong.Prints (0x100000000 : BitVec 64) (List.replicate 32 (ascii '0')) := by
  have hdecimal : output fiveZeros.fmt [.int (-5)] = .ok (("000-5".toList).map ascii) := by decide
  have hbinary : output binaryLong.fmt [.long 0x100000000] =
      .ok (List.replicate 32 (ascii '0')) := by decide
  refine ⟨by decide, hdecimal, fun h => ?_, by decide, hbinary, fun h => ?_⟩
  · rw [← ok_unique (output_fmt fiveZeros _) hdecimal] at h
    exact (supported_of_prints fiveZeros _ h).2.2 (by decide +kernel)
  · rw [← ok_unique (output_fmt binaryLong _) hbinary] at h
    exact absurd ((supported_of_prints binaryLong _ h).2.1 rfl) (by decide +kernel)

end Toyos.Printf
