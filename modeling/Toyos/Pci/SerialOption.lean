import Toyos.Pci.SerialPort
import Toyos.Core.Numeral
import Mathlib.Data.List.TakeWhile

/-!
# The option for the serial port

The port is given by a number, in hexadecimal digits behind `0x` or in decimal ones;
without the option it is looked for. The test for the hexadecimal form asks for more
than one character behind `0x`, and what fails it is read as a decimal number.
-/

namespace Toyos.Pci

open Toyos.Core

/-- Reasons for stopping. -/
inductive OptionFault where
  /-- The search for a port has stopped. -/
  | discovery (fault : Fault)
  /-- `no conversion`: the number has no digits. -/
  | invalidArgument
  deriving DecidableEq, Repr

/-- White space before a number. -/
def isspace (c : Char) : Bool := c == ' ' || c == '\t' || c == '\r' || c == '\n'

/-- The value of a digit; letters stand for the values from ten on. -/
def ctoi_ (c : Char) : Option ℕ :=
  if '0' ≤ c ∧ c ≤ '9' then some (c.toNat - '0'.toNat)
  else if 'a' ≤ c ∧ c ≤ 'z' then some (c.toNat - 'a'.toNat + 10)
  else if 'A' ≤ c ∧ c ≤ 'Z' then some (c.toNat - 'A'.toNat + 10)
  else none

/-- The value of a digit in a base. -/
def ctoi (c : Char) (base : ℕ) : Option ℕ := (ctoi_ c).filter (· < base)

/-- The number at the begin of a text, and the text behind it unless the number ends the text. -/
def accumulate (base : ℕ) : (accum : ℕ) → List Char → ℕ × Option (List Char)
  | accum, [] => (accum, none)
  | accum, c :: p =>
    match ctoi c base with
    | none => (accum, some (c :: p))
    | some i => accumulate base (wrap (wrap (accum * base) + i)) p

/-- `strtoull`: the number in a text, and where its end was set to. -/
def strtoull (str : List Char) (base : ℕ) : ℕ × Option (List Char) :=
  if str = [] then (0, some str)
  else
    let p := str.dropWhile isspace
    let p := if p.head? = some '+' then p.tail else p
    let p := if p.take 2 = ['0', 'x'] ∧ base = 16 then p.drop 2 else p
    accumulate base 0 p

/-- `std::stoull`, which looks at a string up to its first zero. -/
def stoull (str : List Char) (base : ℕ) : Except OptionFault ℕ := do
  let p := str.takeWhile (· ≠ '\x00')
  let (r, ptr) := strtoull p base
  ensure (ptr ≠ some p) OptionFault.invalidArgument
  return r

/-- `HEX_PREFIX`. -/
def hexPrefix : List Char := ['0', 'x']

/-- Whether an option begins with a string and has a number behind it. -/
def hasPrefix (serialOption needle : List Char) : Bool :=
  let lenPrefixPlusNumber := decide (serialOption.length > needle.length + 1)
  let startsWith := serialOption.take needle.length == needle
  lenPrefixPlusNumber && startsWith

/-- The port that is used. -/
def getEffectiveSerialPort (config : ConfigSpace) (ports : Vector (BitVec 16) 4)
    (serialOption : List Char) (mcfg : Option AcpiMcfg) : Except OptionFault (BitVec 16) :=
  if serialOption = [] then (discoverSerialPort config ports mcfg).mapError .discovery
  else if hasPrefix serialOption hexPrefix then
    (stoull (serialOption.drop hexPrefix.length) 16).map (.ofNat 16)
  else (stoull serialOption 10).map (.ofNat 16)

/-- Whether a character is a digit in a base. -/
def isDigit (base : ℕ) (c : Char) : Bool := (ctoi c base).isSome

/-- The number that digits stand for, the most significant digit first. -/
def number (base : ℕ) (digits : List Char) : ℕ :=
  Nat.ofDigits base (digits.map fun c => (ctoi_ c).getD 0).reverse

section Parsing

variable {base : ℕ} {c : Char} {digits : List Char}

theorem ctoi_eq_of_isDigit (h : isDigit base c = true) :
    ctoi c base = some ((ctoi_ c).getD 0) := by
  obtain ⟨i, hi⟩ := Option.isSome_iff_exists.mp h
  rw [hi, (Option.filter_eq_some_iff.mp hi).1, Option.getD_some]

/-- What is no digit in any base. -/
theorem not_isDigit_of_ctoi_ (h : ctoi_ c = none) : isDigit base c = false := by
  rw [isDigit, ctoi, h]
  rfl

theorem not_isspace_of_isDigit (h : isDigit base c = true) : isspace c = false := by
  rw [← Bool.not_eq_true]
  intro hspace
  simp only [isspace, Bool.or_eq_true, beq_iff_eq] at hspace
  rcases hspace with ((rfl | rfl) | rfl) | rfl
  all_goals exact Bool.false_ne_true ((not_isDigit_of_ctoi_ (by decide)).symm.trans h)

theorem ne_of_isDigit {d : Char} (h : isDigit base c = true) (hd : ctoi_ d = none) : c ≠ d := by
  rintro rfl
  exact Bool.false_ne_true ((not_isDigit_of_ctoi_ hd).symm.trans h)

/-- Digits are read from the most significant one on. -/
theorem accumulate_digits (hdigits : ∀ c ∈ digits, isDigit base c = true) (accum : ℕ) :
    accumulate base accum digits =
      ((digits.map fun c => (ctoi_ c).getD 0).foldl (fun n d => (n * base + d) % 2 ^ 64) accum,
        none) := by
  induction digits generalizing accum with
  | nil => rfl
  | cons c cs ih =>
    rw [accumulate, ctoi_eq_of_isDigit (hdigits c List.mem_cons_self)]
    dsimp only
    rw [ih fun d hd => hdigits d (List.mem_cons_of_mem _ hd), List.map_cons, List.foldl_cons,
      wrap, wrap, Nat.mod_add_mod]

/-- Digits are neither white space nor a sign, and `x` is none of them. -/
theorem strtoull_digits (hne : digits ≠ []) (hdigits : ∀ c ∈ digits, isDigit base c = true) :
    strtoull digits base = accumulate base 0 digits := by
  obtain ⟨c, cs, rfl⟩ := List.exists_cons_of_ne_nil hne
  have hc := hdigits c List.mem_cons_self
  have hsign : ¬some c = some '+' := fun h => ne_of_isDigit hc (by decide) (Option.some.inj h)
  have hx : ¬((c :: cs).take 2 = ['0', 'x'] ∧ base = 16) := by
    rintro ⟨htake, rfl⟩
    have hmem : 'x' ∈ (c :: cs).take 2 := htake ▸ by decide
    exact absurd (hdigits 'x' (List.mem_of_mem_take hmem)) (by decide)
  rw [strtoull, if_neg hne, List.dropWhile_cons_of_neg (by simp [not_isspace_of_isDigit hc])]
  dsimp only
  rw [List.head?_cons, if_neg hsign, if_neg hx]

/-- A string of digits is read as a whole. -/
theorem stoull_digits (hne : digits ≠ []) (hdigits : ∀ c ∈ digits, isDigit base c = true)
    (hfits : number base digits < 2 ^ 64) : stoull digits base = .ok (number base digits) := by
  have hall : digits.takeWhile (· ≠ '\x00') = digits :=
    List.takeWhile_eq_self_iff.mpr fun c hc =>
      decide_eq_true (ne_of_isDigit (hdigits c hc) (by decide))
  have hread : Nat.ofDigits base (digits.map fun c => (ctoi_ c).getD 0).reverse % 2 ^ 64 =
      number base digits := Nat.mod_eq_of_lt hfits
  rw [stoull, hall, strtoull_digits hne hdigits, accumulate_digits hdigits,
    foldl_horner_mod (by decide), hread]
  rfl

/-- A number in hexadecimal form ends at its `x` if it is read as a decimal number. -/
theorem stoull_hex_decimal (digits : List Char) : stoull (hexPrefix ++ digits) 10 = .ok 0 := by
  have htext : (hexPrefix ++ digits).takeWhile (· ≠ '\x00') =
      '0' :: 'x' :: digits.takeWhile (· ≠ '\x00') := rfl
  have hread : strtoull ('0' :: 'x' :: digits.takeWhile (· ≠ '\x00')) 10 =
      (0, some ('x' :: digits.takeWhile (· ≠ '\x00'))) := rfl
  have hend : some ('x' :: digits.takeWhile (· ≠ '\x00')) ≠
      some ('0' :: 'x' :: digits.takeWhile (· ≠ '\x00')) := by simp
  rw [stoull, htext, hread]
  dsimp only
  rw [ensure_of _ hend]
  rfl

end Parsing

section Port

variable {digits : List Char} {config : ConfigSpace} {ports : Vector (BitVec 16) 4}
  {mcfg : Option AcpiMcfg}

/-- Only a number of more than one digit is recognized behind `0x`. -/
theorem hasPrefix_hex (digits : List Char) :
    hasPrefix (hexPrefix ++ digits) hexPrefix = decide (1 < digits.length) := by
  rw [hasPrefix, List.take_left, beq_self_eq_true, Bool.and_true, List.length_append,
    decide_eq_decide, gt_iff_lt, Nat.add_lt_add_iff_left]

theorem not_hasPrefix_decimal (hdigits : ∀ c ∈ digits, isDigit 10 c = true) :
    hasPrefix digits hexPrefix = false := by
  rw [hasPrefix, Bool.and_eq_false_iff]
  refine .inr (beq_false_of_ne fun heq => ?_)
  have hmem : 'x' ∈ digits.take hexPrefix.length := by
    rw [heq]
    decide
  exact absurd (hdigits 'x' (List.mem_of_mem_take hmem)) (by decide)

/-- A hexadecimal number of more than one digit. -/
theorem port_hex (hdigits : ∀ c ∈ digits, isDigit 16 c = true) (hlength : 1 < digits.length)
    (hfits : number 16 digits < 2 ^ 64) :
    getEffectiveSerialPort config ports (hexPrefix ++ digits) mcfg =
      .ok (.ofNat 16 (number 16 digits)) := by
  have hne : digits ≠ [] := List.ne_nil_of_length_pos (Nat.zero_lt_of_lt hlength)
  rw [getEffectiveSerialPort, if_neg (by simp [hexPrefix]), hasPrefix_hex, decide_eq_true hlength,
    if_pos rfl, List.drop_left, stoull_digits hne hdigits hfits]
  rfl

/-- A single hexadecimal digit is not looked at. -/
theorem port_single_hex (c : Char) :
    getEffectiveSerialPort config ports (hexPrefix ++ [c]) mcfg = .ok 0#16 := by
  have hshort : hasPrefix (hexPrefix ++ [c]) hexPrefix = false := hasPrefix_hex [c]
  rw [getEffectiveSerialPort, if_neg (by simp [hexPrefix]), hshort, if_neg Bool.false_ne_true,
    stoull_hex_decimal]
  rfl

/-- A decimal number. -/
theorem port_decimal (hne : digits ≠ []) (hdigits : ∀ c ∈ digits, isDigit 10 c = true)
    (hfits : number 10 digits < 2 ^ 64) :
    getEffectiveSerialPort config ports digits mcfg = .ok (.ofNat 16 (number 10 digits)) := by
  rw [getEffectiveSerialPort, if_neg hne, not_hasPrefix_decimal hdigits, if_neg Bool.false_ne_true,
    stoull_digits hne hdigits hfits]
  rfl

theorem toNat_ofNat_number {base : ℕ} (hfits : number base digits < 2 ^ 16) :
    (BitVec.ofNat 16 (number base digits)).toNat = number base digits := by
  rw [BitVec.toNat_ofNat, Nat.mod_eq_of_lt hfits]

end Port

/-- A decimal number is read, and a hexadecimal one exactly if it has more than one digit or is
zero. -/
theorem option_parsed_iff (config : ConfigSpace) (ports : Vector (BitVec 16) 4)
    (mcfg : Option AcpiMcfg) (digits : List Char) (hne : digits ≠ []) :
    ((∀ c ∈ digits, isDigit 16 c = true) → number 16 digits < 2 ^ 16 →
      (getEffectiveSerialPort config ports (hexPrefix ++ digits) mcfg =
        .ok (.ofNat 16 (number 16 digits)) ↔ 2 ≤ digits.length ∨ number 16 digits = 0)) ∧
    ((∀ c ∈ digits, isDigit 10 c = true) → number 10 digits < 2 ^ 16 →
      getEffectiveSerialPort config ports digits mcfg = .ok (.ofNat 16 (number 10 digits))) := by
  constructor
  · intro hdigits hfits
    by_cases hlength : 2 ≤ digits.length
    · exact iff_of_true (port_hex hdigits hlength (hfits.trans (by decide))) (.inl hlength)
    · have hpos := List.length_pos_iff.mpr hne
      obtain ⟨c, rfl⟩ := List.length_eq_one_iff.mp (show digits.length = 1 by omega)
      have hzero : 0#16 = BitVec.ofNat 16 (number 16 [c]) ↔ number 16 [c] = 0 := by
        rw [← BitVec.toNat_inj, toNat_ofNat_number hfits, BitVec.toNat_zero, eq_comm]
      rw [port_single_hex, Except.ok.injEq, hzero, or_iff_right hlength]
  · intro hdigits hfits
    exact port_decimal hne hdigits (hfits.trans (by decide))

/-- The ports `0x42` and `42`. -/
theorem option_parsed_42 :
    getEffectiveSerialPort (fun _ => 0) (.replicate 4 0) "0x42".toList none = .ok 0x42 ∧
      getEffectiveSerialPort (fun _ => 0) (.replicate 4 0) "42".toList none = .ok 42 := by
  have hhex : ∀ c ∈ "42".toList, isDigit 16 c = true := List.all_eq_true.mp rfl
  have hdecimal : ∀ c ∈ "42".toList, isDigit 10 c = true := List.all_eq_true.mp rfl
  have h := option_parsed_iff (fun _ => 0) (.replicate 4 0) none "42".toList (by decide)
  exact ⟨(h.1 hhex (by decide)).mpr (.inl (by decide)), h.2 hdecimal (by decide)⟩

/-- The port `0x5` is read as zero. -/
theorem option_single_hex_digit_lost :
    isDigit 16 '5' = true ∧ number 16 ['5'] = 5 ∧
      getEffectiveSerialPort (fun _ => 0) (.replicate 4 0) "0x5".toList none = .ok 0 :=
  ⟨by decide, by decide, port_single_hex '5'⟩

end Toyos.Pci
