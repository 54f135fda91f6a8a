import Toyos.Printf.PprintfMeaning

/-!
# The text of a format

What `printf` puts for a format is the text of its parts, one after the other:
characters stand for themselves, a line feed for the end of a line, a string for
its characters and a number for its digits.
-/

namespace Toyos.Printf

open Toyos.Core

/-- The end of a line in the output. -/
def crlf : List UInt8 := [ascii '\r', ascii '\n']

/-- Characters that stand for themselves in a format. -/
def Verbatim (cs : List UInt8) : Prop := ascii '%' ∉ cs ∧ 0 ∉ cs ∧ ascii '\n' ∉ cs

instance (cs : List UInt8) : Decidable (Verbatim cs) := inferInstanceAs (Decidable (_ ∧ _ ∧ _))

theorem Verbatim.append {cs ds : List UInt8} (hcs : Verbatim cs) (hds : Verbatim ds) :
    Verbatim (cs ++ ds) := by
  simp only [Verbatim, List.mem_append, not_or]
  exact ⟨⟨hcs.1, hds.1⟩, ⟨hcs.2.1, hds.2.1⟩, hcs.2.2, hds.2.2⟩

/-- Characters of a string that `printf` puts in one line. -/
def OneLine (p : List UInt8) : Prop := 0 ∉ p ∧ ascii '\n' ∉ p ∧ p.length < 2 ^ 32

instance (p : List UInt8) : Decidable (OneLine p) := inferInstanceAs (Decidable (_ ∧ _ ∧ _))

section Parts

variable (fmt : List UInt8) (arp : List Arg) (text : List UInt8)

theorem xvprintfInternal_verbatim {cs : List UInt8} (hcs : Verbatim cs) :
    xvprintfInternal append (cs ++ fmt) arp text =
      xvprintfInternal append fmt arp (text ++ cs) := by
  induction cs generalizing text with
  | nil => rw [List.nil_append, List.append_nil]
  | cons c cs ih =>
    obtain ⟨hpercent, hnul, hline⟩ := hcs
    rw [List.mem_cons, not_or] at hpercent hnul hline
    rw [List.cons_append, xvprintfInternal_lit (Ne.symm hpercent.1) (Ne.symm hnul.1),
      putcInternal_append (Ne.symm hline.1), ih _ ⟨hpercent.2, hnul.2, hline.2⟩,
      List.append_assoc, List.singleton_append]

theorem xvprintfInternal_newline :
    xvprintfInternal append (ascii '\n' :: fmt) arp text =
      xvprintfInternal append fmt arp (text ++ crlf) := by
  rw [xvprintfInternal_lit (by decide) (by decide), putcInternal, if_pos rfl, append, append,
    List.append_assoc]
  rfl

theorem putsInternal_eq {σ : Type} (emit : σ → UInt8 → σ) {p : List UInt8} (hp : 0 ∉ p) (s : σ) :
    putsInternal emit s p = p.foldl (putcInternal emit) s := by
  induction p generalizing s with
  | nil => rfl
  | cons c p ih =>
    rw [List.mem_cons, not_or] at hp
    rw [putsInternal, if_neg (Ne.symm hp.1), ih hp.2, List.foldl_cons]

/-- A directive without flags and width. -/
def plainDirective (sharp : Bool) (size : Size) (conv : FieldConv) : Directive :=
  ⟨sharp, .none, 0, decide (size ≠ .int), decide (size = .longLong), conv.letter⟩

/-- A directive without width puts what it stands for and takes its argument. -/
theorem xvprintfInternal_directive (sharp : Bool) (size : Size) (conv : FieldConv) {a : Arg}
    {chars : List UInt8} (hexec : ∀ text, execute append (plainDirective sharp size conv) [a] text =
      .ok ([], text ++ chars)) :
    xvprintfInternal append (ascii '%' :: ((if sharp then [ascii '#'] else []) ++
        (size.letters ++ conv.letter :: fmt))) (a :: arp) text =
      xvprintfInternal append fmt arp
        (text ++ ((if sharp then [ascii '0', ascii 'x'] else []) ++ chars)) := by
  have hparse := parse_letters size conv fmt ⟨sharp, .none, [], by simp⟩
  rw [show Flags.letters ⟨sharp, .none, [], by simp⟩ = if sharp then [ascii '#'] else [] from
    List.append_nil _] at hparse
  have hsharp : (if sharp then putsInternal append text [ascii '0', ascii 'x'] else text) =
      text ++ if sharp then [ascii '0', ascii 'x'] else [] := by
    cases sharp with
    | false => exact (List.append_nil text).symm
    | true => exact (List.append_assoc text [ascii '0'] [ascii 'x'])
  rw [xvprintfInternal_eq, round_percent, directive, hparse]
  dsimp only
  rw [if_neg (letter_ne_zero _), execute_cons (conversion_letter_ne _), hsharp]
  change (Except.map _ (Except.map _ (execute append (plainDirective sharp size conv) [a] _))) >>=
    _ = _
  rw [hexec, List.append_assoc]
  rfl

theorem xvprintfInternal_string {p : List UInt8} (hp : OneLine p) :
    xvprintfInternal append (ascii '%' :: ascii 's' :: fmt) (.string p :: arp) text =
      xvprintfInternal append fmt arp (text ++ p) := by
  obtain ⟨hnul, hline, hlength⟩ := hp
  refine xvprintfInternal_directive fmt arp text false .int .s fun text => ?_
  have htake : p.takeWhile (· ≠ 0) = p := by
    rw [List.takeWhile_eq_self_iff]
    intro c hc
    exact decide_eq_true fun heq => hnul (heq ▸ hc)
  have hbody : (fun s => putsInternal append s p) = fun s => p.foldl (putcInternal append) s :=
    funext fun s => putsInternal_eq append hnul s
  rw [execute, show conversion (plainDirective false .int .s).c = .string by decide]
  simp only [vaString, ok_bind, lengthLoop, htake, ensure_of _ hlength, hbody, pure_eq_ok]
  rw [show (plainDirective false .int .s).f = .none from rfl,
    show (plainDirective false .int .s).w = 0 from rfl, putPadded_append (by decide) hline]
  simp

/-- The digits of a number without sign. -/
def digitText (conv : IntConversion) (n : ℕ) : List UInt8 :=
  (representation conv.base n).map conv.digit

theorem newline_not_mem_digitText (conv : IntConversion) (n : ℕ) :
    ascii '\n' ∉ digitText conv n := by
  intro hmem
  obtain ⟨d, hd, heq⟩ := List.mem_map.mp hmem
  exact conv.digit_ne_newline (lt_of_mem_representation conv.one_lt_base hd) heq

theorem emitted_plain {f : IntFormat} (v : BitVec f.size.bits) (hflag : f.flag = .none)
    (hwidth : f.width = []) (hb : f.conv ≠ .b) (hd : f.conv ≠ .d) :
    f.emitted v = digitText f.conv v.toNat := by
  have hmin : f.minWidth = 0 := by rw [IntFormat.minWidth, hwidth]; rfl
  have hvalue : (f.value v).natAbs = v.toNat := by
    rw [IntFormat.value, if_neg hd, Int.natAbs_natCast]
  rw [IntFormat.emitted, hmin, hflag, sign_eq_nil f v (value_nonneg f v hd),
    lowText_eq_digits f v fun h => absurd h hb, IntFormat.digits, hvalue]
  simp [digitText]

/-- Numbers without sign. -/
theorem execute_number (size : Size) (sharp : Bool) {conv : FieldConv} (conv' : IntConversion)
    (hconv : conv.letter = conv'.letter) (hb : conv' ≠ .b) (hd : conv' ≠ .d)
    (v : BitVec size.bits) :
    execute append (plainDirective sharp size conv) [size.arg v] text =
      .ok ([], text ++ digitText conv' v.toNat) := by
  have harg := argument_eq conv' size v (plainDirective sharp size conv) rfl rfl
  have hput := putNumber_eq ⟨.none, [], size, conv', by simp⟩ v (plainDirective sharp size conv)
    hconv rfl rfl
  have hmap : text ++ putNumber append (plainDirective sharp size conv) conv'.type
      (extend conv' v) [] = putNumber append (plainDirective sharp size conv) conv'.type
        (extend conv' v) (text ++ []) :=
    map_putNumber (h := (text ++ ·)) (fun s c => (List.append_assoc text s [c]).symm) _ _ _ []
  rw [execute_eq hconv harg,
    ← emitted_plain (f := ⟨.none, [], size, conv', by simp⟩) v rfl rfl hb hd, ← hput, hmap,
    List.append_nil]

theorem xvprintfInternal_unsigned (v : BitVec 32) :
    xvprintfInternal append (ascii '%' :: ascii 'u' :: fmt) (.int v :: arp) text =
      xvprintfInternal append fmt arp (text ++ digitText .u v.toNat) :=
  xvprintfInternal_directive fmt arp text false .int .u fun text =>
    execute_number text .int false .u rfl (by decide) (by decide) v

theorem xvprintfInternal_unsignedLong (v : BitVec 64) :
    xvprintfInternal append (ascii '%' :: ascii 'l' :: ascii 'u' :: fmt) (.long v :: arp) text =
      xvprintfInternal append fmt arp (text ++ digitText .u v.toNat) :=
  xvprintfInternal_directive fmt arp text false .long .u fun text =>
    execute_number text .long false .u rfl (by decide) (by decide) v

theorem xvprintfInternal_hex (v : BitVec 32) :
    xvprintfInternal append (ascii '%' :: ascii '#' :: ascii 'x' :: fmt) (.int v :: arp) text =
      xvprintfInternal append fmt arp
        (text ++ (ascii '0' :: ascii 'x' :: digitText .x v.toNat)) :=
  xvprintfInternal_directive fmt arp text true .int .x fun text =>
    execute_number text .int true .x rfl (by decide) (by decide) v

end Parts

end Toyos.Printf
