import Toyos.Util.OptionParser
import Toyos.Util.Tokenize

/-!
# The command line

`cmdline_parser` cuts the command line at spaces, hands the words that contain
two dashes to the option parser and asks it for the options. A word with two
dashes inside it is no option, yet it is handed over, and the option parser stops
at it: options behind such a word are not found.
-/

namespace Toyos.Boot

open Toyos.Util Toyos.Util.OptionParser

/-- `option_index`. -/
inductive OptionIndex
  | serial
  | xhci
  | xhciPower
  | disabledTestcases
  deriving DecidableEq, Repr

/-- The long name of an option. -/
def OptionIndex.longopt : OptionIndex → List Char
  | .serial => ['s', 'e', 'r', 'i', 'a', 'l']
  | .xhci => ['x', 'h', 'c', 'i']
  | .xhciPower => ['x', 'h', 'c', 'i', '-', 'p', 'o', 'w', 'e', 'r']
  | .disabledTestcases =>
    ['d', 'i', 's', 'a', 'b', 'l', 'e', '-', 't', 'e', 's', 't', 'c', 'a', 's', 'e', 's']

/-- The descriptor of an option. -/
def OptionIndex.descriptor (idx : OptionIndex) : Descriptor OptionIndex := ⟨idx, idx.longopt⟩

/-- `usage`. -/
def usage : List (Descriptor OptionIndex) :=
  [OptionIndex.serial.descriptor, OptionIndex.xhci.descriptor, OptionIndex.xhciPower.descriptor,
    OptionIndex.disabledTestcases.descriptor]

/-- The null character. -/
def nul : Char := Char.ofNat 0

/-- `c_str`: what a reader of the characters sees. -/
def cStr (s : List Char) : List Char := s.takeWhile (· ≠ nul)

/-- `DISABLED_TESTCASES_DELIMITER`. -/
def disabledTestcasesDelimiter : Char := ','

/-- `cmdline_parser`. -/
structure CmdlineParser where
  arguments : List (List Char)
  argv : List (List Char)
  /-- The first option at every index. -/
  options : OptionIndex → Option (ParsedOption OptionIndex)

namespace CmdlineParser

/-- The constructor. Parsing never fails, as no argument is illegal. -/
def new (cmdline : List Char) : CmdlineParser :=
  let arguments := tokenize cmdline ' '
  let argv := (arguments.filter fun s => ['-', '-'] <:+: s).map cStr
  ⟨arguments, argv, parse usage argv⟩

/-- `option_value`. -/
def optionValue (p : CmdlineParser) (idx : OptionIndex) : Option (List Char) :=
  (p.options idx).map fun o => o.arg.getD []

/-- `serial_option`. -/
def serialOption (p : CmdlineParser) : Option (List Char) := p.optionValue .serial

/-- `xhci_option`. -/
def xhciOption (p : CmdlineParser) : Option (List Char) := p.optionValue .xhci

/-- `xhci_power_option`. -/
def xhciPowerOption (p : CmdlineParser) : List Char := (p.optionValue .xhciPower).getD ['0']

/-- `disable_testcases_option`. -/
def disableTestcasesOption (p : CmdlineParser) : List (List Char) :=
  split ((p.optionValue .disabledTestcases).getD []) disabledTestcasesDelimiter

end CmdlineParser

/-- The words of a command line. -/
def words (cmdline : List Char) : List (List Char) := (cmdline.splitOn ' ').filter (· ≠ [])

/-- The value of the first word that gives an option. -/
def expectedValue (cmdline : List Char) (idx : OptionIndex) : Option (List Char) :=
  ((words cmdline).find? fun w => IsOption idx.longopt w).map valueOf

/-- The pieces between commas; nothing comes out of an empty value. -/
def commaSplit (value : List Char) : List (List Char) :=
  if value = [] then [] else value.splitOn ','

/-- The parser reports the given values, by every one of its functions. -/
structure CmdlineParser.Reports (p : CmdlineParser)
    (value : OptionIndex → Option (List Char)) : Prop where
  optionValue_eq : ∀ idx, p.optionValue idx = value idx
  serialOption_eq : p.serialOption = value .serial
  xhciOption_eq : p.xhciOption = value .xhci
  xhciPowerOption_eq : p.xhciPowerOption = (value .xhciPower).getD ['0']
  disableTestcasesOption_eq :
    p.disableTestcasesOption = commaSplit ((value .disabledTestcases).getD [])

/-- The word has two dashes inside but does not begin with one. -/
def Blocks (w : List Char) : Prop := ['-', '-'] <:+: w ∧ w[0]? ≠ some '-'

instance : DecidablePred Blocks := fun w => by
  unfold Blocks
  infer_instance

/-- A word blocks before the first word that gives the option. -/
def Hidden (ws : List (List Char)) (idx : OptionIndex) : Prop :=
  ∃ before w after, ws = before ++ w :: after ∧ Blocks w ∧
    (∀ v ∈ before, ¬IsOption idx.longopt v) ∧ ∃ v ∈ after, IsOption idx.longopt v

theorem usage_distinct : Distinct usage := by
  constructor
  · decide
  · decide
  · decide

theorem descriptor_mem_usage (idx : OptionIndex) : idx.descriptor ∈ usage := by
  cases idx <;> simp [usage]

/-- The words that are handed to the option parser. -/
def handedOver (cmdline : List Char) : List (List Char) :=
  ((words cmdline).filter fun s => ['-', '-'] <:+: s).map cStr

/-- An option has the value of the first word for it that the option parser comes to. -/
theorem CmdlineParser.optionValue_new (cmdline : List Char) (idx : OptionIndex) :
    (CmdlineParser.new cmdline).optionValue idx =
      ((seen (handedOver cmdline)).find? fun w => IsOption idx.longopt w).map valueOf := by
  have hargv : (CmdlineParser.new cmdline).argv = handedOver cmdline := by
    rw [handedOver, words, ← tokenize_eq]
    rfl
  rw [← hargv]
  exact usage_distinct.parse_eq (descriptor_mem_usage idx) _

/-- Without null characters the parser sees the words as they are. -/
theorem handedOver_eq {cmdline : List Char} (hnul : nul ∉ cmdline) :
    handedOver cmdline = (words cmdline).filter fun s => ['-', '-'] <:+: s := by
  refine (List.map_congr_left fun w hw => ?_).trans (List.map_id _)
  rw [id, cStr, List.takeWhile_eq_self_iff]
  intro c hc
  have hword : w ∈ cmdline.splitOn ' ' := List.mem_of_mem_filter (List.mem_of_mem_filter hw)
  exact decide_eq_true fun he => hnul (he ▸ (mem_and_ne_of_mem_splitOn hword hc).1)

/-- A word that is handed over stops the parser exactly when it blocks. -/
theorem stops_iff_blocks {w : List Char} (hdash : w ≠ ['-', '-']) (hin : ['-', '-'] <:+: w) :
    Stops w ↔ Blocks w := by
  have hlen := hin.length_le
  have hsecond : w[1]? ≠ none := by
    rw [Ne, List.getElem?_eq_none_iff, not_le]
    exact hlen
  simp [Stops, Blocks, hdash, hsecond, hin]

theorem dashes_of_isOption {name w : List Char} (h : IsOption name w) : ['-', '-'] <:+: w := by
  obtain ⟨s, rfl⟩ := h.eq_cons
  exact (List.prefix_append ['-', '-'] s).isInfix

theorem not_blocks_of_isOption {name w : List Char} (h : IsOption name w) : ¬Blocks w := by
  obtain ⟨s, rfl⟩ := h.eq_cons
  simp [Blocks]

/-- The words that the option parser goes through. -/
def passed (ws : List (List Char)) : List (List Char) :=
  seen (ws.filter fun s => ['-', '-'] <:+: s)

section Passed

variable {w : List Char} {ws : List (List Char)} {idx : OptionIndex}

/-- The option parser goes no further than a word that blocks. -/
theorem passed_of_blocks (hw : Blocks w) : passed (w :: ws) = [] := by
  have hstop : Stops w := .inl hw.2
  simp [passed, seen, hw.1, hstop]

/-- Any other word is handed over and passed, or not handed over. -/
theorem passed_of_not_blocks (hdash : w ≠ ['-', '-']) (hw : ¬Blocks w) :
    passed (w :: ws) = if ['-', '-'] <:+: w then w :: passed ws else passed ws := by
  by_cases hin : ['-', '-'] <:+: w
  · have hstop : ¬Stops w := fun h => hw ((stops_iff_blocks hdash hin).mp h)
    simp [passed, seen, hin, hstop]
  · simp [passed, hin]

theorem not_hidden_nil : ¬Hidden [] idx := by
  rintro ⟨before, w, after, hws, -⟩
  simp at hws

/-- Nothing hides an option that comes first. -/
theorem not_hidden_of_isOption (hw : IsOption idx.longopt w) : ¬Hidden (w :: ws) idx := by
  rintro ⟨before, v, after, hws, hv, hbefore, -⟩
  cases before with
  | nil =>
    obtain ⟨rfl, -⟩ := List.cons.inj hws
    exact not_blocks_of_isOption hw hv
  | cons u before =>
    obtain ⟨rfl, -⟩ := List.cons.inj hws
    exact hbefore w List.mem_cons_self hw

/-- A word that blocks hides every option behind it. -/
theorem hidden_of_blocks (hw : Blocks w) :
    Hidden (w :: ws) idx ↔ ∃ v ∈ ws, IsOption idx.longopt v := by
  constructor
  · rintro ⟨before, u, after, hws, -, -, v, hv, hoption⟩
    cases before with
    | nil =>
      obtain ⟨-, rfl⟩ := List.cons.inj hws
      exact ⟨v, hv, hoption⟩
    | cons u' before =>
      obtain ⟨-, rfl⟩ := List.cons.inj hws
      exact ⟨v, List.mem_append_right before (List.mem_cons_of_mem u hv), hoption⟩
  · exact fun hbehind => ⟨[], w, ws, rfl, hw, by simp, hbehind⟩

/-- Any other word leaves what is hidden behind it. -/
theorem hidden_cons (hoption : ¬IsOption idx.longopt w) (hw : ¬Blocks w) :
    Hidden (w :: ws) idx ↔ Hidden ws idx := by
  constructor
  · rintro ⟨before, u, after, hws, hu, hbefore, hbehind⟩
    cases before with
    | nil =>
      obtain ⟨rfl, -⟩ := List.cons.inj hws
      exact absurd hu hw
    | cons u' before =>
      obtain ⟨-, rfl⟩ := List.cons.inj hws
      exact ⟨before, u, after, rfl, hu, fun v hv => hbefore v (List.mem_cons_of_mem u' hv), hbehind⟩
  · rintro ⟨before, u, after, rfl, hu, hbefore, hbehind⟩
    exact ⟨w :: before, u, after, rfl, hu, List.forall_mem_cons.mpr ⟨hoption, hbefore⟩, hbehind⟩

/-- The first word for an option is found among the words that are passed, unless the option is
hidden. -/
theorem find_passed_iff (hdash : ['-', '-'] ∉ ws) :
    ((passed ws).find? fun w => IsOption idx.longopt w).map valueOf =
      (ws.find? fun w => IsOption idx.longopt w).map valueOf ↔ ¬Hidden ws idx := by
  induction ws with
  | nil => exact iff_of_true rfl not_hidden_nil
  | cons w ws ih =>
    obtain ⟨hfirst, hrest⟩ := not_or.mp (mt List.mem_cons.mpr hdash)
    by_cases hoption : IsOption idx.longopt w
    · rw [passed_of_not_blocks (Ne.symm hfirst) (not_blocks_of_isOption hoption),
        if_pos (dashes_of_isOption hoption)]
      exact iff_of_true (by simp [hoption]) (not_hidden_of_isOption hoption)
    · have hskip : (w :: ws).find? (fun w => IsOption idx.longopt w) =
          ws.find? fun w => IsOption idx.longopt w := by simp [hoption]
      rw [hskip]
      by_cases hw : Blocks w
      · rw [passed_of_blocks hw, hidden_of_blocks hw, List.find?_nil, Option.map_none, eq_comm,
          Option.map_eq_none_iff, List.find?_eq_none]
        simp
      · rw [passed_of_not_blocks (Ne.symm hfirst) hw, hidden_cons hoption hw, ← ih hrest]
        split
        · simp [hoption]
        · rfl

end Passed

/-- An option has the value of the first word for it exactly when it is not hidden. -/
theorem optionValue_eq_iff {cmdline : List Char} (hnul : nul ∉ cmdline)
    (hdash : ['-', '-'] ∉ words cmdline) (idx : OptionIndex) :
    (CmdlineParser.new cmdline).optionValue idx = expectedValue cmdline idx ↔
      ¬Hidden (words cmdline) idx := by
  rw [CmdlineParser.optionValue_new, handedOver_eq hnul, expectedValue]
  exact find_passed_iff hdash

/-- What the parser reports is given by the values of the options. -/
theorem CmdlineParser.reports_iff {p : CmdlineParser}
    {value : OptionIndex → Option (List Char)} :
    p.Reports value ↔ ∀ idx, p.optionValue idx = value idx := by
  refine ⟨Reports.optionValue_eq, fun h => ⟨h, h .serial, h .xhci, ?_, ?_⟩⟩
  · rw [xhciPowerOption, h]
  · rw [disableTestcasesOption, split_eq, h]
    rfl

/-- Every option is reported with the value of its first word exactly when no option is hidden
behind a word that blocks. -/
theorem options_found_iff {cmdline : List Char} (hnul : nul ∉ cmdline)
    (hdash : ['-', '-'] ∉ words cmdline) :
    (CmdlineParser.new cmdline).Reports (expectedValue cmdline) ↔
      ∀ idx, ¬Hidden (words cmdline) idx := by
  rw [CmdlineParser.reports_iff]
  exact forall_congr' (optionValue_eq_iff hnul hdash)

/-- A kernel path and a serial option with a value. -/
def pathAndSerial : List Char :=
  ['/', 'k', ' ', '-', '-', 's', 'e', 'r', 'i', 'a', 'l', '=', '1']

/-- Behind a path the option is found. -/
theorem options_found_iff_path :
    (CmdlineParser.new pathAndSerial).optionValue .serial = some ['1'] := by
  have hwords : words pathAndSerial =
      [['/', 'k'], ['-', '-', 's', 'e', 'r', 'i', 'a', 'l', '=', '1']] := by decide +kernel
  have hpass : ∀ w ∈ words pathAndSerial, ¬Blocks w := by
    rw [hwords]
    decide
  have hvisible : ∀ idx, ¬Hidden (words pathAndSerial) idx := by
    rintro idx ⟨before, w, after, hws, hw, -⟩
    exact hpass w (hws ▸ List.mem_append_right before List.mem_cons_self) hw
  have hfound := (options_found_iff (by decide) (by rw [hwords]; decide)).mpr hvisible
  rw [hfound.optionValue_eq .serial, expectedValue, hwords]
  decide

/-- A word with two dashes inside and the serial option. -/
def dashesAndSerial : List Char :=
  ['a', '-', '-', 'b', ' ', '-', '-', 's', 'e', 'r', 'i', 'a', 'l']

/-- A word with two dashes inside hides the option behind it. -/
theorem serial_hidden_by_word :
    ¬∀ cmdline : List Char, nul ∉ cmdline → ['-', '-'] ∉ words cmdline →
      (CmdlineParser.new cmdline).Reports (expectedValue cmdline) := by
  intro h
  have hserial := (h dashesAndSerial (by decide) (by decide +kernel)).optionValue_eq .serial
  have hnone : (CmdlineParser.new dashesAndSerial).optionValue .serial = none := by
    decide +kernel
  have hsome : expectedValue dashesAndSerial .serial = some [] := by decide +kernel
  simp [hnone, hsome] at hserial

end Toyos.Boot
