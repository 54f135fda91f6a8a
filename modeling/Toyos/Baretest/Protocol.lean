import Toyos.Baretest.Suite
import Toyos.Printf.Text

/-!
# The test protocol

Whoever watches the console of a test program finds the results in it: a line
announces the number of tests, one line reports each test and a last line ends
the report. All other lines are ignored. What is found in this way is what the
tests did, in their order, whatever else they print as long as it is made of lines
that are no messages.
-/

namespace Toyos.Baretest

open Toyos.Core Toyos.Printf Toyos.Boot Toyos.Util Toyos.Util.OptionParser

/-- What is reported about a test. -/
inductive Report
  | success (name : List UInt8)
  | failure (name : List UInt8)
  | skipped
  deriving DecidableEq, Repr

/-- The messages of the protocol. -/
inductive Message
  /-- The number of tests. -/
  | start (testCount : ℕ)
  /-- The result of a test. -/
  | report (r : Report)
  /-- The end of the report. -/
  | finish
  deriving DecidableEq, Repr

section Decoder

/-- A line without the carriage return at its end. -/
def stripCr (line : List UInt8) : List UInt8 :=
  if line.getLast? = some (ascii '\r') then line.dropLast else line

/-- The lines of a console, given the start of the first one. -/
def linesFrom : List UInt8 → List UInt8 → List (List UInt8)
  | line, [] => [line]
  | line, c :: text =>
    if c = ascii '\n' then stripCr line :: linesFrom [] text else linesFrom (line ++ [c]) text

/-- What is in front of a closing quote. -/
def unquote (text : List UInt8) : Option (List UInt8) :=
  if text.getLast? = some (ascii '"') then some text.dropLast else none

/-- A decimal number. -/
def decimal (digits : List UInt8) : Option ℕ :=
  if digits.all isDigit && !digits.isEmpty then
    some (Nat.ofDigits 10 (digits.map fun c => c.toNat - (ascii '0').toNat).reverse)
  else none

/-- The message that a line is. -/
def decodeLine (line : List UInt8) : Option Message :=
  match (codes "SOTEST VERSION 1 BEGIN ").isPrefixOf? line with
  | some digits => (decimal digits).map .start
  | none =>
    match (codes "SOTEST SUCCESS \"").isPrefixOf? line with
    | some text => (unquote text).map fun name => .report (.success name)
    | none =>
      match (codes "SOTEST FAIL \"").isPrefixOf? line with
      | some text => (unquote text).map fun name => .report (.failure name)
      | none =>
        if line = codes "SOTEST SKIP" then some (.report .skipped)
        else if line = codes "SOTEST END" then some .finish
        else none

/-- The reports up to the end message, which has to be the last one. -/
def reportsOf : List Message → Option (List Report)
  | [.finish] => some []
  | .report r :: ms => (reportsOf ms).map (r :: ·)
  | _ => none

/-- The number of tests and the reports that are found on a console. -/
def decode (console : List UInt8) : Option (ℕ × List Report) :=
  match (linesFrom [] console).filterMap decodeLine with
  | .start testCount :: ms => (reportsOf ms).map fun rs => (testCount, rs)
  | _ => none

end Decoder

section Lines

/-- A text is made of lines with the given messages. -/
def Says (text : List UInt8) (ms : List Message) : Prop :=
  ∃ ls : List (List UInt8), text = (ls.map (· ++ crlf)).flatten ∧ (∀ l ∈ ls, ascii '\n' ∉ l) ∧
    ls.filterMap decodeLine = ms

variable {text text' l : List UInt8} {ms ms' : List Message}

theorem Says.append (h : Says text ms) (h' : Says text' ms') :
    Says (text ++ text') (ms ++ ms') := by
  obtain ⟨ls, rfl, hls, rfl⟩ := h
  obtain ⟨ls', rfl, hls', rfl⟩ := h'
  refine ⟨ls ++ ls', by simp, fun l hl => ?_, by simp⟩
  rcases List.mem_append.mp hl with hl | hl
  · exact hls l hl
  · exact hls' l hl

theorem says_message {msg : Message} (h : ascii '\n' ∉ l) (hdecode : decodeLine l = some msg) :
    Says (l ++ crlf) [msg] :=
  ⟨[l], by simp, by simpa using h, by rw [List.filterMap_cons, hdecode]; rfl⟩

theorem says_nothing (h : ascii '\n' ∉ l) (hdecode : decodeLine l = none) : Says (l ++ crlf) [] :=
  ⟨[l], by simp, by simpa using h, by rw [List.filterMap_cons, hdecode]; rfl⟩

theorem linesFrom_line (h : ascii '\n' ∉ l) (start : List UInt8) :
    linesFrom start (l ++ crlf ++ text) = (start ++ l) :: linesFrom [] text := by
  induction l generalizing start with
  | nil =>
    rw [List.nil_append, List.append_nil, crlf, List.cons_append, List.cons_append, linesFrom,
      if_neg (by decide), linesFrom, if_pos rfl, stripCr, if_pos List.getLast?_concat,
      List.dropLast_concat, List.nil_append]
  | cons c l ih =>
    rw [List.mem_cons, not_or] at h
    rw [List.cons_append, List.cons_append, linesFrom, if_neg (Ne.symm h.1), ih h.2,
      List.append_assoc, List.singleton_append]

/-- The messages on a console are those that are said. -/
theorem Says.messages (h : Says text ms) : (linesFrom [] text).filterMap decodeLine = ms := by
  obtain ⟨ls, rfl, hls, rfl⟩ := h
  induction ls with
  | nil => rfl
  | cons l ls ih =>
    rw [List.map_cons, List.flatten_cons, linesFrom_line (hls l List.mem_cons_self),
      List.nil_append, List.filterMap_cons, List.filterMap_cons,
      ih fun l' hl' => hls l' (List.mem_cons_of_mem _ hl')]

/-- A line that begins with another character is no message. -/
theorem decodeLine_other (hl : l.head?.any (· ≠ ascii 'S') = true) (l' : List UInt8) :
    decodeLine (l ++ l') = none := by
  cases l with
  | nil => cases hl
  | cons c l =>
    have hc : c ≠ ascii 'S' := by simpa using hl
    have hhead : ∀ tail, (ascii 'S' :: tail).isPrefixOf? (c :: (l ++ l')) = none := fun tail => by
      rw [List.isPrefixOf?, if_neg]
      exact fun h => hc (beq_iff_eq.mp h).symm
    have hline : ∀ tail, c :: (l ++ l') ≠ ascii 'S' :: tail := fun tail h => hc (List.cons.inj h).1
    unfold decodeLine
    rw [List.cons_append,
      show codes "SOTEST VERSION 1 BEGIN " = ascii 'S' :: codes "OTEST VERSION 1 BEGIN " from rfl,
      hhead, show codes "SOTEST SUCCESS \"" = ascii 'S' :: codes "OTEST SUCCESS \"" from rfl,
      hhead, show codes "SOTEST FAIL \"" = ascii 'S' :: codes "OTEST FAIL \"" from rfl, hhead]
    exact (if_neg (hline (codes "OTEST SKIP"))).trans (if_neg (hline (codes "OTEST END")))

theorem unquote_quoted (name : List UInt8) : unquote (name ++ [ascii '"']) = some name := by
  rw [unquote, if_pos List.getLast?_concat, List.dropLast_concat]

theorem decodeLine_success (name : List UInt8) :
    decodeLine (codes "SOTEST SUCCESS \"" ++ (name ++ [ascii '"'])) =
      some (.report (.success name)) := by
  change (unquote (name ++ [ascii '"'])).map _ = _
  rw [unquote_quoted]
  rfl

theorem decodeLine_fail (name : List UInt8) :
    decodeLine (codes "SOTEST FAIL \"" ++ (name ++ [ascii '"'])) =
      some (.report (.failure name)) := by
  change (unquote (name ++ [ascii '"'])).map _ = _
  rw [unquote_quoted]
  rfl

theorem decimal_digitText (n : ℕ) : decimal (digitText .u n) = some n := by
  have hdigit : ∀ d < 10, isDigit (IntConversion.digit .u d) = true ∧
      (IntConversion.digit .u d).toNat - (ascii '0').toNat = d := by decide
  have hlt : ∀ d ∈ representation 10 n, d < 10 := fun d hd =>
    lt_of_mem_representation (by decide) hd
  have hne : representation 10 n ≠ [] := by
    rw [representation]
    split_ifs with hn
    · exact List.cons_ne_nil _ _
    · exact List.reverse_ne_nil_iff.mpr (Nat.digits_ne_nil_iff_ne_zero.mpr hn)
  have hmap : (digitText .u n).map (fun c => c.toNat - (ascii '0').toNat) =
      representation 10 n := by
    rw [digitText, List.map_map]
    exact (List.map_congr_left fun d hd => (hdigit d (hlt d hd)).2).trans (List.map_id _)
  have hall : (digitText .u n).all isDigit = true := by
    rw [List.all_eq_true]
    intro c hc
    obtain ⟨d, hd, rfl⟩ := List.mem_map.mp hc
    exact (hdigit d (hlt d hd)).1
  have hempty : (digitText .u n).isEmpty = false := by
    rw [List.isEmpty_eq_false_iff]
    exact fun h => hne (List.map_eq_nil_iff.mp h)
  rw [decimal, hall, hempty, if_pos (by decide), hmap, ofDigits_representation]

theorem decodeLine_begin (n : ℕ) :
    decodeLine (codes "SOTEST VERSION 1 BEGIN " ++ digitText .u n) = some (.start n) := by
  change (decimal (digitText .u n)).map _ = _
  rw [decimal_digitText]
  rfl

end Lines

section Specification

variable {σ : Type}

/-- The command line disables a test: of the words with two dashes, up to the first at which the
option parser stops, the first that gives `--disable-testcases` names the test between its commas,
with or without `test_`. -/
def Disables (cmdline name : List Char) : Prop :=
  ∃ w ∈ (seen (handedOver cmdline)).find? fun w => IsOption "disable-testcases".toList w,
    name ∈ commaSplit (valueOf w) ∨ "test_".toList ++ name ∈ commaSplit (valueOf w)

theorem testcaseDisabledByCmdline_iff {cmdline name : List Char} :
    testcaseDisabledByCmdline cmdline name = true ↔ Disables cmdline name := by
  have hdisabled : (CmdlineParser.new cmdline).disableTestcasesOption =
      commaSplit ((((seen (handedOver cmdline)).find? fun w =>
        IsOption "disable-testcases".toList w).map valueOf).getD []) := by
    rw [CmdlineParser.disableTestcasesOption, CmdlineParser.optionValue_new, split_eq]
    rfl
  rw [testcaseDisabledByCmdline, hdisabled, Disables, Bool.or_eq_true, decide_eq_true_eq,
    decide_eq_true_eq]
  cases (seen (handedOver cmdline)).find? fun w => IsOption "disable-testcases".toList w with
  | none => simp [commaSplit]
  | some w => simp

instance (cmdline name : List Char) : Decidable (Disables cmdline name) :=
  decidable_of_iff _ testcaseDisabledByCmdline_iff

theorem decide_disables (cmdline name : List Char) :
    decide (Disables cmdline name) = testcaseDisabledByCmdline cmdline name :=
  Bool.eq_iff_iff.mpr (decide_eq_true_iff.trans testcaseDisabledByCmdline_iff.symm)

/-- Whether a test is skipped. -/
def TestCase.skips (t : TestCase σ) (cmdline : List Char) (s : σ) : Bool :=
  !t.condition s || decide (Disables cmdline t.name)

/-- The result of a test. -/
def TestCase.result (t : TestCase σ) (cmdline : List Char) (s : σ) : Result :=
  if t.skips cmdline s then .skipped
  else if (t.impl s).message = none then .success
  else .failure

/-- What is to be reported about a test. -/
def TestCase.report (t : TestCase σ) (cmdline : List Char) (s : σ) : Report :=
  match t.result cmdline s with
  | .success => .success (t.name.map ascii)
  | .failure => .failure (t.name.map ascii)
  | .skipped => .skipped

/-- The state behind a test. -/
def TestCase.after (t : TestCase σ) (cmdline : List Char) (s : σ) : σ :=
  if t.skips cmdline s then s else (t.impl s).state

/-- What is to be reported about tests that run one after the other. -/
def reports (cmdline : List Char) : List (TestCase σ) → σ → List Report
  | [], _ => []
  | t :: ts, s => t.report cmdline s :: reports cmdline ts (t.after cmdline s)

/-- The state behind tests that run one after the other. -/
def afterAll (cmdline : List Char) (ts : List (TestCase σ)) (s : σ) : σ :=
  ts.foldl (fun s t => t.after cmdline s) s

/-- What a part of the program prints is made of lines that are no messages. -/
def Quiet (part : σ → Ran σ) : Prop :=
  ∀ s, Says ((part s).printed ++ (part s).message.getD []) []

/-- The strings of the environment fit in a line. -/
structure Environment.Printable (e : Environment) : Prop where
  cmdline : OneLine (e.cmdline.map ascii)
  vendorId : OneLine e.vendorId
  brandString : OneLine e.brandString

/-- A test with a name that fits in a line, a condition that is printed as it is and a quiet
body. -/
structure TestCase.Tidy (t : TestCase σ) : Prop where
  name : OneLine (codes "test_" ++ t.name.map ascii)
  conditionText : Verbatim t.conditionText
  quiet : Quiet t.impl

end Specification

section Printing

variable {σ : Type} (m : Machine σ)

/-- Some more text on the console. -/
def Machine.print (text : List UInt8) : Machine σ := { m with console := m.console ++ text }

theorem print_print (text text' : List UInt8) :
    (m.print text).print text' = m.print (text ++ text') := by
  rw [Machine.print, Machine.print, Machine.print, List.append_assoc]

theorem printf_eq {fmt text : List UInt8} {arp : List Arg}
    (h : xvprintfInternal append fmt arp m.console = .ok (m.console ++ text)) :
    m.printf fmt arp = .ok (m.print text) := by
  rw [Machine.printf, h]
  rfl

theorem pprintf_eq {fmt fmt' : List UInt8} {tl : List Ty} {arp : List Arg}
    (h : autoformat fmt tl = .ok fmt') : m.pprintf fmt tl arp = m.printf fmt' arp := by
  rw [Machine.pprintf, h]
  rfl

theorem printf_verbatim {cs : List UInt8} (hcs : Verbatim cs) :
    m.printf cs [] = .ok (m.print cs) := by
  have h := xvprintfInternal_verbatim [] [] m.console hcs
  rw [List.append_nil, xvprintfInternal_nil] at h
  exact printf_eq m h

theorem printf_line {cs : List UInt8} (hcs : Verbatim cs) :
    m.printf (cs ++ [ascii '\n']) [] = .ok (m.print (cs ++ crlf)) := by
  refine printf_eq m ?_
  rw [xvprintfInternal_verbatim _ _ _ hcs, xvprintfInternal_newline, xvprintfInternal_nil,
    List.append_assoc]

theorem printf_string {cs ds p : List UInt8} (hcs : Verbatim cs) (hds : Verbatim ds)
    (hp : OneLine p) :
    m.printf (cs ++ (ascii '%' :: ascii 's' :: (ds ++ [ascii '\n']))) [.string p] =
      .ok (m.print (cs ++ (p ++ ds) ++ crlf)) := by
  refine printf_eq m ?_
  rw [xvprintfInternal_verbatim _ _ _ hcs, xvprintfInternal_string _ _ _ hp,
    xvprintfInternal_verbatim _ _ _ hds, xvprintfInternal_newline, xvprintfInternal_nil]
  simp only [List.append_assoc]

end Printing

section Messages

variable {σ : Type}

/-- What is added to the console, and the state that is left behind. -/
structure Adds (m m' : Machine σ) (ms : List Message) (s : σ) : Prop where
  environment : m'.environment = m.environment
  running : m'.running = m.running
  state : m'.state = s
  console : ∃ text, m'.console = m.console ++ text ∧ Says text ms

theorem Adds.trans {m m' m'' : Machine σ} {ms ms' : List Message} {s s' : σ}
    (h : Adds m m' ms s) (h' : Adds m' m'' ms' s') : Adds m m'' (ms ++ ms') s' := by
  obtain ⟨text, htext, hsays⟩ := h.console
  obtain ⟨text', htext', hsays'⟩ := h'.console
  refine ⟨h'.environment.trans h.environment, h'.running.trans h.running, h'.state,
    text ++ text', ?_, hsays.append hsays'⟩
  rw [htext', htext, List.append_assoc]

/-- A part of the program returns, with the given messages on the console. -/
def Returns (r : Except Stop (Machine σ)) (m : Machine σ) (ms : List Message) (s : σ) : Prop :=
  ∃ m', r = .ok m' ∧ Adds m m' ms s

theorem Returns.bind {m : Machine σ} {r : Except Stop (Machine σ)}
    {next : Machine σ → Except Stop (Machine σ)} {ms ms' : List Message} {s s' : σ}
    (h : Returns r m ms s) (hnext : ∀ m', Adds m m' ms s → Returns (next m') m' ms' s') :
    Returns (r >>= next) m (ms ++ ms') s' := by
  obtain ⟨m', rfl, hadds⟩ := h
  obtain ⟨m'', heq, hadds'⟩ := hnext m' hadds
  exact ⟨m'', heq, hadds.trans hadds'⟩

variable (m : Machine σ)

theorem returns_print {r : Except Stop (Machine σ)} {text : List UInt8} {ms : List Message}
    (hr : r = .ok (m.print text)) (h : Says text ms) : Returns r m ms m.state :=
  ⟨_, hr, rfl, rfl, rfl, text, rfl, h⟩

theorem protocolBegin_returns (testCount : ℕ) :
    Returns (m.protocolBegin testCount) m [.start (testCount % 2 ^ 32)] m.state := by
  have hline : ascii '\n' ∉ codes "SOTEST VERSION 1 BEGIN " ++ digitText .u (testCount % 2 ^ 32) :=
    fun h => (List.mem_append.mp h).elim (by decide) (newline_not_mem_digitText _ _)
  have hone : digitText .u (1 : BitVec 64).toNat = codes "1" := by
    simp [digitText, representation, IntConversion.base, codes]
    rfl
  have hformat : autoformat (codes "SOTEST VERSION \x7b\x7d BEGIN \x7b\x7d\n")
      [.unsignedLong, .unsigned] = .ok (codes "SOTEST VERSION %lu BEGIN %u\n") := by decide
  have hprint : xvprintfInternal append (codes "SOTEST VERSION %lu BEGIN %u\n")
      [.long 1, .int (BitVec.ofNat 32 testCount)] m.console = .ok (m.console ++
        (codes "SOTEST VERSION 1 BEGIN " ++ digitText .u (testCount % 2 ^ 32) ++ crlf)) := by
    change xvprintfInternal append (codes "SOTEST VERSION " ++ (ascii '%' :: ascii 'l' ::
      ascii 'u' :: (codes " BEGIN " ++ (ascii '%' :: ascii 'u' :: [ascii '\n'])))) _ _ = _
    rw [xvprintfInternal_verbatim _ _ _ (by decide), xvprintfInternal_unsignedLong,
      xvprintfInternal_verbatim _ _ _ (by decide), xvprintfInternal_unsigned,
      xvprintfInternal_newline, xvprintfInternal_nil, BitVec.toNat_ofNat, hone]
    simp only [List.append_assoc]
    rfl
  exact returns_print m ((pprintf_eq m hformat).trans (printf_eq m hprint))
    (says_message hline (decodeLine_begin _))

/-- A message about a test. -/
theorem named_returns {head name : List UInt8} {r : Report} (hname : OneLine name)
    (hhead : Verbatim head)
    (hdecode : decodeLine (head ++ (name ++ [ascii '"'])) = some (.report r))
    (hformat : autoformat (head ++ codes "%s\"\n") [.charPtr] = .ok (head ++ codes "%s\"\n")) :
    Returns (m.pprintf (head ++ codes "%s\"\n") [.charPtr] [.string name]) m [.report r]
      m.state := by
  have hline : ascii '\n' ∉ head ++ (name ++ [ascii '"']) := by
    simp [hhead.2.2, hname.2.1, show ascii '\n' ≠ ascii '"' by decide]
  have hquote : Verbatim [ascii '"'] := by decide
  exact returns_print m ((pprintf_eq m hformat).trans (printf_string m hhead hquote hname))
    (says_message hline hdecode)

theorem protocolSuccess_returns {name : List UInt8} (hname : OneLine name) :
    Returns (m.protocolSuccess name) m [.report (.success name)] m.state :=
  named_returns m hname (by decide) (decodeLine_success name) (by decide)

theorem protocolFail_returns {name : List UInt8} (hname : OneLine name) :
    Returns (m.protocolFail name) m [.report (.failure name)] m.state :=
  named_returns m hname (by decide) (decodeLine_fail name) (by decide)

/-- A message that is always the same. -/
theorem fixed_returns {l : List UInt8} {msg : Message} (hl : Verbatim l)
    (hdecode : decodeLine l = some msg)
    (hformat : autoformat (l ++ [ascii '\n']) [] = .ok (l ++ [ascii '\n'])) :
    Returns (m.pprintf (l ++ [ascii '\n']) [] []) m [msg] m.state :=
  returns_print m ((pprintf_eq m hformat).trans (printf_line m hl)) (says_message hl.2.2 hdecode)

theorem protocolSkip_returns : Returns m.protocolSkip m [.report .skipped] m.state :=
  fixed_returns (l := codes "SOTEST SKIP") m (by decide) (by decide) (by decide)

theorem protocolEnd_returns : Returns m.protocolEnd m [.finish] m.state :=
  fixed_returns (l := codes "SOTEST END") m (by decide) (by decide) (by decide)

/-- A line that begins with another character than a message. -/
theorem line_returns {l : List UInt8} (hl : Verbatim l)
    (hother : l.head?.any (· ≠ ascii 'S') = true) :
    Returns (m.printf (l ++ [ascii '\n']) []) m [] m.state := by
  have hdecode := decodeLine_other hother []
  rw [List.append_nil] at hdecode
  exact returns_print m (printf_line m hl) (says_nothing hl.2.2 hdecode)

/-- A line that begins so and has a string behind it. -/
theorem string_returns {l p : List UInt8} (hl : Verbatim l)
    (hother : l.head?.any (· ≠ ascii 'S') = true) (hp : OneLine p) :
    Returns (m.printf (l ++ codes "%s\n") [.string p]) m [] m.state := by
  have hline : ascii '\n' ∉ l ++ (p ++ []) := by
    rw [List.append_nil, List.mem_append, not_or]
    exact ⟨hl.2.2, hp.2.1⟩
  have hnil : Verbatim [] := by decide
  exact returns_print m (printf_string m hl hnil hp)
    (says_nothing hline (decodeLine_other hother _))

/-- A line that begins so and has a number behind it. -/
theorem hex_returns {l : List UInt8} (hl : Verbatim l)
    (hother : l.head?.any (· ≠ ascii 'S') = true) (v : BitVec 32) :
    Returns (m.printf (l ++ codes "%#x\n") [.int v]) m [] m.state := by
  have hline : ascii '\n' ∉ l ++ (codes "0x" ++ digitText .x v.toNat) := by
    have hx : ascii '\n' ∉ codes "0x" := by decide
    rw [List.mem_append, List.mem_append, not_or, not_or]
    exact ⟨hl.2.2, hx, newline_not_mem_digitText _ _⟩
  refine returns_print m (printf_eq m ?_) (says_nothing hline (decodeLine_other hother _))
  rw [xvprintfInternal_verbatim _ _ _ hl]
  refine (xvprintfInternal_hex [ascii '\n'] [] _ v).trans ?_
  rw [xvprintfInternal_newline, xvprintfInternal_nil]
  simp only [List.append_assoc]
  rfl

/-- The rest of a line that begins so. -/
theorem rest_returns {l l' : List UInt8} (hl : Verbatim l)
    (hother : l.head?.any (· ≠ ascii 'S') = true) (hl' : Verbatim l') :
    Returns ((m.print l).printf (l' ++ [ascii '\n']) []) m [] m.state := by
  have hline : ascii '\n' ∉ l ++ l' := by
    rw [List.mem_append, not_or]
    exact ⟨hl.2.2, hl'.2.2⟩
  refine returns_print m ?_ (says_nothing hline (decodeLine_other hother _))
  rw [printf_line _ hl', print_print, List.append_assoc]

theorem Returns.quiet {r : Except Stop (Machine σ)} {next : Machine σ → Except Stop (Machine σ)}
    {m : Machine σ} (h : Returns r m [] m.state)
    (hnext : ∀ m', m'.environment = m.environment → Returns (next m') m' [] m'.state) :
    Returns (r >>= next) m [] m.state :=
  h.bind fun m' hadds => hadds.state ▸ hnext m' hadds.environment

theorem printEnvironmentInfo_returns (he : m.environment.Printable) :
    Returns m.printEnvironmentInfo m [] m.state := by
  have hboot : ∀ b, OneLine (bootMethodName b) := by
    intro b
    cases b <;> decide
  have hempty : ∀ m : Machine σ, Returns (m.printf (codes "\n") []) m [] m.state := fun m =>
    returns_print m (printf_line m (by decide : Verbatim [])) (says_nothing (by decide) rfl)
  unfold Machine.printEnvironmentInfo
  refine (line_returns m (l := codes "Running Guest Test") (by decide) (by decide)).quiet
    fun m₁ h₁ => ?_
  refine (hex_returns m₁ (l := codes "  load addr : ") (by decide) (by decide) _).quiet
    fun m₂ h₂ => ?_
  refine (string_returns m₂ (l := codes "  boot      : ") (by decide) (by decide) (hboot _)).quiet
    fun m₃ h₃ => ?_
  have h₃ : m₃.environment = m.environment := h₃.trans (h₂.trans h₁)
  refine (string_returns m₃ (l := codes "  cmdline   : ") (by decide) (by decide)
    (h₃ ▸ he.cmdline)).quiet fun m₄ h₄ => ?_
  refine (string_returns m₄ (l := codes "  cpu vendor: ") (by decide) (by decide)
    (h₄ ▸ h₃ ▸ he.vendorId)).quiet fun m₅ h₅ => ?_
  refine (string_returns m₅ (l := codes "  cpu       : ") (by decide) (by decide)
    (h₅ ▸ h₄ ▸ h₃ ▸ he.brandString)).quiet fun m₆ h₆ => ?_
  have hspaces : Verbatim (codes "              ") := by decide
  have hset : Verbatim (codes "Hypervisor bit set") := by decide
  have hnot : Verbatim (codes "Hypervisor bit not set") := by decide
  rw [printf_verbatim m₆ hspaces, ok_bind]
  dsimp only
  split_ifs
  · exact (rest_returns m₆ hspaces (by decide) hset).quiet fun m₇ _ => hempty m₇
  · exact (rest_returns m₆ hspaces (by decide) hnot).quiet fun m₇ _ => hempty m₇

end Messages

section Runs

variable {σ : Type} (m : Machine σ)

/-- A failed check leaves the part of the program if the frame of the test function is saved. -/
theorem call_returns {part : σ → Ran σ} (hquiet : Quiet part)
    (hframe : (part m.state).message = none ∨ m.env.isSome ∧ m.env = m.running) :
    ∃ m', m.call part = .ok (decide ((part m.state).message = none), m') ∧
      Adds m m' [] (part m.state).state := by
  have hsays := hquiet m.state
  unfold Machine.call
  generalize part m.state = ran at hsays hframe ⊢
  obtain ⟨printed, message, state⟩ := ran
  cases message with
  | none =>
    rw [Option.getD_none, List.append_nil] at hsays
    exact ⟨_, rfl, rfl, rfl, rfl, printed, rfl, hsays⟩
  | some message =>
    have hensure := ensure_of Stop.longjmp (hframe.resolve_left (Option.some_ne_none _))
    refine ⟨{ m with console := m.console ++ printed ++ message, state }, ?_, rfl, rfl, rfl,
      printed ++ message, List.append_assoc _ _ _, hsays⟩
    dsimp only
    rw [hensure, ok_bind]
    rfl

variable {t : TestCase σ}

theorem body_returns (ht : t.Tidy) (hrunning : m.running.isSome) :
    ∃ m', t.body m = .ok (t.result m.environment.cmdline m.state, m') ∧
      Adds m m' [] (t.after m.environment.cmdline m.state) := by
  have hhead : Verbatim (codes "test case: ") := by decide
  obtain ⟨m₁, hm₁, hadds⟩ := string_returns m hhead (by decide) ht.name
  rw [TestCase.body, show codes "test case: %s\n" = codes "test case: " ++ codes "%s\n" from rfl,
    hm₁, ok_bind, TestCase.result, TestCase.after, TestCase.skips, ← hadds.state,
    ← hadds.environment, decide_disables]
  cases hcondition : t.condition m₁.state with
  | false =>
    have hline : Verbatim (codes "- skipping as condition is NOT met: `" ++ t.conditionText ++
        codes "`") := (Verbatim.append (by decide) ht.conditionText).append (by decide)
    obtain ⟨m₂, hm₂, hadds₂⟩ := line_returns m₁ hline rfl
    rw [if_pos rfl, show codes "`\n" = codes "`" ++ [ascii '\n'] from rfl, ← List.append_assoc, hm₂]
    exact ⟨m₂, rfl, hadds.trans hadds₂⟩
  | true =>
    rw [if_neg (by decide)]
    cases hdisabled : testcaseDisabledByCmdline m₁.environment.cmdline t.name with
    | true =>
      have hline : Verbatim (codes "- skipping as test case is disabled via cmdline") := by decide
      obtain ⟨m₂, hm₂, hadds₂⟩ := line_returns m₁ hline (by decide)
      rw [if_pos rfl, show codes "- skipping as test case is disabled via cmdline\n" =
        codes "- skipping as test case is disabled via cmdline" ++ [ascii '\n'] from rfl, hm₂]
      exact ⟨m₂, rfl, hadds.trans hadds₂⟩
    | false =>
      obtain ⟨m₂, hm₂, hadds₂⟩ := call_returns { m₁ with env := m₁.running } ht.quiet
        (Or.inr ⟨hadds.running ▸ hrunning, rfl⟩)
      rw [if_neg Bool.false_ne_true, hm₂]
      refine ⟨m₂, ?_, hadds.trans ⟨hadds₂.environment, hadds₂.running, hadds₂.state,
        hadds₂.console⟩⟩
      simp only [ok_bind, pure_eq_ok, decide_eq_true_eq, Bool.not_true, Bool.or_self,
        Bool.false_eq_true, if_false]

theorem fn_returns (ht : t.Tidy) (hrunning : m.running = none) :
    ∃ m', t.fn m = .ok (t.result m.environment.cmdline m.state, m') ∧
      Adds m m' [] (t.after m.environment.cmdline m.state) := by
  obtain ⟨m₁, hm₁, hadds⟩ :=
    body_returns { m with running := some m.frames, frames := m.frames + 1 } ht rfl
  rw [TestCase.fn, hm₁]
  exact ⟨_, rfl, hadds.environment, hrunning.symm, hadds.state, hadds.console⟩

/-- A test is reported, and the next one goes on behind it. -/
theorem run_returns (ht : t.Tidy) (hrunning : m.running = none) :
    ∃ passed m', t.run m = .ok (passed, m') ∧
      Adds m m' [.report (t.report m.environment.cmdline m.state)]
        (t.after m.environment.cmdline m.state) := by
  obtain ⟨m₁, hm₁, hadds⟩ := fn_returns m ht hrunning
  have hname : OneLine (t.name.map ascii) := by
    obtain ⟨hnul, hline, hlength⟩ := ht.name
    rw [List.length_append] at hlength
    rw [List.mem_append, not_or] at hnul hline
    exact ⟨hnul.2, hline.2, by omega⟩
  rw [TestCase.run, hm₁, ok_bind, TestCase.report]
  cases t.result m.environment.cmdline m.state with
  | success =>
    obtain ⟨m₂, hm₂, hadds₂⟩ := protocolSuccess_returns m₁ hname
    dsimp only
    rw [hm₂]
    exact ⟨_, _, rfl, hadds.state ▸ hadds.trans hadds₂⟩
  | failure =>
    obtain ⟨m₂, hm₂, hadds₂⟩ := protocolFail_returns m₁ hname
    dsimp only
    rw [hm₂]
    exact ⟨_, _, rfl, hadds.state ▸ hadds.trans hadds₂⟩
  | skipped =>
    obtain ⟨m₂, hm₂, hadds₂⟩ := protocolSkip_returns m₁
    dsimp only
    rw [hm₂]
    exact ⟨_, _, rfl, hadds.state ▸ hadds.trans hadds₂⟩

variable {ts : List (TestCase σ)}

theorem tests_return (hts : ∀ t ∈ ts, t.Tidy) (hrunning : m.running = none) :
    Returns (ts.foldlM (fun m t => do return (← t.run m).2) m) m
      ((reports m.environment.cmdline ts m.state).map .report)
      (afterAll m.environment.cmdline ts m.state) := by
  induction ts generalizing m with
  | nil => exact ⟨m, rfl, rfl, rfl, rfl, [], (List.append_nil _).symm, [], rfl, by simp, rfl⟩
  | cons t ts ih =>
    obtain ⟨passed, m₁, hm₁, hadds⟩ := run_returns m (hts t List.mem_cons_self) hrunning
    have hrest := ih m₁ (fun t' ht' => hts t' (List.mem_cons_of_mem _ ht'))
      (hadds.running.trans hrunning)
    rw [hadds.environment, hadds.state] at hrest
    rw [List.foldlM_cons, hm₁]
    obtain ⟨m₂, hm₂, hadds₂⟩ := hrest
    exact ⟨m₂, hm₂, hadds.trans hadds₂⟩

theorem runSuite_returns (hts : ∀ t ∈ ts, t.Tidy) (hrunning : m.running = none) :
    Returns (runSuite ts m) m (.start (ts.length % 2 ^ 32) ::
        ((reports m.environment.cmdline ts m.state).map .report ++ [.finish]))
      (afterAll m.environment.cmdline ts m.state) := by
  refine (protocolBegin_returns m ts.length).bind fun m₁ hadds => ?_
  rw [← hadds.environment, ← hadds.state]
  refine (tests_return m₁ hts (hadds.running.trans hrunning)).bind fun m₂ hadds₂ => ?_
  rw [← hadds₂.state]
  exact protocolEnd_returns m₂

end Runs

section Program

variable {σ : Type} {program : TestProgram σ} {m : Machine σ}

/-- What has to hold for the results of a test program to be found: its strings fit in a line, and
what it prints besides the messages is made of lines that are none. -/
structure TestProgram.Tidy (program : TestProgram σ) (m : Machine σ) : Prop where
  environment : m.environment.Printable
  tests : ∀ t ∈ program.testCases, t.Tidy
  prologue : Quiet program.prologue
  epilogue : Quiet program.epilogue

/-- The state in which the epilogue begins. -/
def TestProgram.tested (program : TestProgram σ) (m : Machine σ) : σ :=
  afterAll m.environment.cmdline program.testCases (program.prologue m.state).state

theorem reportsOf_append (rs : List Report) :
    reportsOf (rs.map Message.report ++ [.finish]) = some rs := by
  induction rs with
  | nil => rfl
  | cons r rs ih =>
    rw [List.map_cons, List.cons_append, reportsOf, ih]
    rfl

/-- Without a saved frame that is the current one, a failed check cannot leave. -/
theorem call_stops {part : σ → Ran σ} (hrunning : m.running = none)
    (hmessage : (part m.state).message ≠ none) : m.call part = .error .longjmp := by
  obtain ⟨message, hmessage⟩ := Option.ne_none_iff_exists'.mp hmessage
  have hframe : ¬(m.env.isSome ∧ m.env = m.running) := by
    rintro ⟨hsome, hnone⟩
    rw [hnone, hrunning] at hsome
    cases hsome
  unfold Machine.call
  dsimp only
  rw [hmessage]
  dsimp only
  rw [ensure_not _ hframe]
  rfl

/-- What happens in front of the epilogue. -/
theorem main_eq (hrunning : m.running = none) (hprogram : program.Tidy m)
    (hprologue : (program.prologue m.state).message = none) :
    ∃ m', main program m = (do return (← m'.call program.epilogue).2) ∧
      Adds m m' (.start (program.testCases.length % 2 ^ 32) ::
        ((reports m.environment.cmdline program.testCases
          (program.prologue m.state).state).map .report ++ [.finish])) (program.tested m) := by
  obtain ⟨m₁, hm₁, hadds₁⟩ := printEnvironmentInfo_returns m hprogram.environment
  obtain ⟨m₂, hm₂, hadds₂⟩ := call_returns m₁ hprogram.prologue
    (Or.inl (hadds₁.state.symm ▸ hprologue))
  rw [hadds₁.state] at hadds₂
  have hadds₂ := hadds₁.trans hadds₂
  obtain ⟨m₃, hm₃, hadds₃⟩ := runSuite_returns m₂ hprogram.tests (hadds₂.running.trans hrunning)
  rw [hadds₂.environment, hadds₂.state] at hadds₃
  refine ⟨m₃, ?_, hadds₂.trans hadds₃⟩
  rw [main, hm₁, ok_bind, hm₂, ok_bind]
  dsimp only
  rw [hm₃]
  rfl

/-- A part of a program that prints nothing and does nothing. -/
def nothing (s : σ) : Ran σ := ⟨[], none, s⟩

theorem says_nil : Says [] [] := ⟨[], rfl, by simp, rfl⟩

/-- A test program with a test that fails, one that passes if it runs second, one that needs a
device that is not there and one that fails if it is not disabled; the state is the number of tests
that ran. -/
def smokeTest : TestProgram ℕ where
  prologue := nothing
  testCases := [
    ⟨"fails".toList, codes "true", fun _ => true,
      fun n => ⟨[], some (codes "Assertion failed\r\n"), n + 1⟩⟩,
    ⟨"passes".toList, codes "true", fun _ => true,
      fun n => ⟨[], if n = 1 then none else some (codes "Assertion failed\r\n"), n + 1⟩⟩,
    ⟨"needs_device".toList, codes "false", fun _ => false, nothing⟩,
    ⟨"slow".toList, codes "true", fun _ => true,
      fun n => ⟨[], some (codes "Assertion failed\r\n"), n + 1⟩⟩]
  epilogue := nothing

/-- A machine that has just been started, with a command line that disables the last test. -/
def smokeMachine : Machine ℕ :=
  ⟨[], ⟨0x400000, .multiboot2, "/k --serial --disable-testcases=other,test_slow".toList,
    codes "GenuineIntel", codes "CPU", true⟩, none, 0, none, 0⟩

theorem says_failed : Says (codes "Assertion failed\r\n") [] :=
  says_nothing (l := codes "Assertion failed") (by decide) (by decide)

theorem smokeTest_tidy : smokeTest.Tidy smokeMachine := by
  have hnothing : Quiet (nothing (σ := ℕ)) := fun _ => says_nil
  refine ⟨⟨by decide, by decide, by decide⟩, fun t ht => ?_, hnothing, hnothing⟩
  simp only [smokeTest, List.mem_cons, List.not_mem_nil, or_false] at ht
  rcases ht with rfl | rfl | rfl | rfl
  · exact ⟨by decide, by decide, fun _ => says_failed⟩
  · refine ⟨by decide, by decide, fun n => ?_⟩
    dsimp only
    split_ifs
    · exact says_nil
    · exact says_failed
  · exact ⟨by decide, by decide, hnothing⟩
  · exact ⟨by decide, by decide, fun _ => says_failed⟩

/-- The same tests with a check that fails behind them. -/
def cleanupTest : TestProgram ℕ :=
  ⟨smokeTest.prologue, smokeTest.testCases,
    fun n => ⟨[], some (codes "Assertion failed\r\n"), n⟩⟩

theorem cleanupTest_tidy : cleanupTest.Tidy smokeMachine :=
  ⟨smokeTest_tidy.environment, smokeTest_tidy.tests, smokeTest_tidy.prologue, fun _ => says_failed⟩

end Program

end Toyos.Baretest
