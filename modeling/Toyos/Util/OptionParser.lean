import Mathlib.Data.List.TakeWhile
import Mathlib.Data.List.Infix

/-!
# The option parser

The parser of the bundled library in its default mode, for long options with an
optional argument: it stops at the first argument that is no option and at a bare
`--`, passes over unknown options, and links repeated options behind the first.
An option is found exactly when it comes before the argument at which the parser
stops.
-/

namespace Toyos.Util

/-- `option::Descriptor` of an option without short form and with `Arg::Optional`. -/
structure Descriptor (ι : Type) where
  index : ι
  longopt : List Char
  deriving DecidableEq, Repr

/-- `option::Option`; the argument is null unless it was attached. -/
structure ParsedOption (ι : Type) where
  index : ι
  arg : Option (List Char)
  deriving DecidableEq, Repr

namespace OptionParser

/-- `streq`. -/
def streq : List Char → List Char → Bool
  | [], [] => true
  | [], c :: _ => c = '='
  | _ :: _, [] => false
  | a :: as, b :: bs => a = b && streq as bs

/-- The argument of a long option behind its first `=`. -/
def attachedArg (longoptName : List Char) : Option (List Char) :=
  match longoptName.dropWhile (· ≠ '=') with
  | [] => none
  | _ :: optarg => some optarg

variable {ι : Type}

/-- The option with a long name; unknown options have no descriptor. -/
def longOption (usage : List (Descriptor ι)) (longoptName : List Char) :
    Option (ParsedOption ι) :=
  (usage.find? fun d => streq d.longopt longoptName).map fun d =>
    ⟨d.index, attachedArg longoptName⟩

/-- `workhorse`: the options in the order they are performed. As no descriptor has a short form,
a group of short options is unknown as a whole. -/
def workhorse (usage : List (Descriptor ι)) : List (List Char) → List (ParsedOption ι)
  | [] => []
  | param :: args =>
    if param[0]? ≠ some '-' ∨ param[1]? = none then []
    else if param[1]? = some '-' ∧ param[2]? = none then []
    else if param[1]? = some '-' then
      (longOption usage (param.drop 2)).toList ++ workhorse usage args
    else workhorse usage args

/-- `options[idx]` after parsing: the first of the options linked there. -/
def parse [DecidableEq ι] (usage : List (Descriptor ι)) (args : List (List Char)) (idx : ι) :
    Option (ParsedOption ι) :=
  (workhorse usage args).find? fun o => o.index = idx

/-- The argument gives an option with its name, alone or followed by `=`. -/
def IsOption (name w : List Char) : Prop :=
  w = '-' :: '-' :: name ∨ '-' :: '-' :: (name ++ ['=']) <+: w

instance (name : List Char) : DecidablePred (IsOption name) := fun w => by
  unfold IsOption
  infer_instance

/-- The text behind the first `=`, empty without one. -/
def valueOf (w : List Char) : List Char := (w.dropWhile (· ≠ '=')).drop 1

/-- The parser stops at this argument. -/
def Stops (w : List Char) : Prop := w[0]? ≠ some '-' ∨ w[1]? = none ∨ w = ['-', '-']

instance : DecidablePred Stops := fun w => by
  unfold Stops
  infer_instance

variable {name s : List Char}

/-- The comparison accepts the name, alone or followed by `=`. -/
theorem streq_iff : streq name s = true ↔ s = name ∨ name ++ ['='] <+: s := by
  induction name generalizing s with
  | nil =>
    cases s with
    | nil => simp [streq]
    | cons c cs => simp [streq, eq_comm]
  | cons a as ih =>
    cases s with
    | nil => simp [streq]
    | cons c cs =>
      simp only [streq, Bool.and_eq_true, decide_eq_true_eq, ih, List.cons_append,
        List.cons_prefix_cons, List.cons.injEq]
      rw [eq_comm (a := c), ← and_or_left]

/-- The names of which an option is an instance agree. -/
theorem takeWhile_of_streq (hname : '=' ∉ name) (h : streq name s = true) :
    s.takeWhile (· ≠ '=') = name := by
  have hall : ∀ c ∈ name, decide (c ≠ '=') = true := by
    intro c hc
    exact decide_eq_true fun he => hname (he ▸ hc)
  rcases streq_iff.mp h with rfl | ⟨rest, rfl⟩
  · exact List.takeWhile_eq_self_iff.mpr hall
  · rw [List.append_assoc, List.takeWhile_append_of_pos hall]
    simp

/-- A long option is an option with the name that the comparison accepts. -/
theorem isOption_cons : IsOption name ('-' :: '-' :: s) ↔ streq name s = true := by
  rw [streq_iff, IsOption]
  simp [List.cons_prefix_cons]

/-- Options begin with two dashes. -/
theorem IsOption.eq_cons {w : List Char} (h : IsOption name w) : ∃ s, w = '-' :: '-' :: s := by
  rcases h with rfl | ⟨rest, rfl⟩
  · exact ⟨name, rfl⟩
  · exact ⟨name ++ ['='] ++ rest, by simp⟩

theorem attachedArg_getD : (attachedArg s).getD [] = valueOf ('-' :: '-' :: s) := by
  have hdrop : ('-' :: '-' :: s).dropWhile (· ≠ '=') = s.dropWhile (· ≠ '=') := by simp
  rw [attachedArg, valueOf, hdrop]
  cases s.dropWhile (· ≠ '=') with
  | nil => rfl
  | cons c rest => rfl

/-- Names without `=` and without repetition tell the options apart. -/
structure Distinct (usage : List (Descriptor ι)) : Prop where
  plain : ∀ d ∈ usage, '=' ∉ d.longopt
  of_longopt : ∀ d ∈ usage, ∀ d' ∈ usage, d.longopt = d'.longopt → d = d'
  of_index : ∀ d ∈ usage, ∀ d' ∈ usage, d.index = d'.index → d = d'

variable {usage : List (Descriptor ι)} {d : Descriptor ι}

/-- A long option gets the descriptor with its name. -/
theorem Distinct.longOption_eq (h : Distinct usage) (hd : d ∈ usage)
    (hs : streq d.longopt s = true) : longOption usage s = some ⟨d.index, attachedArg s⟩ := by
  have hfind : usage.find? (fun d => streq d.longopt s) = some d := by
    cases hfirst : usage.find? fun d => streq d.longopt s with
    | none => exact absurd hs (List.find?_eq_none.mp hfirst d hd)
    | some d' =>
      have hd' := List.mem_of_find?_eq_some hfirst
      have hs' := List.find?_some hfirst
      have hname : d'.longopt = d.longopt := by
        rw [← takeWhile_of_streq (h.plain d hd) hs, takeWhile_of_streq (h.plain d' hd') hs']
      rw [h.of_longopt d' hd' d hd hname]
  rw [longOption, hfind]
  rfl

/-- Other long options go elsewhere. -/
theorem Distinct.longOption_ne (h : Distinct usage) (hd : d ∈ usage)
    (hs : ¬streq d.longopt s = true) {o : ParsedOption ι} (ho : longOption usage s = some o) :
    o.index ≠ d.index := by
  intro hindex
  obtain ⟨d', hfirst, rfl⟩ := Option.map_eq_some_iff.mp ho
  have hsame := h.of_index d' (List.mem_of_find?_eq_some hfirst) d hd hindex
  have hfound := List.find?_some hfirst
  rw [hsame] at hfound
  exact hs hfound

/-- An argument at which the parser goes on has two characters, and a third one after two
dashes. -/
theorem exists_of_not_stops {w : List Char} (h : ¬Stops w) :
    ∃ c s, w = '-' :: c :: s ∧ (c = '-' → s ≠ []) := by
  cases w with
  | nil => simp [Stops] at h
  | cons a rest =>
    cases rest with
    | nil => simp [Stops] at h
    | cons c s =>
      have ha : a = '-' := by
        by_contra hne
        exact h (.inl (by simpa using hne))
      refine ⟨c, s, by rw [ha], ?_⟩
      rintro rfl rfl
      exact h (.inr (.inr (by rw [ha])))

theorem workhorse_of_stops {w : List Char} (h : Stops w) (args : List (List Char)) :
    workhorse usage (w :: args) = [] := by
  rcases h with hfirst | hsecond | rfl
  · simp [workhorse, hfirst]
  · simp [workhorse, hsecond]
  · simp [workhorse]

theorem workhorse_long (hs : s ≠ []) (args : List (List Char)) :
    workhorse usage (('-' :: '-' :: s) :: args) =
      (longOption usage s).toList ++ workhorse usage args := by
  simp [workhorse, hs]

theorem workhorse_short {c : Char} (hc : c ≠ '-') (args : List (List Char)) :
    workhorse usage (('-' :: c :: s) :: args) = workhorse usage args := by
  simp [workhorse, hc]

/-- The arguments up to the one at which the parser stops. -/
def seen (args : List (List Char)) : List (List Char) := args.takeWhile fun w => ¬Stops w

/-- What the parser finds for an option is the first argument for it before it stops. -/
theorem Distinct.parse_eq [DecidableEq ι] (h : Distinct usage) (hd : d ∈ usage)
    (args : List (List Char)) :
    (parse usage args d.index).map (fun o => o.arg.getD []) =
      ((seen args).find? fun w => IsOption d.longopt w).map valueOf := by
  induction args with
  | nil => rfl
  | cons param args ih =>
    by_cases hstop : Stops param
    · have hseen : seen (param :: args) = [] := by simp [seen, hstop]
      rw [parse, workhorse_of_stops hstop, hseen]
      rfl
    · have hseen : seen (param :: args) = param :: seen args := by simp [seen, hstop]
      obtain ⟨c, s, rfl, hlong⟩ := exists_of_not_stops hstop
      rw [hseen, parse]
      by_cases hc : c = '-'
      · subst hc
        rw [workhorse_long (hlong rfl)]
        by_cases hs : streq d.longopt s = true
        · rw [h.longOption_eq hd hs, List.find?_cons_of_pos (by simpa using isOption_cons.mpr hs)]
          simp [attachedArg_getD]
        · have hnot : ¬IsOption d.longopt ('-' :: '-' :: s) := fun ho => hs (isOption_cons.mp ho)
          have hnone : (longOption usage s).toList.find? (fun o => o.index = d.index) = none := by
            rw [List.find?_eq_none]
            intro o ho
            simpa using h.longOption_ne hd hs (Option.mem_toList.mp ho)
          rw [List.find?_append, hnone, Option.none_or,
            List.find?_cons_of_neg (by simpa using hnot)]
          exact ih
      · have hnot : ¬IsOption d.longopt ('-' :: c :: s) := by
          intro ho
          obtain ⟨s', hs'⟩ := ho.eq_cons
          simp only [List.cons.injEq] at hs'
          exact hc hs'.2.1
        rw [workhorse_short hc, List.find?_cons_of_neg (by simpa using hnot)]
        exact ih

end OptionParser

end Toyos.Util
