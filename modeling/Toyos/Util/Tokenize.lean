import Mathlib.Data.List.TakeWhile

/-!
# Tokens

`tokenize` collects the characters between separators and keeps what is not
empty. `split` cuts at every delimiter and keeps empty items, except that nothing
comes out of an empty source. Both are compared with the splitting of lists.
-/

namespace Toyos.Util

variable {α : Type} [DecidableEq α]

/-- `arg.find_first_not_of(token) != npos`. -/
def hasOther (token : α) (arg : List α) : Bool := arg.any (· ≠ token)

/-- The effect of one character on the current argument and the tokens so far. -/
def tokenizeRound (token : α) (s : List α × List (List α)) (c : α) : List α × List (List α) :=
  let (arg, ret) := s
  if c = token then
    ([], if hasOther token arg then ret ++ [arg] else ret)
  else (arg ++ [c], ret)

/-- `tokenize`. -/
def tokenize (input : List α) (token : α) : List (List α) :=
  let (arg, ret) := input.foldl (tokenizeRound token) ([], [])
  if hasOther token arg then ret ++ [arg] else ret

variable {token : α} {arg : List α}

/-- An argument is kept unless it is empty. -/
theorem keep_eq (h : token ∉ arg) (ret : List (List α)) :
    (if hasOther token arg then ret ++ [arg] else ret) = ret ++ [arg].filter (· ≠ []) := by
  cases arg with
  | nil => simp [hasOther]
  | cons c cs =>
    have hc : c ≠ token := fun he => h (by simp [he])
    simp [hasOther, hc]

/-- The tokens of a current argument and the input that is left. -/
theorem foldl_tokenizeRound (h : token ∉ arg) (ret : List (List α)) (input : List α) :
    (fun s : List α × List (List α) => if hasOther token s.1 then s.2 ++ [s.1] else s.2)
      (input.foldl (tokenizeRound token) (arg, ret)) =
      ret ++ ((arg ++ input).splitOn token).filter (· ≠ []) := by
  induction input generalizing arg ret with
  | nil =>
    rw [List.foldl_nil, List.append_nil, List.splitOn_eq_singleton h]
    exact keep_eq h ret
  | cons c cs ih =>
    by_cases hc : c = token
    · subst hc
      have hround : tokenizeRound c (arg, ret) c = ([], ret ++ [arg].filter (· ≠ [])) := by
        rw [tokenizeRound, if_pos rfl, keep_eq h]
      rw [List.foldl_cons, hround, ih List.not_mem_nil, List.nil_append, List.append_assoc,
        List.splitOn_append_cons_self_of_not_mem h, ← List.filter_append, List.singleton_append]
    · have hround : tokenizeRound token (arg, ret) c = (arg ++ [c], ret) := by
        rw [tokenizeRound, if_neg hc]
      have hmem : token ∉ arg ++ [c] := by
        rw [List.mem_append, List.mem_singleton]
        exact fun hor => hor.elim h fun he => hc he.symm
      rw [List.foldl_cons, hround, ih hmem, List.append_assoc, List.singleton_append]

/-- The tokens are the nonempty pieces between separators. -/
theorem tokenize_eq (input : List α) (token : α) :
    tokenize input token = (input.splitOn token).filter (· ≠ []) :=
  foldl_tokenizeRound List.not_mem_nil [] input

/-- The pieces of a list hold characters of the list other than the separator. -/
theorem mem_and_ne_of_mem_splitOn {input word : List α} {c : α}
    (hword : word ∈ input.splitOn token) (hc : c ∈ word) : c ∈ input ∧ c ≠ token := by
  induction input generalizing word with
  | nil =>
    rw [List.splitOn_nil, List.mem_singleton] at hword
    rw [hword] at hc
    cases hc
  | cons x xs ih =>
    have hlater (word : List α) (hword : word ∈ xs.splitOn token) (hc : c ∈ word) :
        c ∈ x :: xs ∧ c ≠ token :=
      (ih hword hc).imp_left (List.mem_cons_of_mem x)
    rw [List.splitOn_cons_eq_if_modifyHead] at hword
    split at hword
    · rcases List.mem_cons.mp hword with rfl | hrest
      · exact absurd hc List.not_mem_nil
      · exact hlater word hrest hc
    · rename_i hx
      cases hpieces : xs.splitOn token with
      | nil => exact absurd hpieces (List.splitOn_ne_nil token xs)
      | cons first rest =>
        rw [hpieces] at hlater hword
        rcases List.mem_cons.mp hword with rfl | hrest
        · rcases List.mem_cons.mp hc with rfl | hold
          · exact ⟨List.mem_cons_self, by simpa using hx⟩
          · exact hlater first List.mem_cons_self hold
        · exact hlater word (List.mem_cons_of_mem first hrest) hc

/-- The loop of `split` over what is left of the string. -/
def splitLoop (delimiter : α) (string : List α) (items : List (List α)) : List (List α) :=
  match _h : string.dropWhile (· ≠ delimiter) with
  | [] => items ++ [string]
  | _ :: rest => splitLoop delimiter rest (items ++ [string.takeWhile (· ≠ delimiter)])
termination_by string.length
decreasing_by
  have hle := (List.dropWhile_sublist (l := string) (· ≠ delimiter)).length_le
  rw [_h, List.length_cons] at hle
  omega

/-- `util::string::split`. -/
def split (source : List α) (delimiter : α) : List (List α) :=
  if source = [] then [] else splitLoop delimiter source []

/-- What is dropped begins with the delimiter, and no delimiter is before it. -/
theorem eq_append_of_dropWhile {delimiter c : α} {string rest : List α}
    (h : string.dropWhile (· ≠ delimiter) = c :: rest) :
    delimiter ∉ string.takeWhile (· ≠ delimiter) ∧
      string = string.takeWhile (· ≠ delimiter) ++ delimiter :: rest := by
  have hc := List.head?_dropWhile_not (fun x => decide (x ≠ delimiter)) string
  rw [h, List.head?_cons] at hc
  obtain rfl : c = delimiter := by simpa using hc
  refine ⟨fun hmem => ?_, ?_⟩
  · have hall := List.mem_takeWhile_imp hmem
    simp at hall
  · rw [← h]
    exact List.takeWhile_append_dropWhile.symm

/-- The loop cuts at every delimiter. -/
theorem splitLoop_eq (delimiter : α) (string : List α) (items : List (List α)) :
    splitLoop delimiter string items = items ++ string.splitOn delimiter := by
  fun_induction splitLoop delimiter string items with
  | case1 string items h =>
    have hmem : delimiter ∉ string := by
      intro hmem
      have hall := List.dropWhile_eq_nil_iff.mp h delimiter hmem
      simp at hall
    rw [List.splitOn_eq_singleton hmem]
  | case2 string items c rest h ih =>
    obtain ⟨hmem, hstring⟩ := eq_append_of_dropWhile h
    have hsplit : string.splitOn delimiter =
        string.takeWhile (· ≠ delimiter) :: rest.splitOn delimiter := by
      rw [← List.splitOn_append_cons_self_of_not_mem hmem rest, ← hstring]
    rw [ih, hsplit, List.append_assoc, List.singleton_append]

/-- A source that is not empty is cut at every delimiter. -/
theorem split_eq (source : List α) (delimiter : α) :
    split source delimiter = if source = [] then [] else source.splitOn delimiter := by
  rw [split, splitLoop_eq, List.nil_append]

/-- The number of pieces. -/
theorem length_splitOn (delimiter : α) (source : List α) :
    (source.splitOn delimiter).length = source.count delimiter + 1 := by
  induction source with
  | nil => rfl
  | cons c cs ih =>
    rw [List.splitOn_cons_eq_if_modifyHead, List.count_cons]
    split
    · rw [List.length_cons, ih]
    · rw [List.length_modifyHead, ih, Nat.add_zero]

/-- A list of strings is what a string was joined from with a delimiter between them. -/
structure Joins (source : List α) (delimiter : α) (words : List (List α)) : Prop where
  /-- No string holds the delimiter. -/
  free : ∀ word ∈ words, delimiter ∉ word
  /-- The strings joined with the delimiter give the whole string. -/
  joined : [delimiter].intercalate words = source

/-- There is exactly one list of strings that a string was joined from. -/
theorem joins_iff_eq_splitOn {source : List α} {delimiter : α} (h : source ≠ [])
    (words : List (List α)) : Joins source delimiter words ↔ words = source.splitOn delimiter := by
  constructor
  · rintro ⟨hfree, rfl⟩
    refine (List.splitOn_intercalate delimiter hfree ?_).symm
    rintro rfl
    exact h rfl
  · rintro rfl
    refine ⟨fun word hword hmem => ?_, List.intercalate_splitOn delimiter⟩
    exact (mem_and_ne_of_mem_splitOn hword hmem).2 rfl

/-- `split` returns the strings that a string was joined from, nothing for the empty string, and
`tokenize` returns those of them that are not empty. -/
theorem split_exact (source : List α) (delimiter : α) :
    (source ≠ [] → (∀ words, Joins source delimiter words ↔ words = split source delimiter) ∧
      (split source delimiter).length = source.count delimiter + 1) ∧
    split ([] : List α) delimiter = [] ∧
    tokenize source delimiter = (split source delimiter).filter (· ≠ []) := by
  refine ⟨fun h => ?_, rfl, ?_⟩
  · rw [split_eq, if_neg h]
    exact ⟨joins_iff_eq_splitOn h, length_splitOn delimiter source⟩
  · rw [tokenize_eq, split_eq]
    by_cases h : source = []
    · rw [if_pos h, h]
      rfl
    · rw [if_neg h]

end Toyos.Util
