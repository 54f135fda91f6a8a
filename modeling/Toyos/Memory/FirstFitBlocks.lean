import Toyos.Memory.FirstFitLayout

/-!
# Sequences of blocks

The region of a first-fit heap is a sequence of blocks. Memory holds the sequence
if it holds every block of it, each linked to the next free one. Parts of the
sequence can be changed on their own: what is written into one part, or into the
used blocks, does not matter to the others.
-/

namespace Toyos.Memory.FirstFit

open Toyos.Core

/-- The address behind a sequence of blocks. -/
def stop (c : Config) : ℕ → List Chunk → ℕ
  | p, [] => p
  | p, b :: l => stop c (p + c.alignment + b.size) l

/-- The address of the first free block of a sequence, or of the free block behind it. -/
def firstOf (c : Config) (nx : ℕ) : ℕ → List Chunk → ℕ
  | _, [] => nx
  | p, b :: l => if b.free then p else firstOf c nx (p + c.alignment + b.size) l

/-- The address of the last free block of a sequence, or of the free block before it. -/
def lastOf (c : Config) : ℕ → ℕ → List Chunk → ℕ
  | prev, _, [] => prev
  | prev, p, b :: l => lastOf c (if b.free then p else prev) (p + c.alignment + b.size) l

/-- Whether the last block of a sequence is free, or the block before it. -/
def endsFree : Bool → List Chunk → Bool
  | pf, [] => pf
  | _, b :: l => endsFree b.free l

/-- No block is free. -/
def AllUsed (l : List Chunk) : Prop := ∀ b ∈ l, b.free = false

/-- Memory holds a sequence of blocks; `nx` is the free block behind it. -/
def LayoutAt (c : Config) (m : Memory) (nx : ℕ) : ℕ → Bool → List Chunk → Prop
  | _, _, [] => True
  | p, pf, b :: l => ChunkAt c m p pf b (firstOf c nx (p + c.alignment + b.size) l) ∧
      LayoutAt c m nx (p + c.alignment + b.size) b.free l

/-- The address is behind the header of a used block. -/
def InUse (c : Config) (a : ℕ) : ℕ → List Chunk → Prop
  | _, [] => False
  | p, b :: l => b.free = false ∧ p + c.alignment ≤ a ∧ a < p + c.alignment + b.size ∨
      InUse c a (p + c.alignment + b.size) l

section Sequences

variable {c : Config} {m m' : Memory} {p q nx prev a : ℕ} {pf : Bool} {b : Chunk}
  {l l' pre post : List Chunk}

@[simp] theorem stop_nil : stop c p [] = p := rfl

@[simp] theorem stop_cons : stop c p (b :: l) = stop c (p + c.alignment + b.size) l := rfl

@[simp] theorem stop_append : stop c p (l ++ l') = stop c (stop c p l) l' := by
  induction l generalizing p with
  | nil => rfl
  | cons b l ih => exact ih

@[simp] theorem firstOf_append :
    firstOf c nx p (l ++ l') = firstOf c (firstOf c nx (stop c p l) l') p l := by
  induction l generalizing p with
  | nil => rfl
  | cons b l ih => rw [List.cons_append, firstOf, firstOf, ih, stop]

@[simp] theorem lastOf_append : lastOf c prev p (l ++ l') =
    lastOf c (lastOf c prev p l) (stop c p l) l' := by
  induction l generalizing prev p with
  | nil => rfl
  | cons b l ih => exact ih

@[simp] theorem endsFree_append : endsFree pf (l ++ l') = endsFree (endsFree pf l) l' := by
  induction l generalizing pf with
  | nil => rfl
  | cons b l ih => exact ih

theorem layoutAt_append : LayoutAt c m nx p pf (l ++ l') ↔
    LayoutAt c m (firstOf c nx (stop c p l) l') p pf l ∧
      LayoutAt c m nx (stop c p l) (endsFree pf l) l' := by
  induction l generalizing p pf with
  | nil => simp [LayoutAt, stop, endsFree]
  | cons b l ih =>
    rw [List.cons_append, LayoutAt, LayoutAt, ih, firstOf_append, stop, endsFree, and_assoc]

theorem inUse_append : InUse c a p (l ++ l') ↔ InUse c a p l ∨ InUse c a (stop c p l) l' := by
  induction l generalizing p with
  | nil => simp [InUse, stop]
  | cons b l ih => rw [List.cons_append, InUse, InUse, ih, stop, or_assoc]

theorem le_stop : p ≤ stop c p l := by
  induction l generalizing p with
  | nil => exact le_rfl
  | cons b l ih =>
    rw [stop]
    have := ih (p := p + c.alignment + b.size)
    omega

theorem InUse.bounds (h : InUse c a p l) : p + c.alignment ≤ a ∧ a < stop c p l := by
  induction l generalizing p with
  | nil => exact h.elim
  | cons b l ih =>
    rw [stop]
    rcases h with ⟨-, hl, hu⟩ | h
    · exact ⟨hl, hu.trans_le le_stop⟩
    · have := ih h
      omega

/-- Each block takes at least its header. -/
theorem length_le_stop : p + l.length ≤ stop c p l := by
  have ha := c.le_alignment
  induction l generalizing p with
  | nil => exact le_rfl
  | cons b l ih =>
    rw [stop, List.length_cons]
    have := ih (p := p + c.alignment + b.size)
    omega

theorem AllUsed.append (h : AllUsed l) (h' : AllUsed l') : AllUsed (l ++ l') := fun b hb =>
  (List.mem_append.mp hb).elim (h b) (h' b)

theorem AllUsed.firstOf_eq (h : AllUsed l) : firstOf c nx p l = nx := by
  induction l generalizing p with
  | nil => rfl
  | cons b l ih =>
    rw [firstOf, h b (by simp), ih fun b' hb' => h b' (by simp [hb'])]
    rfl

theorem AllUsed.lastOf_eq (h : AllUsed l) : lastOf c prev p l = prev := by
  induction l generalizing p with
  | nil => rfl
  | cons b l ih =>
    rw [lastOf, h b (by simp)]
    exact ih fun b' hb' => h b' (by simp [hb'])

theorem not_inUse_of_free (hfree : ∀ b ∈ l, b.free = true) : ¬InUse c a p l := by
  induction l generalizing p with
  | nil => exact id
  | cons b l ih =>
    rintro (⟨hused, -⟩ | hin)
    · rw [hfree b (by simp)] at hused
      cases hused
    · exact ih (fun b' hb' => hfree b' (by simp [hb'])) hin

theorem AllUsed.filter_eq (h : AllUsed l) : l.filter (·.free) = [] := by
  rw [List.filter_eq_nil_iff]
  intro b hb
  simp [h b hb]

/-- A sequence has no free block, or a first one. -/
theorem firstOf_cases (c : Config) (nx p : ℕ) (l : List Chunk) :
    AllUsed l ∨ ∃ skip b post, l = skip ++ b :: post ∧ AllUsed skip ∧ b.free = true ∧
      firstOf c nx p l = stop c p skip := by
  induction l generalizing p with
  | nil => exact .inl (by simp [AllUsed])
  | cons b l ih =>
    cases hb : b.free with
    | true => exact .inr ⟨[], b, l, rfl, by simp [AllUsed], hb, by simp [firstOf, hb, stop]⟩
    | false =>
      rcases ih (p + c.alignment + b.size) with hused | ⟨skip, b', post, rfl, hskip, hb', hfirst⟩
      · exact .inl (List.forall_mem_cons.mpr ⟨hb, hused⟩)
      · refine .inr ⟨b :: skip, b', post, rfl, List.forall_mem_cons.mpr ⟨hb, hskip⟩, hb', ?_⟩
        rw [firstOf, hb, stop, ← hfirst]
        rfl

/-- A sequence has no free block, or a last one. -/
theorem lastOf_cases (c : Config) (prev p : ℕ) (l : List Chunk) :
    AllUsed l ∨ ∃ before b skip, l = before ++ b :: skip ∧ AllUsed skip ∧ b.free = true ∧
      lastOf c prev p l = stop c p before := by
  induction l using List.reverseRecOn with
  | nil => exact .inl (by simp [AllUsed])
  | append_singleton l b ih =>
    cases hb : b.free with
    | true => exact .inr ⟨l, b, [], rfl, by simp [AllUsed], hb, by simp [lastOf, hb]⟩
    | false =>
      rcases ih with hused | ⟨before, b', skip, rfl, hskip, hb', hlast⟩
      · exact .inl (hused.append (by simp [AllUsed, hb]))
      · refine .inr ⟨before, b', skip ++ [b], by simp, hskip.append (by simp [AllUsed, hb]), hb',
          ?_⟩
        rw [← hlast]
        simp [lastOf, hb]

/-- A sequence depends on the bytes that are not in use. -/
theorem LayoutAt.congr (h : LayoutAt c m nx p pf l)
    (hm : ∀ a, p ≤ a → a < stop c p l → ¬InUse c a p l → m' a = m a) :
    LayoutAt c m' nx p pf l := by
  induction l generalizing p pf with
  | nil => trivial
  | cons b l ih =>
    obtain ⟨hb, hl⟩ := h
    have hstop : p + c.alignment + b.size ≤ stop c p (b :: l) := le_stop
    refine ⟨hb.congr fun a hlo hhi => hm a hlo ?_ ?_, ih hl fun a hlo hhi hused => ?_⟩
    · split at hhi <;> omega
    · rintro (⟨hfree, hle, -⟩ | hin)
      · simp [hfree] at hhi
        omega
      · have := hin.bounds
        split at hhi <;> omega
    · refine hm a (by omega) hhi ?_
      rintro (⟨-, -, hlt⟩ | hin)
      · omega
      · exact hused hin

/-- A sequence is not changed by what happens elsewhere. -/
theorem LayoutAt.frame (h : LayoutAt c m nx p pf l)
    (hm : ∀ a, p ≤ a → a < stop c p l → m' a = m a) : LayoutAt c m' nx p pf l :=
  h.congr fun a hlo hhi _ => hm a hlo hhi

/-- Without free blocks the link behind a sequence does not matter. -/
theorem LayoutAt.of_allUsed {nx' : ℕ} (h : LayoutAt c m nx p pf l) (hused : AllUsed l) :
    LayoutAt c m nx' p pf l := by
  induction l generalizing p pf with
  | nil => trivial
  | cons b l ih =>
    have hb : b.free = false := hused b (by simp)
    refine ⟨⟨h.1.toHeaderAt, fun hf => ?_⟩, ih h.2 fun b' hb' => hused b' (by simp [hb'])⟩
    rw [hb] at hf
    cases hf

/-- The first block of what is left may be behind a block that is free or not. -/
theorem LayoutAt.inside (h : LayoutAt c m nx p pf l) (hp : p < 2 ^ 64) : stop c p l < 2 ^ 64 := by
  induction l generalizing p pf with
  | nil => exact hp
  | cons b l ih => exact ih h.2 h.1.inside

/-- Bytes outside a sequence and in its used blocks are as before. -/
def KeepsUsed (c : Config) (m m' : Memory) (p : ℕ) (l : List Chunk) : Prop :=
  ∀ a, a < p ∨ InUse c a p l ∨ stop c p l ≤ a → m' a = m a

namespace KeepsUsed

theorem refl : KeepsUsed c m m p l := fun _ _ => rfl

theorem trans {m'' : Memory} (h : KeepsUsed c m m' p l) (h' : KeepsUsed c m' m'' p l) :
    KeepsUsed c m m'' p l := fun a ha => (h' a ha).trans (h a ha)

/-- A change in the front of a sequence. -/
theorem front (h : KeepsUsed c m m' p l) : KeepsUsed c m m' p (l ++ post) := by
  intro a ha
  apply h
  rw [inUse_append, stop_append] at ha
  have hle : stop c p l ≤ stop c (stop c p l) post := le_stop
  rcases ha with hlt | (hin | hin) | hge
  · exact .inl hlt
  · exact .inr (.inl hin)
  · have := hin.bounds
    exact .inr (.inr (by omega))
  · exact .inr (.inr (by omega))

/-- A change in the back of a sequence. -/
theorem back (h : KeepsUsed c m m' (stop c p pre) l) : KeepsUsed c m m' p (pre ++ l) := by
  intro a ha
  apply h
  rw [inUse_append, stop_append] at ha
  have hle : p ≤ stop c p pre := le_stop
  rcases ha with hlt | (hin | hin) | hge
  · exact .inl (by omega)
  · exact .inl hin.bounds.2
  · exact .inr (.inl hin)
  · exact .inr (.inr hge)

/-- A change of one block. -/
theorem block (h : KeepsUsed c m m' (stop c p pre) [b]) :
    KeepsUsed c m m' p (pre ++ b :: post) := back (front h)

/-- A change of a header. -/
theorem of_header (h : m.SameOutside m' p (p + c.alignment)) : KeepsUsed c m m' p [b] := by
  rintro a (hlt | (⟨-, hle, -⟩ | hin) | hge)
  · exact h a (.inl hlt)
  · exact h a (.inr hle)
  · exact hin.elim
  · rw [stop, stop] at hge
    exact h a (.inr (by omega))

/-- A change of free blocks. -/
theorem of_free (hfree : ∀ b ∈ l, b.free = true) (h : m.SameOutside m' p (stop c p l)) :
    KeepsUsed c m m' p l := by
  rintro a (hlt | hin | hge)
  · exact h a (.inl hlt)
  · exact absurd hin (not_inUse_of_free hfree)
  · exact h a (.inr hge)

end KeepsUsed

end Sequences

end Toyos.Memory.FirstFit
