import Mathlib.Data.List.Induction

/-!
# Labelled runs

A run is a finite sequence of labelled steps from a fixed initial state. The
labels record what each step did, so statements about histories (what happened
between two events) and statements about states share one induction.
-/

namespace Toyos.Core

variable {σ ε : Type*}

/-- The state reached from `init` by steps whose labels are listed in order. -/
inductive Run (step : σ → ε → σ → Prop) (init : σ) : List ε → σ → Prop
  | nil : Run step init [] init
  | snoc {es s e t} : Run step init es s → step s e t → Run step init (es ++ [e]) t

namespace Run

variable {step : σ → ε → σ → Prop} {init s t : σ} {es : List ε}

/-- A property of histories and states that every step extends holds of every run. -/
theorem history_invariant (I : List ε → σ → Prop) (h0 : I [] init)
    (hstep : ∀ es s e t, Run step init es s → I es s → step s e t → I (es ++ [e]) t)
    (h : Run step init es s) : I es s := by
  induction h with
  | nil => exact h0
  | snoc hrun hs ih => exact hstep _ _ _ _ hrun ih hs

/-- A state property that every step keeps holds in every reached state. -/
theorem invariant (I : σ → Prop) (h0 : I init) (hstep : ∀ s e t, I s → step s e t → I t)
    (h : Run step init es s) : I s :=
  history_invariant (fun _ s => I s) h0 (fun _ s e t _ hs => hstep s e t hs) h

/-- A map that takes steps to steps with the same label takes runs to runs. -/
theorem simulate {σ' : Type*} {step' : σ' → ε → σ' → Prop} (f : σ → σ')
    (hstep : ∀ s e t, step s e t → step' (f s) e (f t)) (h : Run step init es s) :
    Run step' (f init) es (f s) := by
  induction h with
  | nil => exact .nil
  | snoc _ hs ih => exact ih.snoc (hstep _ _ _ hs)

/-- A step before a run. -/
theorem cons {e : ε} (hs : step init e s) (h : Run step s es t) : Run step init (e :: es) t := by
  induction h with
  | nil => exact Run.nil.snoc hs
  | snoc _ hlast ih => exact ih.snoc hlast

/-- A run after a run. -/
theorem append {es' : List ε} (h : Run step init es s) (h' : Run step s es' t) :
    Run step init (es ++ es') t := by
  induction h' with
  | nil => simpa using h
  | snoc _ hlast ih => simpa using ih.snoc hlast

/-- Every prefix of a history was itself reached, and the rest continues from there. -/
theorem split {es' : List ε} (h : Run step init (es ++ es') t) :
    ∃ s, Run step init es s ∧ Run step s es' t := by
  induction es' using List.reverseRecOn generalizing t with
  | nil => exact ⟨t, by simpa using h, .nil⟩
  | append_singleton es' e ih =>
    rw [← List.append_assoc] at h
    generalize hfull : (es ++ es') ++ [e] = full at h
    cases h with
    | nil => simp at hfull
    | snoc hrun hs =>
      obtain ⟨hpre, hlast⟩ := List.append_inj' hfull rfl
      obtain rfl := List.singleton_inj.mp hlast
      subst hpre
      obtain ⟨s, hpre, hrest⟩ := ih hrun
      exact ⟨s, hpre, hrest.snoc hs⟩

/-- A nonempty continuation begins with one step. -/
theorem cons_inv {e : ε} (h : Run step init (e :: es) t) :
    ∃ s, step init e s ∧ Run step s es t := by
  obtain ⟨s, hfirst, hrest⟩ := split (show Run step init ([e] ++ es) t from h)
  generalize hfull : [e] = full at hfirst
  cases hfirst with
  | nil => simp at hfull
  | @snoc es' u e' _ hrun hs =>
    obtain ⟨hnil, hlast⟩ := List.append_inj' (show [] ++ [e] = es' ++ [e'] from hfull) rfl
    obtain rfl := List.singleton_inj.mp hlast
    subst hnil
    generalize hempty : ([] : List ε) = none at hrun
    cases hrun with
    | nil => exact ⟨s, hs, hrest⟩
    | snoc => simp at hempty

/-- Steps that are computed one after the other are a run. -/
theorem of_foldlM (f : σ → ε → Option σ) (hf : ∀ s e t, f s e = some t → step s e t)
    (h : es.foldlM f init = some t) : Run step init es t := by
  induction es using List.reverseRecOn generalizing t with
  | nil =>
    obtain rfl := Option.some.inj h
    exact .nil
  | append_singleton es e ih =>
    rw [List.foldlM_append] at h
    obtain ⟨s, hs, hlast⟩ := Option.bind_eq_some_iff.mp h
    rw [List.foldlM_cons] at hlast
    obtain ⟨u, hu, hnil⟩ := Option.bind_eq_some_iff.mp hlast
    obtain rfl := Option.some.inj hnil
    exact (ih hs).snoc (hf s e u hu)

/-- The property holds in some state a run passes through. -/
def Sometime (step : σ → ε → σ → Prop) (init : σ) (es : List ε) (t : σ) (P : σ → Prop) : Prop :=
  ∃ before after s, es = before ++ after ∧ Run step init before s ∧ Run step s after t ∧ P s

/-- What holds in the last state holds sometime. -/
theorem sometime_last {P : σ → Prop} (h : Run step init es t) (ht : P t) :
    Sometime step init es t P :=
  ⟨es, [], t, by simp, h, .nil, ht⟩

/-- What has held sometime has still held after another step. -/
theorem Sometime.snoc {P : σ → Prop} {e : ε} (h : Sometime step init es s P) (hs : step s e t) :
    Sometime step init (es ++ [e]) t P := by
  obtain ⟨before, after, u, rfl, hbefore, hafter, hu⟩ := h
  exact ⟨before, after ++ [e], u, by simp, hbefore, hafter.snoc hs, hu⟩

/-- In the run without steps only the first state is passed. -/
theorem Sometime.nil_inv {P : σ → Prop} (h : Sometime step init [] t P) : P init := by
  obtain ⟨before, after, u, hes, hbefore, -, hu⟩ := h
  obtain ⟨rfl, -⟩ := List.append_eq_nil_iff.mp hes.symm
  generalize hempty : ([] : List ε) = none at hbefore
  cases hbefore with
  | nil => exact hu
  | snoc => simp at hempty

/-- What has held sometime has held in the first state or behind the first step. -/
theorem Sometime.cons_inv {P : σ → Prop} {e : ε} (h : Sometime step init (e :: es) t P) :
    P init ∨ ∃ s, step init e s ∧ Sometime step s es t P := by
  obtain ⟨before, after, u, hes, hbefore, hafter, hu⟩ := h
  cases before with
  | nil => exact .inl (Sometime.nil_inv ⟨[], [], u, rfl, hbefore, .nil, hu⟩)
  | cons e' before =>
    obtain ⟨rfl, rfl⟩ := List.cons.inj hes
    obtain ⟨s, hs, hrest⟩ := hbefore.cons_inv
    exact .inr ⟨s, hs, before, after, u, rfl, hrest, hafter, hu⟩

/-- Where steps are determined, what has held sometime has held in the first state or from the
next state on. -/
theorem Sometime.next {f : σ → ε → Option σ} {P : σ → Prop} {e : ε}
    (h : Sometime (fun s e t => f s e = some t) init (e :: es) t P) (hs : f init e = some s) :
    P init ∨ Sometime (fun s e t => f s e = some t) s es t P := by
  rcases h.cons_inv with hinit | ⟨s', hs', hrest⟩
  · exact .inl hinit
  · obtain rfl := Option.some.inj (hs.symm.trans hs')
    exact .inr hrest

/-- The property holds in every state a run passes through. -/
def Always (step : σ → ε → σ → Prop) (init : σ) (es : List ε) (t : σ) (P : σ → Prop) : Prop :=
  ∀ before after s, es = before ++ after → Run step init before s → Run step s after t → P s

/-- An invariant that every good step keeps holds after good steps. -/
theorem invariant_of_good (I : σ → Prop) (bad : ε → Prop) (h0 : I init)
    (hstep : ∀ s e t, I s → step s e t → ¬bad e → I t) (h : Run step init es s)
    (hgood : ∀ e ∈ es, ¬bad e) : I s := by
  induction h with
  | nil => exact h0
  | @snoc es s e t _ hs ih =>
    have hbefore : ∀ e ∈ es, ¬bad e := fun e he => hgood e (List.mem_append_left _ he)
    have hlast : ¬bad e := hgood e (List.mem_append_right _ (List.mem_singleton_self e))
    exact hstep s e t (ih hbefore) hs hlast

/-- When good steps keep an invariant that makes two properties of the next label agree, the two
properties agree on the labels of a run. -/
theorem forall_iff_of_good (I : σ → Prop) (P Q : ε → Prop) (h0 : I init)
    (hiff : ∀ s e t, I s → step s e t → (P e ↔ Q e))
    (hstep : ∀ s e t, I s → step s e t → Q e → I t) (h : Run step init es t) :
    (∀ e ∈ es, P e) ↔ ∀ e ∈ es, Q e := by
  have hboth : ((∀ e ∈ es, P e) ↔ ∀ e ∈ es, Q e) ∧ ((∀ e ∈ es, Q e) → I t) := by
    induction h with
    | nil => exact ⟨by simp, fun _ => h0⟩
    | @snoc es s e t _ hs ih =>
      obtain ⟨hprev, hinv⟩ := ih
      simp only [List.forall_mem_append, List.forall_mem_singleton]
      refine ⟨⟨fun ⟨hes, he⟩ => ?_, fun ⟨hes, he⟩ => ?_⟩, fun ⟨hes, he⟩ => ?_⟩
      · exact ⟨hprev.mp hes, (hiff s e t (hinv (hprev.mp hes)) hs).mp he⟩
      · exact ⟨hprev.mpr hes, (hiff s e t (hinv hes) hs).mpr he⟩
      · exact hstep s e t (hinv hes) hs he
  exact hboth.1

/-- When good steps keep an invariant and the first bad step leaves the property, the property
holds throughout exactly the runs of good steps. -/
theorem always_iff (I P : σ → Prop) (bad : ε → Prop) (h0 : I init) (hI : ∀ s, I s → P s)
    (hstep : ∀ s e t, I s → step s e t → ¬bad e → I t)
    (hbad : ∀ s e t, I s → step s e t → bad e → ¬P t) (h : Run step init es t) :
    Always step init es t P ↔ ∀ e ∈ es, ¬bad e := by
  constructor
  · intro halways
    induction h with
    | nil => simp
    | @snoc es s e t hrun hs ih =>
      have hbefore : ∀ e ∈ es, ¬bad e := by
        refine ih fun before after u hes hpre hpost => ?_
        exact halways before (after ++ [e]) u (by simp [hes]) hpre (hpost.snoc hs)
      intro e' he'
      rcases List.mem_append.mp he' with hmem | hlast
      · exact hbefore e' hmem
      · rw [List.mem_singleton.mp hlast]
        intro hb
        have hinv := invariant_of_good I bad h0 hstep hrun hbefore
        exact hbad s e t hinv hs hb (halways _ [] t (by simp) (hrun.snoc hs) .nil)
  · intro hgood before after s hes hpre _
    subst hes
    exact hI s (invariant_of_good I bad h0 hstep hpre fun e he =>
      hgood e (List.mem_append_left _ he))

end Run

end Toyos.Core
