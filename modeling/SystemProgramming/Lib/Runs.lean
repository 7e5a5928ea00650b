import Mathlib

/-!
# Runs of labelled transition systems

A run records its labels in the order in which they occurred.  An invariant is
proved once for a single step and then holds along every run.  A guarded run is
one in which every step is taken from a state that meets a side condition.
-/

namespace SystemProgramming

variable {σ ε : Type*}

/-- Finite runs of a labelled step relation. -/
inductive Run (step : σ → ε → σ → Prop) (s : σ) : List ε → σ → Prop
  | nil : Run step s [] s
  | snoc {t u : σ} {es : List ε} {e : ε} :
      Run step s es t → step t e u → Run step s (es ++ [e]) u

/-- The steps taken from states that meet `ok`. -/
def Guarded (step : σ → ε → σ → Prop) (ok : σ → ε → Prop) : σ → ε → σ → Prop :=
  fun s e t ↦ ok s e ∧ step s e t

/-- The run of a partial function, executed label by label. -/
def execute (f : σ → ε → Option σ) : σ → List ε → Option σ
  | s, [] => some s
  | s, e :: es => (f s e).bind fun t ↦ execute f t es

/-- The partial function restricted to the states that meet a condition. -/
def guarded (f : σ → ε → Option σ) (ok : σ → ε → Prop) [∀ s e, Decidable (ok s e)] (s : σ) (e : ε) :
    Option σ :=
  if ok s e then f s e else none

/-- The step relation of a partial function. -/
def StepOf (f : σ → ε → Option σ) : σ → ε → σ → Prop :=
  fun s e t ↦ f s e = some t

namespace Run

variable {step step' : σ → ε → σ → Prop} {s t u : σ} {es fs : List ε} {e : ε}

theorem single (h : step s e t) : Run step s [e] t :=
  Run.snoc Run.nil h

theorem append (h : Run step s es t) (h' : Run step t fs u) : Run step s (es ++ fs) u := by
  induction h' with
  | nil => simpa using h
  | snoc _ hlast ih =>
      rw [← List.append_assoc]
      exact Run.snoc ih hlast

theorem cons (h : step s e t) (h' : Run step t es u) : Run step s (e :: es) u :=
  (Run.single h).append h'

theorem mono (hsub : ∀ s e t, step s e t → step' s e t) (h : Run step s es t) :
    Run step' s es t := by
  induction h with
  | nil => exact Run.nil
  | snoc _ hlast ih => exact Run.snoc ih (hsub _ _ _ hlast)

theorem map {κ : Type*} {step' : σ → κ → σ → Prop} (f : ε → κ)
    (hstep : ∀ s e t, step s e t → step' s (f e) t) (h : Run step s es t) :
    Run step' s (es.map f) t := by
  induction h with
  | nil => exact Run.nil
  | snoc _ hlast ih =>
      rw [List.map_append]
      exact ih.snoc (hstep _ _ _ hlast)

theorem of_guarded {ok : σ → ε → Prop} (h : Run (Guarded step ok) s es t) :
    Run step s es t :=
  h.mono fun _ _ _ hstep ↦ hstep.2

/-- The induction principle behind every safety property. -/
theorem invariant {I : σ → Prop} (hstep : ∀ s e t, I s → step s e t → I t)
    (h : Run step s es t) (hs : I s) : I t := by
  induction h with
  | nil => exact hs
  | snoc _ hlast ih => exact hstep _ _ _ ih hlast

theorem nil_iff : Run step s [] t ↔ s = t := by
  constructor
  · intro h
    generalize hes : ([] : List ε) = es at h
    cases h with
    | nil => rfl
    | snoc _ _ => simp at hes
  · rintro rfl
    exact Run.nil

theorem snoc_iff : Run step s (es ++ [e]) u ↔ ∃ t, Run step s es t ∧ step t e u := by
  constructor
  · intro h
    generalize hfs : es ++ [e] = fs at h
    cases h with
    | nil => simp at hfs
    | snoc hrun hlast =>
        obtain ⟨rfl, heq⟩ := List.append_inj' hfs rfl
        obtain rfl : e = _ := by simpa using heq
        exact ⟨_, hrun, hlast⟩
  · rintro ⟨t, hrun, hlast⟩
    exact Run.snoc hrun hlast

theorem cons_iff : Run step s (e :: es) u ↔ ∃ t, step s e t ∧ Run step t es u := by
  constructor
  · intro h
    induction es using List.reverseRecOn generalizing u with
    | nil =>
        rw [← List.nil_append [e]] at h
        obtain ⟨t, hnil, hlast⟩ := snoc_iff.mp h
        obtain rfl := nil_iff.mp hnil
        exact ⟨u, hlast, Run.nil⟩
    | append_singleton es e' ih =>
        rw [← List.cons_append] at h
        obtain ⟨t, hrun, hlast⟩ := snoc_iff.mp h
        obtain ⟨v, hfirst, hrest⟩ := ih hrun
        exact ⟨v, hfirst, hrest.snoc hlast⟩
  · rintro ⟨t, hfirst, hrest⟩
    exact Run.cons hfirst hrest

theorem append_iff : Run step s (es ++ fs) u ↔ ∃ t, Run step s es t ∧ Run step t fs u := by
  constructor
  · intro h
    induction fs using List.reverseRecOn generalizing u with
    | nil => exact ⟨u, by simpa using h, Run.nil⟩
    | append_singleton fs e ih =>
        rw [← List.append_assoc] at h
        obtain ⟨v, hrun, hlast⟩ := snoc_iff.mp h
        obtain ⟨t, hfirst, hrest⟩ := ih hrun
        exact ⟨t, hfirst, hrest.snoc hlast⟩
  · rintro ⟨t, hfirst, hrest⟩
    exact hfirst.append hrest

theorem execute_eq_some_iff {f : σ → ε → Option σ} :
    execute f s es = some t ↔ Run (StepOf f) s es t := by
  induction es generalizing s with
  | nil => simp [execute, nil_iff]
  | cons e es ih => simp [execute, cons_iff, StepOf, Option.bind_eq_some_iff, ih]

theorem execute_guarded_eq_some_iff {f : σ → ε → Option σ} {ok : σ → ε → Prop}
    [∀ s e, Decidable (ok s e)] :
    execute (guarded f ok) s es = some t ↔ Run (Guarded (StepOf f) ok) s es t := by
  have hstep : StepOf (guarded f ok) = Guarded (StepOf f) ok := by
    funext s e t
    by_cases h : ok s e <;> simp [StepOf, guarded, Guarded, h]
  rw [execute_eq_some_iff, hstep]

/-- A deterministic system reaches one state under a given list of labels. -/
theorem unique {f : σ → ε → Option σ} (h : Run (StepOf f) s es t)
    (h' : Run (StepOf f) s es u) : t = u :=
  Option.some.inj
    ((execute_eq_some_iff.mpr h).symm.trans (execute_eq_some_iff.mpr h'))

/-- Exactness of a step condition: if `ok` steps keep the invariant `I`, and a
step that is not `ok` ends outside `P`, then `P` holds in every state visited by a
run exactly when every step of the run is `ok`. -/
theorem forall_visited_iff_guarded {f : σ → ε → Option σ} {ok : σ → ε → Prop}
    {I P : σ → Prop} (hP : ∀ s, I s → P s)
    (hok : ∀ s e t, I s → ok s e → f s e = some t → I t)
    (hbad : ∀ s e t, I s → ¬ ok s e → f s e = some t → ¬ P t)
    (hs : I s) (h : Run (StepOf f) s es t) :
    (∀ pre post u, es = pre ++ post → Run (StepOf f) s pre u → P u) ↔
      Run (Guarded (StepOf f) ok) s es t := by
  constructor
  · intro hall
    induction h with
    | nil => exact Run.nil
    | @snoc t u es e hrun hlast ih =>
        have hprev := ih fun pre post v hes hv ↦
          hall pre (post ++ [e]) v (by simp [hes]) hv
        have hI : I t := hprev.invariant (fun s e t hI hst ↦ hok s e t hI hst.1 hst.2) hs
        refine hprev.snoc ⟨?_, hlast⟩
        by_contra hnot
        exact hbad t e u hI hnot hlast
          (hall (es ++ [e]) [] u (by simp) (hrun.snoc hlast))
  · intro hguard pre post u hes hu
    subst hes
    have hpre : Run (Guarded (StepOf f) ok) s pre u := by
      clear h
      induction post using List.reverseRecOn generalizing t with
      | nil =>
          rw [List.append_nil] at hguard
          rwa [← hguard.of_guarded.unique hu]
      | append_singleton post e ih =>
          rw [← List.append_assoc, snoc_iff] at hguard
          obtain ⟨v, hv, -⟩ := hguard
          exact ih hv
    exact hP u (hpre.invariant (fun s e t hI hst ↦ hok s e t hI hst.1 hst.2) hs)

/-- A deterministic step relation has one run for a list of labels. -/
theorem functional (hdet : ∀ s e t u, step s e t → step s e u → t = u) (h : Run step s es t)
    (h' : Run step s es u) : t = u := by
  induction h generalizing u with
  | nil => exact nil_iff.mp h'
  | snoc _ hlast ih =>
      obtain ⟨v, hv, hlast'⟩ := snoc_iff.mp h'
      obtain rfl := ih hv
      exact hdet _ _ _ _ hlast hlast'

/-- The same exactness for a property `Q` of the single steps. -/
theorem forall_steps_iff_guarded {ok : σ → ε → Prop} {I : σ → Prop} {Q : σ → ε → σ → Prop}
    (hdet : ∀ s e t u, step s e t → step s e u → t = u)
    (hgood : ∀ s e t, I s → ok s e → step s e t → I t ∧ Q s e t)
    (hbad : ∀ s e t, I s → ¬ ok s e → step s e t → ¬ Q s e t)
    (hs : I s) (h : Run step s es t) :
    (∀ pre e post u v, es = pre ++ e :: post → Run step s pre u → step u e v → Q u e v) ↔
      Run (Guarded step ok) s es t := by
  have hinv : ∀ {es t}, Run (Guarded step ok) s es t → I t := fun hrun ↦
    hrun.invariant (fun s e t hI hst ↦ (hgood s e t hI hst.1 hst.2).1) hs
  constructor
  · intro hall
    induction h with
    | nil => exact Run.nil
    | @snoc t u es e hrun hlast ih =>
        have hprev := ih fun pre e' post v w hes ↦
          hall pre e' (post ++ [e]) v w (by simp [hes])
        refine hprev.snoc ⟨?_, hlast⟩
        by_contra hnot
        exact hbad t e u (hinv hprev) hnot hlast (hall es e [] t u rfl hrun hlast)
  · intro hguard pre e post u v hes hu huv
    subst hes
    obtain ⟨t', hpre, hrest⟩ := append_iff.mp hguard
    obtain ⟨w, ⟨hok, -⟩, -⟩ := cons_iff.mp hrest
    obtain rfl := hpre.of_guarded.functional hdet hu
    exact (hgood _ _ _ (hinv hpre) hok huv).2

end Run

end SystemProgramming
