import SystemProgramming.Lib.Monitor

/-!
# The semamore

`semamore.c`: a semaphore with a largest value.  Both calls wait on one condition variable,
and both broadcast.
-/

namespace SystemProgramming.CriticalConcurrency

open Monitor

variable {ι : Type*}

structure Semamore where
  value : ℤ
  maxVal : ℤ

def semmInit (value maxVal : ℤ) : Semamore := ⟨value, maxVal⟩

namespace Semamore

inductive Call
  | wait
  | post
  deriving DecidableEq

inductive Event
  | call (c : Call)
  | sleep (c : Call)
  | complete (c : Call)
  deriving DecidableEq

variable (s : Semamore)

/-- The conditions of the two waiting loops. -/
def waits : Call → Prop
  | .wait => s.value = 0
  | .post => s.value = s.maxVal

instance : ∀ c, Decidable (s.waits c)
  | .wait => inferInstanceAs (Decidable (s.value = 0))
  | .post => inferInstanceAs (Decidable (s.value = s.maxVal))

def semmWait : Semamore := { s with value := s.value - 1 }

def semmPost : Semamore := { s with value := s.value + 1 }

/-- The section of a call. -/
def enter (c : Call) : Event × Semamore × Exit Unit Call :=
  if s.waits c then (.sleep c, s, .wait c)
  else match c with
    | .wait => (.complete c, s.semmWait, .leave () true)
    | .post => (.complete c, s.semmPost, .leave () true)

/-- A thread is in one call after the other. -/
def program : Program Semamore Unit Call Event where
  outside _ _ e next := ∃ c, e = .call c ∧ next = .inr c
  critical s c e s' exit := s.enter c = (e, s', exit)

def start (value maxVal : ℤ) : State ι Semamore Unit Call :=
  ⟨semmInit value maxVal, fun _ ↦ .out ()⟩

/-- The calls of one kind that have been completed. -/
def completed (c : Call) (es : List (Label ι Event)) : ℕ :=
  es.countP fun
    | .act _ (.complete c') => c' = c
    | _ => false

theorem step_call [DecidableEq ι] {s : State ι Semamore Unit Call} {t : ι} (c : Call)
    (ht : s.pc t = .out ()) : Step program s (.act t (.call c)) (s.setPc t (.ready c)) := by
  have hout : program.outside s.shared () (.call c) (.inr c) := ⟨c, rfl, rfl⟩
  exact .outside ht hout

/-- What the critical sections keep. -/
structure Bounded (maxVal : ℤ) : Prop where
  maxVal_eq : s.maxVal = maxVal
  nonneg : 0 ≤ s.value
  le : s.value ≤ maxVal

variable {s} {s' : Semamore} {c : Call} {e : Event} {exit : Exit Unit Call} {value maxVal : ℤ}

theorem enter_cases (h : s.enter c = (e, s', exit)) :
    s.waits c ∧ e = .sleep c ∧ s' = s ∧ exit = .wait c ∨
    ¬ s.waits c ∧ e = .complete c ∧ exit = .leave () true ∧
      (c = .wait ∧ s' = s.semmWait ∨ c = .post ∧ s' = s.semmPost) := by
  unfold enter at h
  by_cases hwaits : s.waits c
  · left
    simp only [hwaits, if_true, Prod.mk.injEq] at h
    obtain ⟨rfl, rfl, rfl⟩ := h
    exact ⟨hwaits, rfl, rfl, rfl⟩
  · right
    cases c <;>
      simp only [hwaits, if_false, Prod.mk.injEq] at h <;>
      obtain ⟨rfl, rfl, rfl⟩ := h <;>
      simp [hwaits]

theorem Bounded.enter (hs : s.Bounded maxVal) (h : s.enter c = (e, s', exit)) :
    s'.Bounded maxVal := by
  have hle := hs.le
  have hnonneg := hs.nonneg
  obtain ⟨-, -, rfl, -⟩ | ⟨hwaits, -, -, ⟨rfl, rfl⟩ | ⟨rfl, rfl⟩⟩ := enter_cases h
  · exact hs
  · have hne : s.value ≠ 0 := hwaits
    refine ⟨hs.maxVal_eq, ?_, ?_⟩ <;> simp only [semmWait] <;> omega
  · have hne : s.value ≠ maxVal := by
      rw [← hs.maxVal_eq]
      exact hwaits
    refine ⟨hs.maxVal_eq, ?_, ?_⟩ <;> simp only [semmPost] <;> omega

variable [DecidableEq ι] {es : List (Label ι Event)} {t : ι} {s : State ι Semamore Unit Call}

omit [DecidableEq ι] in
theorem completed_append (fs : List (Label ι Event)) :
    completed c (es ++ fs) = completed c es + completed c fs :=
  List.countP_append

theorem bounded_of_run (hvalue : 0 ≤ value) (hle : value ≤ maxVal)
    (hrun : Run (Step program) (start value maxVal) es s) : s.shared.Bounded maxVal :=
  shared_invariant (I := fun s ↦ s.Bounded maxVal)
    (fun _ _ _ _ _ hs hcritical ↦ Bounded.enter hs hcritical) hrun ⟨rfl, hvalue, hle⟩

/-- The value counts the completed calls. -/
theorem value_eq_of_run (hrun : Run (Step program) (start value maxVal) es s) :
    s.shared.value = value + completed .post es - completed .wait es := by
  induction hrun with
  | nil => simp [start, semmInit, completed]
  | @snoc s₁ s₂ es e _ hlast ih =>
    have happend (c : Call) : completed c (es ++ [e]) = completed c es + completed c [e] :=
      completed_append [e]
    cases hlast with
    | wake t => simpa [happend, completed] using ih
    | outside _ hout =>
      obtain ⟨c, rfl, rfl⟩ := hout
      simpa [happend, completed] using ih
    | critical _ hcritical =>
      obtain ⟨-, rfl, rfl, rfl⟩ | ⟨-, rfl, rfl, ⟨rfl, rfl⟩ | ⟨rfl, rfl⟩⟩ := enter_cases hcritical
      · simpa [happend, completed] using ih
      · simp only [State.finish_shared, semmWait, happend, ih]
        simp [completed]
        ring
      · simp only [State.finish_shared, semmPost, happend, ih]
        simp [completed]
        ring

theorem waits_of_asleep (hrun : Run (Step program) (start value maxVal) es s)
    (ht : s.pc t = .asleep c) : s.shared.waits c := by
  refine asleep_invariant (I := fun _ ↦ True) (W := Semamore.waits) ?_ ?_ ?_ hrun trivial ?_ t c ht
  · intros
    trivial
  · intro s c e s' c' _ hcritical
    obtain ⟨hwaits, -, rfl, hexit⟩ | ⟨-, -, hexit, -⟩ := enter_cases hcritical
    · cases hexit
      exact hwaits
    · cases hexit
  · intro s c e s' exit _ hcritical hnot c₀ hc₀
    obtain ⟨-, -, rfl, -⟩ | ⟨-, -, rfl, -⟩ := enter_cases hcritical
    · exact hc₀
    · exact absurd ⟨(), rfl⟩ hnot
  · intro t c hasleep
    cases hasleep

/-- The bounds, the count and the sleeping threads in every reachable state. -/
theorem semamore_bounds (hvalue : 0 ≤ value) (hle : value ≤ maxVal)
    (hrun : Run (Step program) (start value maxVal) es s) :
    0 ≤ s.shared.value ∧ s.shared.value ≤ maxVal ∧
      s.shared.value = value + completed .post es - completed .wait es ∧
      (∀ t, s.pc t = .asleep .wait → s.shared.value = 0) ∧
      (∀ t, s.pc t = .asleep .post → s.shared.value = maxVal) := by
  have hbounded := bounded_of_run hvalue hle hrun
  refine ⟨hbounded.nonneg, hbounded.le, value_eq_of_run hrun, ?_, ?_⟩
  · intro t ht
    exact waits_of_asleep hrun ht
  · intro t ht
    rw [← hbounded.maxVal_eq]
    exact waits_of_asleep hrun ht

/-- A thread that waits at 0 is let in by a post. -/
theorem semamore_bounds_handover : ∃ s : State Bool Semamore Unit Call,
    Run (Step program) (start 0 1) [.act true (.call .wait), .act true (.sleep .wait),
      .act false (.call .post), .act false (.complete .post), .act true (.complete .wait)] s ∧
    0 ≤ s.shared.value ∧ s.shared.value ≤ 1 ∧ s.shared.value = 0 + 1 - 1 := by
  let s₁ : State Bool Semamore Unit Call := (start 0 1).setPc true (.ready .wait)
  let s₂ := s₁.finish true ⟨0, 1⟩ (.wait .wait)
  let s₃ := s₂.setPc false (.ready .post)
  let s₄ := s₃.finish false ⟨1, 1⟩ (.leave () true)
  let s₅ := s₄.finish true ⟨0, 1⟩ (.leave () true)
  have h₁ : Step program (start 0 1) (.act true (.call .wait)) s₁ := step_call .wait rfl
  have h₂ : Step program s₁ (.act true (.sleep .wait)) s₂ := .critical rfl rfl
  have h₃ : Step program s₂ (.act false (.call .post)) s₃ := step_call .post rfl
  have h₄ : Step program s₃ (.act false (.complete .post)) s₄ := .critical rfl rfl
  have h₅ : Step program s₄ (.act true (.complete .wait)) s₅ := .critical rfl rfl
  have hrun := Run.cons h₁ (Run.cons h₂ (Run.cons h₃ (Run.cons h₄ (Run.single h₅))))
  obtain ⟨hnonneg, hle, hvalue, -⟩ := semamore_bounds (by decide) (by decide) hrun
  exact ⟨s₅, hrun, hnonneg, hle, hvalue⟩

end Semamore

end SystemProgramming.CriticalConcurrency
