import SystemProgramming.CriticalConcurrency.Queue

/-!
# No thread is stuck in the queue

A section without a broadcast leaves the queue as it was.  This includes that of a `queue_push`
whose `malloc` fails.
-/

namespace SystemProgramming.CriticalConcurrency

open Monitor

variable {ι : Type*} {α : Type}

namespace Queue

/-- The sections of the calls, and that of a `queue_push` whose `malloc` fails. -/
inductive AnySection (q : Queue α) : Call α → Event α → Queue α → Exit Unit (Call α) → Prop
  | granted {c : Call α} {e : Event α} {q' : Queue α} {exit : Exit Unit (Call α)} :
      q.Section c e q' exit → AnySection q c e q' exit
  | fails {data : α} : ¬ q.pushWaits → AnySection q (.push data) (.fail data) q (.leave () false)

def anyProgram : Program (Queue α) Unit (Call α) (Event α) := { program with critical := AnySection }

variable {q q' : Queue α} {c c' : Call α} {e : Event α} {exit : Exit Unit (Call α)}

theorem AnySection.maxSize_eq (h : q.AnySection c e q' exit) : q'.maxSize = q.maxSize := by
  cases h with
  | fails => rfl
  | granted h =>
    cases h with
    | sleep => rfl
    | push _ _ hq => exact maxSize_queuePush hq
    | pull _ hq => exact maxSize_queuePull hq

theorem AnySection.waits (h : q.AnySection c e q' (.wait c')) : q'.waits c' := by
  cases h with
  | granted h =>
    cases h with
    | sleep hwaits => exact hwaits

theorem AnySection.eq_of_not_broadcasts (h : q.AnySection c e q' exit) (hnot : ¬ exit.Broadcasts) :
    q' = q := by
  cases h with
  | fails => rfl
  | granted h =>
    cases h with
    | sleep => rfl
    | push => exact absurd ⟨(), rfl⟩ hnot
    | pull => exact absurd ⟨(), rfl⟩ hnot

variable [DecidableEq ι] {maxSize : ℤ} {es : List (Label ι (Event α))}
  {s s' : State ι (Queue α) Unit (Call α)}

theorem step_any {l : Label ι (Event α)} (h : Step program s l s') : Step anyProgram s l s' := by
  cases h with
  | wake t => exact .wake t
  | outside ht hout => exact .outside ht hout
  | critical ht hsection => exact .critical ht (AnySection.granted hsection)

theorem maxSize_of_run (hrun : Run (Step anyProgram) (start maxSize) es s) :
    s.shared.maxSize = maxSize :=
  shared_invariant (I := fun q ↦ q.maxSize = maxSize)
    (fun _ _ _ _ _ hq hsection ↦ (AnySection.maxSize_eq hsection).trans hq) hrun rfl

theorem waits_of_asleep (hrun : Run (Step anyProgram) (start maxSize) es s) {t : ι}
    (ht : s.pc t = .asleep c) : s.shared.waits c := by
  refine asleep_invariant (I := fun _ ↦ True) (W := Queue.waits) ?_ ?_ ?_ hrun trivial ?_ t c ht
  · intros
    trivial
  · intro q c e q' c' _ hsection
    exact AnySection.waits hsection
  · intro q c e q' exit _ hsection hnot c₀ hc₀
    rwa [AnySection.eq_of_not_broadcasts hsection hnot]
  · intro t c hasleep
    cases hasleep

end Queue

open Queue

/-- What a sleeping thread waits for has not happened, so a producer and a consumer are
never both asleep. -/
theorem no_stuck_waiter [DecidableEq ι] {maxSize : ℤ} {es : List (Label ι (Event α))}
    {s : State ι (Queue α) Unit (Call α)} (hrun : Run (Step anyProgram) (start maxSize) es s) :
    (∀ t data, s.pc t = .asleep (.push data) → 0 < maxSize ∧ s.shared.size = maxSize) ∧
      (∀ t, s.pc t = .asleep .pull → s.shared.size = 0) ∧
      ∀ t u data, ¬ (s.pc t = .asleep (.push data) ∧ s.pc u = .asleep .pull) := by
  have hpush : ∀ t data, s.pc t = .asleep (.push data) →
      0 < maxSize ∧ s.shared.size = maxSize := by
    intro t data ht
    have hwait : s.shared.pushWaits := waits_of_asleep hrun ht
    rwa [Queue.pushWaits, maxSize_of_run hrun] at hwait
  have hpull : ∀ t, s.pc t = .asleep .pull → s.shared.size = 0 :=
    fun t ht ↦ waits_of_asleep hrun ht
  refine ⟨hpush, hpull, ?_⟩
  rintro t u data ⟨ht, hu⟩
  have hfull := hpush t data ht
  have hempty := hpull u hu
  omega

/-- A consumer sleeps on an empty queue, and a producer gets no memory. -/
theorem no_stuck_waiter_consumer : ∃ s : State Bool (Queue ℕ) Unit (Call ℕ),
    Run (Step anyProgram) (start 1) [.act true (.call .pull), .act true (.sleep .pull),
      .act false (.call (.push 7)), .act false (.fail 7)] s ∧
      s.pc true = .asleep .pull ∧ s.shared.size = 0 := by
  let s₁ : State Bool (Queue ℕ) Unit (Call ℕ) := (start 1).setPc true (.ready .pull)
  let s₂ := s₁.finish true s₁.shared (.wait .pull)
  let s₃ := s₂.setPc false (.ready (.push 7))
  let s₄ := s₃.finish false s₃.shared (.leave () false)
  have hempty : s₁.shared.waits .pull := rfl
  have hroom : ¬ s₃.shared.pushWaits := fun h ↦ absurd h.2 (by decide)
  have h₁ : Step anyProgram (start 1) (.act true (.call .pull)) s₁ := step_any (step_call .pull rfl)
  have h₂ : Step anyProgram s₁ (.act true (.sleep .pull)) s₂ :=
    .critical rfl (AnySection.granted (.sleep hempty))
  have h₃ : Step anyProgram s₂ (.act false (.call (.push 7))) s₃ :=
    step_any (step_call (.push 7) rfl)
  have h₄ : Step anyProgram s₃ (.act false (.fail 7)) s₄ := .critical rfl (AnySection.fails hroom)
  have hrun := Run.cons h₁ (Run.cons h₂ (Run.cons h₃ (Run.single h₄)))
  obtain ⟨-, hpull, -⟩ := no_stuck_waiter hrun
  exact ⟨s₄, hrun, rfl, hpull true rfl⟩

end SystemProgramming.CriticalConcurrency
