import SystemProgramming.CriticalConcurrency.Barrier
import SystemProgramming.Lib.Termination

/-!
# Threads that meet at the barrier

As many threads as the barrier was initialised for call `barrier_wait` a given number of times
each.  No thread is left behind in a round.
-/

namespace SystemProgramming.CriticalConcurrency.Barrier

open Monitor

variable {ι : Type*}

/-- The four ways through a section. -/
theorem barrierWait_cases {b b' : Barrier} {place : Place} {e : Event}
    {exit : Exit Outside Place} (h : b.barrierWait place = (e, b', exit)) :
    (place = .entry ∧ (e = .enter ∧ (∃ stage, exit = .wait (.loop stage)) ∨
      e = .complete ∧ exit = .leave .unlocked true)) ∨
    ∃ stage, place = .loop stage ∧ (e = .sleep ∧ exit = .wait (.loop stage) ∨
      e = .leave ∧ exit = .leave .unlocked false) := by
  cases place with
  | entry =>
    left
    simp only [barrierWait] at h
    split at h
    · simp only [Prod.mk.injEq] at h
      exact ⟨rfl, .inl ⟨h.1.symm, _, h.2.2.symm⟩⟩
    · simp only [Prod.mk.injEq] at h
      exact ⟨rfl, .inr ⟨h.1.symm, h.2.2.symm⟩⟩
  | loop stage =>
    right
    simp only [barrierWait] at h
    split at h
    · simp only [Prod.mk.injEq] at h
      exact ⟨stage, rfl, .inl ⟨h.1.symm, h.2.2.symm⟩⟩
    · simp only [Prod.mk.injEq] at h
      exact ⟨stage, rfl, .inr ⟨h.1.symm, h.2.2.symm⟩⟩

/-- The barrier with the calls that each thread has still to make. -/
structure Rounds (ι : Type*) where
  barrier : State ι Barrier Outside Place
  left : ι → ℕ

namespace Rounds

def start (n calls : ℕ) : Rounds ι := ⟨Barrier.start n, fun _ ↦ calls⟩

variable [DecidableEq ι]

inductive Step : Rounds ι → Label ι Event → Rounds ι → Prop
  | call {s : Rounds ι} {t : ι} {k : ℕ} {barrier : State ι Barrier Outside Place} :
      s.left t = k + 1 → Monitor.Step program s.barrier (.act t .call) barrier →
      Step s (.act t .call) ⟨barrier, Function.update s.left t k⟩
  | other {s : Rounds ι} {l : Label ι Event} {barrier : State ι Barrier Outside Place} :
      (∀ t, l ≠ .act t .call) → Monitor.Step program s.barrier l barrier →
      Step s l ⟨barrier, s.left⟩

def Finished (s : Rounds ι) (t : ι) : Prop := s.barrier.pc t = .out .idle ∧ s.left t = 0

def spurious : Label ι Event → Bool
  | .wake _ => true
  | .act _ _ => false

/-- A call that has not entered its round. -/
def pending : Monitor.Pc Outside Place → ℕ
  | .ready .entry => 1
  | _ => 0

/-- The calls of `u` that begin with a step. -/
def called (u : ι) : Label ι Event → ℕ
  | .act t .call => if t = u then 1 else 0
  | _ => 0

variable {s s' : Rounds ι} {es : List (Label ι Event)} {l : Label ι Event} {t : ι} {calls : ℕ}
  {b b' : State ι Barrier Outside Place}

omit [DecidableEq ι] in
theorem pending_wake {r entered returned : ℕ} {pc : Monitor.Pc Outside Place}
    (h : Place.Ok r entered returned pc) : pending pc.wake = pending pc := by
  match pc with
  | .out _ | .ready _ => rfl
  | .asleep .entry => exact h.elim
  | .asleep (.loop _) => rfl

/-- A call is pending until it enters its round. -/
theorem entered_add_pending (hok : ∀ u, ∃ r entered returned, Place.Ok r entered returned (b.pc u))
    (hstep : Monitor.Step program b l b') (u : ι) :
    entered u [l] + pending (b'.pc u) = pending (b.pc u) + called u l := by
  obtain ⟨r, n, m, hu⟩ := hok u
  cases hstep with
  | wake t =>
    rcases eq_or_ne u t with rfl | hne
    · simp [entered, called, State.setPc, pending_wake hu]
    · simp [entered, called, State.setPc, hne]
  | @outside t _ e next hpc hout =>
    obtain ⟨rfl, rfl, rfl⟩ | ⟨rfl, rfl, rfl⟩ := hout
    · rcases eq_or_ne u t with rfl | hne
      · simp [entered, called, State.setPc, hpc, pending]
      · simp [entered, called, State.setPc, hne, hne.symm]
    · rcases eq_or_ne u t with rfl | hne
      · simp [entered, called, State.setPc, hpc, pending]
      · simp [entered, called, State.setPc, hne]
  | @critical t place e shared exit hpc hwait =>
    obtain ⟨rfl, ⟨rfl, stage, rfl⟩ | ⟨rfl, rfl⟩⟩ | ⟨stage, rfl, ⟨rfl, rfl⟩ | ⟨rfl, rfl⟩⟩ :=
      barrierWait_cases hwait
    all_goals
      rcases eq_or_ne u t with rfl | hne
      · simp [entered, called, State.finish, hpc, pending, Exit.pc]
      · simp [entered, called, State.finish, hne, hne.symm, Exit.others, pending_wake hu]

structure Inv [Fintype ι] (calls : ℕ) (es : List (Label ι Event)) (s : Rounds ι) : Prop where
  barrier : Barrier.Inv es s.barrier
  calls_eq : ∀ t, entered t es + pending (s.barrier.pc t) + s.left t = calls

theorem Inv.step [Fintype ι] (h : Inv calls es s) (hstep : Step s l s') :
    Inv calls (es ++ [l]) s' := by
  have hok : ∀ u, ∃ r entered returned, Place.Ok r entered returned (s.barrier.pc u) :=
    fun u ↦ ⟨_, _, _, h.barrier.ok u⟩
  cases hstep with
  | @call t k barrier hleft hcall =>
    refine ⟨h.barrier.step hcall, fun u ↦ ?_⟩
    have hpending := entered_add_pending hok hcall u
    have hcalls := h.calls_eq u
    rw [entered_snoc]
    rcases eq_or_ne u t with rfl | hne
    · simp only [Function.update_self, called, if_true] at hpending ⊢
      omega
    · simp only [Function.update_of_ne hne, called, hne.symm, if_false] at hpending ⊢
      omega
  | other hne hother =>
    refine ⟨h.barrier.step hother, fun u ↦ ?_⟩
    have hpending := entered_add_pending hok hother u
    have hcalls := h.calls_eq u
    have hnone : called u l = 0 := by
      unfold called
      split
      · exact absurd rfl (hne _)
      · rfl
    rw [entered_snoc]
    simp only
    omega

theorem inv_of_run [Fintype ι] [Nonempty ι]
    (hrun : Run Step (start (Fintype.card ι) calls) es s) : Inv calls es s := by
  induction hrun with
  | nil => exact ⟨.init, fun t ↦ by simp [start, Barrier.start, entered, pending]⟩
  | snoc _ hlast ih => exact ih.step hlast

/-! ## Progress -/

theorem exists_step_of_awake (hawake : ∀ place, s.barrier.pc t ≠ .asleep place)
    (ht : ¬ s.Finished t) : ∃ l s', spurious l = false ∧ Step s l s' := by
  cases hpc : s.barrier.pc t with
  | asleep place => exact absurd hpc (hawake place)
  | ready place =>
    obtain ⟨e, shared, exit, hwait⟩ : ∃ e shared exit,
      s.barrier.shared.barrierWait place = (e, shared, exit) := ⟨_, _, _, rfl⟩
    have hnot : ∀ u, (.act t e : Label ι Event) ≠ .act u .call := by
      rintro u ⟨⟩
      obtain ⟨-, ⟨⟨⟩, -⟩ | ⟨⟨⟩, -⟩⟩ | ⟨-, -, ⟨⟨⟩, -⟩ | ⟨⟨⟩, -⟩⟩ := barrierWait_cases hwait
    exact ⟨_, _, rfl, .other hnot (.critical hpc hwait)⟩
  | out l =>
    cases l with
    | unlocked => exact ⟨_, _, rfl, .other (by simp) (step_ret hpc)⟩
    | idle =>
      obtain ⟨k, hk⟩ := Nat.exists_eq_succ_of_ne_zero fun hzero ↦ ht ⟨hpc, hzero⟩
      exact ⟨_, _, rfl, .call hk (step_call hpc)⟩

/-- The threads are never all asleep: who sleeps is in the round, and who has made all calls
would be ahead of it. -/
theorem Inv.exists_awake [Fintype ι] (h : Inv calls es s) (ht : ¬ s.Finished t) :
    ∃ u, (∀ place, s.barrier.pc u ≠ .asleep place) ∧ ¬ s.Finished u := by
  by_contra hall
  push Not at hall
  have hin : ∀ u place, s.barrier.pc u = .asleep place → entered u es = Barrier.rounds es + 1 := by
    intro u place hu
    have hok := h.barrier.ok u
    rw [hu] at hok
    cases place with
    | entry => exact hok.elim
    | loop stage => exact hok.1
  obtain ⟨place, hplace⟩ : ∃ place, s.barrier.pc t = .asleep place := by
    by_contra hawake
    push Not at hawake
    exact ht (hall t hawake)
  have hround : ∀ u, u ∈ inRound es := by
    intro u
    by_cases hawake : ∀ place, s.barrier.pc u ≠ .asleep place
    · obtain ⟨hidle, hleft⟩ := hall u hawake
      have hok := h.barrier.ok u
      rw [hidle] at hok
      have hu := h.calls_eq u
      have ht' := h.calls_eq t
      rw [hidle, hleft] at hu
      rw [hin t place hplace] at ht'
      have hentered : entered u es = Barrier.rounds es := hok.1
      simp only [pending] at hu
      omega
    · push Not at hawake
      obtain ⟨place', hplace'⟩ := hawake
      simp [inRound, hin u place' hplace']
  have hcard : (inRound es).card = Fintype.card ι :=
    (Finset.card_eq_iff_eq_univ _).mpr (Finset.eq_univ_iff_forall.mpr hround)
  have hlt := h.barrier.count_lt
  rw [h.barrier.count_eq, hcard] at hlt
  exact lt_irrefl _ hlt

/-! ## The work that is left -/

/-- The steps up to the return of a call. -/
def toReturn : Monitor.Pc Outside Place → ℕ
  | .out .idle => 0
  | .out .unlocked => 1
  | .ready (.loop _) | .asleep (.loop _) => 2
  | .ready .entry | .asleep .entry => 3

def isAwake : Monitor.Pc Outside Place → Bool
  | .asleep _ => false
  | _ => true

def work (s : Rounds ι) (t : ι) : ℕ := 4 * s.left t + toReturn (s.barrier.pc t)

def awake (s : Rounds ι) (t : ι) : Bool := isAwake (s.barrier.pc t)

theorem toReturn_wake (pc : Monitor.Pc Outside Place) : toReturn pc.wake = toReturn pc := by
  match pc with
  | .out _ | .ready _ | .asleep .entry | .asleep (.loop _) => rfl

omit [DecidableEq ι] in
theorem workload_lt_of_work_lt [Fintype ι] (hother : ∀ u, u ≠ t → work s' u = work s u)
    (ht : work s' t < work s t) :
    workload (work s') s'.awake < workload (work s) s.awake := by
  refine workload_lt_of_work (t := t) (fun u ↦ ?_) ht
  rcases eq_or_ne u t with rfl | hne
  · exact ht.le
  · exact (hother u hne).le

theorem workload_lt [Fintype ι] (hstep : Step s l s') (hspurious : spurious l = false) :
    workload (work s') s'.awake < workload (work s) s.awake := by
  cases hstep with
  | @call t k barrier hleft hcall =>
    cases hcall with
    | outside hpc hout =>
      obtain ⟨rfl, -, rfl⟩ | ⟨-, he, -⟩ := hout
      · apply workload_lt_of_work_lt (t := t)
        · intro u hne
          simp [work, State.setPc, hne]
        · simp [work, State.setPc, hpc, hleft, toReturn]
          omega
      · cases he
    | critical hpc hwait =>
      obtain ⟨-, ⟨⟨⟩, -⟩ | ⟨⟨⟩, -⟩⟩ | ⟨-, -, ⟨⟨⟩, -⟩ | ⟨⟨⟩, -⟩⟩ := barrierWait_cases hwait
  | other hnot hother =>
    cases hother with
    | wake => cases hspurious
    | @outside t _ e next hpc hout =>
      obtain ⟨-, rfl, -⟩ | ⟨rfl, -, rfl⟩ := hout
      · exact absurd rfl (hnot t)
      · apply workload_lt_of_work_lt (t := t)
        · intro u hne
          simp [work, State.setPc, hne]
        · simp [work, State.setPc, hpc, toReturn]
    | @critical t place e shared exit hpc hwait =>
      have hothers : ∀ u, u ≠ t →
          work ⟨s.barrier.finish t shared exit, s.left⟩ u = work s u := by
        intro u hne
        obtain ⟨-, ⟨-, stage, rfl⟩ | ⟨-, rfl⟩⟩ | ⟨stage, -, ⟨-, rfl⟩ | ⟨-, rfl⟩⟩ :=
          barrierWait_cases hwait
        all_goals simp [work, State.finish, hne, Exit.others, toReturn_wake]
      obtain ⟨rfl, ⟨-, stage, rfl⟩ | ⟨-, rfl⟩⟩ | ⟨stage, rfl, ⟨-, rfl⟩ | ⟨-, rfl⟩⟩ :=
        barrierWait_cases hwait
      · apply workload_lt_of_work_lt hothers
        simp [work, State.finish, Exit.pc, hpc, toReturn]
      · apply workload_lt_of_work_lt hothers
        simp [work, State.finish, Exit.pc, hpc, toReturn]
      · -- the loop is entered again, and the thread sleeps
        refine workload_lt_of_sleep (t := t) (fun u ↦ ?_) ?_ ?_ fun u hu ↦ ?_
        · rcases eq_or_ne u t with rfl | hne
          · simp [work, State.finish, Exit.pc, hpc, toReturn]
          · exact hothers u hne
        · simp [awake, hpc, isAwake]
        · simp [awake, State.finish, Exit.pc, isAwake]
        · rcases eq_or_ne u t with rfl | hne
          · simp [awake, hpc, isAwake]
          · simpa [awake, State.finish, hne, Exit.others] using hu
      · apply workload_lt_of_work_lt hothers
        simp [work, State.finish, Exit.pc, hpc, toReturn]

theorem workload_le [Fintype ι] (hstep : Step s l s') (hspurious : spurious l = true) :
    workload (work s') s'.awake ≤ workload (work s) s.awake + 1 := by
  cases hstep with
  | call => cases hspurious
  | other _ hother =>
    cases hother with
    | wake t =>
      refine workload_le_of_wake (t := t) (fun u ↦ ?_) fun u hne hu ↦ ?_
      · rcases eq_or_ne u t with rfl | hne
        · simp [work, State.setPc, toReturn_wake]
        · simp [work, State.setPc, hne]
      · simpa [awake, State.setPc, hne] using hu
    | _ => cases hspurious

omit [DecidableEq ι] in
theorem workload_start [Fintype ι] (n : ℕ) :
    workload (work (start n calls : Rounds ι)) (start n calls : Rounds ι).awake =
      Fintype.card ι * (4 * calls) * (Fintype.card ι + 1) + Fintype.card ι := by
  simp [workload, work, awake, start, Barrier.start, toReturn, isAwake]

/-- The threads meet as often as they call, under every schedule: as long as one of them has calls
left, some thread can go on without a wake-up out of nothing, each step but such a wake-up
brings the end nearer, and in the end every thread has been given the same values. -/
theorem rounds_complete [Fintype ι] [Nonempty ι]
    (hrun : Run Step (start (Fintype.card ι) calls) es s) :
    es.countP (fun l ↦ !spurious l) ≤
        Fintype.card ι * (4 * calls) * (Fintype.card ι + 1) + Fintype.card ι +
          es.countP spurious ∧
      (¬ (∀ t, s.Finished t) → ∃ l s', spurious l = false ∧ Step s l s') ∧
      ((∀ t, s.Finished t) → ∀ t, values t es = (List.range calls).map valueOf) := by
  have h := inv_of_run hrun
  refine ⟨?_, ?_, ?_⟩
  · have hcount := Run.countP_le (I := fun _ ↦ True)
      (μ := fun s : Rounds ι ↦ workload (work s) s.awake) (p := spurious)
      (fun _ _ _ _ _ ↦ trivial) (fun _ _ _ _ hstep hl ↦ workload_lt hstep hl)
      (fun _ _ _ _ hstep hl ↦ workload_le hstep hl) hrun trivial
    rw [workload_start] at hcount
    exact (Nat.le_add_right _ _).trans hcount
  · intro hnot
    push Not at hnot
    obtain ⟨t, ht⟩ := hnot
    obtain ⟨u, hawake, hu⟩ := h.exists_awake ht
    exact exists_step_of_awake hawake hu
  · intro hfinished t
    obtain ⟨hidle, hleft⟩ := hfinished t
    have hok := h.barrier.ok t
    have hcalls := h.calls_eq t
    rw [hidle] at hok
    rw [hidle, hleft] at hcalls
    obtain ⟨hentered, hreturned⟩ := hok
    have hlength : (values t es).length = calls := by
      rw [hreturned, ← hentered]
      exact hcalls
    rw [h.barrier.values_eq t, hlength]

/-- One of two threads waits for the other. -/
theorem rounds_complete_two : ∃ (es : List (Label Bool Event)) (s : Rounds Bool),
    es = [.act false .call, .act false .enter, .act true .call, .act true .complete,
      .act true (.ret 1), .act false .leave, .act false (.ret 1)] ∧
    Run Step (start (Fintype.card Bool) 1) es s ∧
    values false es = (List.range 1).map valueOf ∧ values true es = (List.range 1).map valueOf := by
  let b₁ : State Bool Barrier Outside Place := (Barrier.start 2).setPc false (.ready .entry)
  let b₂ := b₁.finish false ⟨1, 2, 0⟩ (.wait (.loop 0))
  let b₃ := b₂.setPc true (.ready .entry)
  let b₄ := b₃.finish true ⟨0, 2, 1⟩ (.leave .unlocked true)
  let b₅ := b₄.setPc true (.out .idle)
  let b₆ := b₅.finish false ⟨0, 2, 1⟩ (.leave .unlocked false)
  let b₇ := b₆.setPc false (.out .idle)
  let left₁ := Function.update (start (ι := Bool) 2 1).left false 0
  let left₃ := Function.update left₁ true 0
  have h₁ : Step (start 2 1) (.act false .call) ⟨b₁, left₁⟩ := .call rfl (step_call rfl)
  have h₂ : Step ⟨b₁, left₁⟩ (.act false .enter) ⟨b₂, left₁⟩ :=
    .other (by simp) (.critical rfl rfl)
  have h₃ : Step ⟨b₂, left₁⟩ (.act true .call) ⟨b₃, left₃⟩ := .call rfl (step_call rfl)
  have h₄ : Step ⟨b₃, left₃⟩ (.act true .complete) ⟨b₄, left₃⟩ :=
    .other (by simp) (.critical rfl rfl)
  have h₅ : Step ⟨b₄, left₃⟩ (.act true (.ret 1)) ⟨b₅, left₃⟩ := .other (by simp) (step_ret rfl)
  have h₆ : Step ⟨b₅, left₃⟩ (.act false .leave) ⟨b₆, left₃⟩ :=
    .other (by simp) (.critical rfl rfl)
  have h₇ : Step ⟨b₆, left₃⟩ (.act false (.ret 1)) ⟨b₇, left₃⟩ := .other (by simp) (step_ret rfl)
  have hrun := Run.cons h₁ (Run.cons h₂ (Run.cons h₃ (Run.cons h₄ (Run.cons h₅
    (Run.cons h₆ (Run.single h₇))))))
  have hfinished : ∀ t, Finished ⟨b₇, left₃⟩ t := by
    intro t
    cases t <;> exact ⟨rfl, rfl⟩
  have hvalues := (rounds_complete (ι := Bool) hrun).2.2 hfinished
  exact ⟨_, _, rfl, hrun, hvalues false, hvalues true⟩

end Rounds

end SystemProgramming.CriticalConcurrency.Barrier
