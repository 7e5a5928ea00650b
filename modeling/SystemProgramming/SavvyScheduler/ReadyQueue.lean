import SystemProgramming.SavvyScheduler.Model

/-!
# The ready queue against the unfinished jobs

`scheduler_job_finished` polls the head of the queue whatever job it is given.
The queue therefore holds exactly the unfinished jobs as long as every job is at
the head when it finishes, and loses a waiting job the first time it is not.
-/

namespace SystemProgramming.SavvyScheduler

variable {Job : Type*}

theorem Priqueue.offer_perm (P : Priqueue Job) (cmp : Job → Job → ℤ) (queue : List Job)
    (job : Job) : (P.offer cmp queue job).Perm (job :: queue) := by
  obtain ⟨before, after, hqueue, hoffer, -, -⟩ := P.offer_spec cmp queue job
  rw [hoffer, hqueue]
  exact List.perm_middle

namespace Scheduler

variable [DecidableEq Job] (P : Priqueue Job) (s : Scheduler Job)

theorem schedulerNewJob_pqueue_perm (job : Job) (n : ℤ) (time : ℚ) (data : SchedulerInfo) :
    (s.schedulerNewJob P job n time data).pqueue.Perm (job :: s.pqueue) :=
  P.offer_perm _ _ _

omit [DecidableEq Job] in
/-- Rotating moves the head elsewhere and keeps every queued job. -/
theorem rotate_pqueue_perm : (s.rotate P).pqueue.Perm s.pqueue := by
  cases hq : s.pqueue with
  | nil => simp [rotate, priqueuePoll, hq]
  | cons cur rest =>
      simpa [rotate, priqueuePoll, hq, priqueueOffer] using P.offer_perm _ rest cur

theorem schedulerQuantumExpired_pqueue_perm (evicted : Option Job) (time : ℚ) :
    (s.schedulerQuantumExpired P evicted time).2.pqueue.Perm s.pqueue := by
  cases evicted with
  | none => exact List.Perm.refl _
  | some job =>
      by_cases hpre : s.pqueueScheme.preemptive
      · simp only [schedulerQuantumExpired, hpre, if_true]
        exact rotate_pqueue_perm P _
      · simp only [schedulerQuantumExpired, hpre]
        exact List.Perm.refl _

/-- The job handed out is a queued one, or the evicted job itself. -/
theorem schedulerQuantumExpired_mem (evicted : Option Job) (time : ℚ) {job : Job}
    (h : (s.schedulerQuantumExpired P evicted time).1 = some job) :
    job ∈ s.pqueue ∨ evicted = some job := by
  cases evicted with
  | none => exact Or.inl (List.mem_of_mem_head? h)
  | some old =>
      by_cases hpre : s.pqueueScheme.preemptive
      · simp only [schedulerQuantumExpired, hpre, if_true] at h
        have hmem := (rotate_pqueue_perm P _).mem_iff.mp (List.mem_of_mem_head? h)
        exact Or.inl hmem
      · simp only [schedulerQuantumExpired, hpre] at h
        exact Or.inr h

end Scheduler

/-! ## Exactly the unfinished jobs -/

def Sys.Unfinished (s : Sys Job) (job : Job) : Prop :=
  job ∈ s.arrived ∧ job ∉ s.finished

instance [DecidableEq Job] (s : Sys Job) (job : Job) : Decidable (s.Unfinished job) :=
  inferInstanceAs (Decidable (_ ∧ _))

/-- Every unfinished job is queued exactly once, no other job is queued, and the
job last handed out is not a finished one. -/
structure Sys.KeepsUnfinished [DecidableEq Job] (s : Sys Job) : Prop where
  count_eq : ∀ job, s.sched.pqueue.count job = if s.Unfinished job then 1 else 0
  running_unfinished : ∀ job, s.running = some job → s.Unfinished job

/-- The condition on a step: a job that finishes is the head of the queue. -/
def FinishesAtHead (s : Sys Job) : Call Job → Prop
  | .jobFinished jobDone _ => priqueuePeek s.sched.pqueue = some jobDone
  | _ => True

variable [DecidableEq Job] {P : Priqueue Job} {s t : Sys Job}

namespace Sys

/-- What a call leaves behind, one case for each entry point. -/
theorem call_cases {c : Call Job} (h : s.call P c = some t) :
    (∃ job n time data, c = .newJob job n time data ∧ job ∉ s.arrived ∧
      t = { s with
        sched := s.sched.schedulerNewJob P job n time data
        arrived := job :: s.arrived }) ∨
    (∃ evicted time, c = .quantumExpired evicted time ∧
      (evicted = none ∨ evicted = s.running) ∧
      t = { s with
        sched := (s.sched.schedulerQuantumExpired P evicted time).2
        running := (s.sched.schedulerQuantumExpired P evicted time).1 }) ∨
    (∃ job time, c = .jobFinished job time ∧ s.running = some job ∧
      t = { s with
        sched := s.sched.schedulerJobFinished job time
        finished := job :: s.finished
        running := none }) := by
  cases c with
  | newJob job n time data =>
      by_cases hmem : job ∈ s.arrived
      · simp [call, hmem] at h
      · exact Or.inl ⟨job, n, time, data, rfl, hmem, by simpa [call, hmem] using h.symm⟩
  | quantumExpired evicted time =>
      by_cases hev : evicted = none ∨ evicted = s.running
      · refine Or.inr (Or.inl ⟨evicted, time, rfl, hev, ?_⟩)
        simpa only [call, if_pos hev, Option.some.injEq, eq_comm] using h
      · simp [call, hev] at h
  | jobFinished job time =>
      by_cases hrun : s.running = some job
      · exact Or.inr (Or.inr ⟨job, time, rfl, hrun, by simpa [call, hrun] using h.symm⟩)
      · simp [call, hrun] at h

/-- The invariant: besides the queue's contents, only arrived jobs finish. -/
structure QueueInv (s : Sys Job) : Prop where
  keeps : s.KeepsUnfinished
  finished_arrived : ∀ job ∈ s.finished, job ∈ s.arrived

namespace QueueInv

theorem start (scheme : Scheme) (metadata : Job → JobInfo) :
    (Sys.start scheme metadata).QueueInv where
  keeps :=
    { count_eq := by simp [Sys.start, schedulerStartUp, Unfinished]
      running_unfinished := by simp [Sys.start] }
  finished_arrived := by simp [Sys.start]

theorem mem_pqueue_iff (h : s.QueueInv) {job : Job} :
    job ∈ s.sched.pqueue ↔ s.Unfinished job := by
  rw [← List.count_pos_iff, h.keeps.count_eq]
  split <;> simp_all

theorem newJob (h : s.QueueInv) {job : Job} (hfresh : job ∉ s.arrived) (n : ℤ) (time : ℚ)
    (data : SchedulerInfo) :
    QueueInv { s with
      sched := s.sched.schedulerNewJob P job n time data
      arrived := job :: s.arrived } where
  keeps :=
    { count_eq := by
        intro other
        have hold := h.keeps.count_eq other
        rw [(s.sched.schedulerNewJob_pqueue_perm P job n time data).count_eq,
          List.count_cons, hold]
        by_cases heq : job = other
        · subst heq
          have hfin : job ∉ s.finished := fun hf ↦ hfresh (h.finished_arrived job hf)
          simp [Unfinished, hfresh, hfin]
        · have hiff : Unfinished { s with
              sched := s.sched.schedulerNewJob P job n time data
              arrived := job :: s.arrived } other ↔ s.Unfinished other := by
            simp [Unfinished, Ne.symm heq]
          simp [hiff, heq]
      running_unfinished := fun other hrun ↦
        ⟨List.mem_cons_of_mem _ (h.keeps.running_unfinished other hrun).1,
          (h.keeps.running_unfinished other hrun).2⟩ }
  finished_arrived := fun other hf ↦ List.mem_cons_of_mem _ (h.finished_arrived other hf)

theorem quantumExpired (h : s.QueueInv) {evicted : Option Job}
    (hev : evicted = none ∨ evicted = s.running) (time : ℚ) :
    QueueInv { s with
      sched := (s.sched.schedulerQuantumExpired P evicted time).2
      running := (s.sched.schedulerQuantumExpired P evicted time).1 } where
  keeps :=
    { count_eq := fun job ↦
        ((s.sched.schedulerQuantumExpired_pqueue_perm P evicted time).count_eq job).trans
          (h.keeps.count_eq job)
      running_unfinished := by
        intro job hjob
        rcases s.sched.schedulerQuantumExpired_mem P evicted time hjob with hmem | rfl
        · exact h.mem_pqueue_iff.mp hmem
        · rcases hev with hnone | hrun
          · cases hnone
          · exact h.keeps.running_unfinished job hrun.symm }
  finished_arrived := h.finished_arrived

/-- Polling the head is right when the head is the job that finished. -/
theorem jobFinished (h : s.QueueInv) {job : Job} (hhead : priqueuePeek s.sched.pqueue = some job)
    (hrun : s.running = some job) (time : ℚ) :
    QueueInv { s with
      sched := s.sched.schedulerJobFinished job time
      finished := job :: s.finished
      running := none } := by
  obtain ⟨rest, hqueue⟩ : ∃ rest, s.sched.pqueue = job :: rest := by
    cases hq : s.sched.pqueue with
    | nil => simp [priqueuePeek, hq] at hhead
    | cons head rest =>
        obtain rfl : head = job := by simpa [priqueuePeek, hq] using hhead
        exact ⟨rest, rfl⟩
  have hun := h.keeps.running_unfinished job hrun
  refine ⟨⟨?_, by simp⟩, ?_⟩
  · intro other
    have hold := h.keeps.count_eq other
    rw [hqueue, List.count_cons] at hold
    have hpoll : (s.sched.schedulerJobFinished job time).pqueue = rest := by
      simp [Scheduler.schedulerJobFinished, priqueuePoll, hqueue]
    by_cases heq : job = other
    · subst heq
      rw [if_pos hun] at hold
      simpa [Unfinished, hpoll] using hold
    · have hiff : Unfinished { s with
          sched := s.sched.schedulerJobFinished job time
          finished := job :: s.finished
          running := none } other ↔ s.Unfinished other := by
        simp [Unfinished, Ne.symm heq]
      simpa [hiff, hpoll, heq] using hold
  · intro other hf
    rcases List.mem_cons.mp hf with rfl | hf
    · exact hun.1
    · exact h.finished_arrived other hf

theorem step {c : Call Job} (h : s.QueueInv) (hok : FinishesAtHead s c)
    (hcall : s.call P c = some t) : t.QueueInv := by
  rcases call_cases hcall with
    ⟨job, n, time, data, rfl, hfresh, rfl⟩ | ⟨evicted, time, rfl, hev, rfl⟩ |
      ⟨job, time, rfl, hrun, rfl⟩
  · exact h.newJob hfresh n time data
  · exact h.quantumExpired hev time
  · exact h.jobFinished hok hrun time

/-- Finishing a job that is not the head drops the job that is. -/
theorem not_keepsUnfinished_of_step {c : Call Job} (h : s.QueueInv)
    (hbad : ¬ FinishesAtHead s c) (hcall : s.call P c = some t) : ¬ t.KeepsUnfinished := by
  rcases call_cases hcall with
    ⟨job, n, time, data, rfl, -, -⟩ | ⟨evicted, time, rfl, -, -⟩ | ⟨job, time, rfl, hrun, rfl⟩
  · exact absurd trivial hbad
  · exact absurd trivial hbad
  intro hkeeps
  have hjob : job ∈ s.sched.pqueue :=
    h.mem_pqueue_iff.mpr (h.keeps.running_unfinished job hrun)
  cases hqueue : s.sched.pqueue with
  | nil => simp [hqueue] at hjob
  | cons head rest =>
      have hne : head ≠ job := fun heq ↦ hbad (by simp [FinishesAtHead, priqueuePeek, hqueue, heq])
      have hhead : s.Unfinished head := h.mem_pqueue_iff.mp (by simp [hqueue])
      have hone := h.keeps.count_eq head
      have hleft := hkeeps.count_eq head
      have hpoll : (s.sched.schedulerJobFinished job time).pqueue = rest := by
        simp [Scheduler.schedulerJobFinished, priqueuePoll, hqueue]
      have hstill : Unfinished { s with
          sched := s.sched.schedulerJobFinished job time
          finished := job :: s.finished
          running := none } head :=
        ⟨hhead.1, by simpa [hne] using hhead.2⟩
      rw [hqueue, List.count_cons_self, if_pos hhead] at hone
      rw [if_pos hstill, hpoll] at hleft
      omega

end QueueInv

end Sys

/-- In every run, under every scheme: the queue holds exactly the unfinished jobs
after every call if and only if every job is at the head of the queue when it
finishes. -/
theorem keepsUnfinished_iff_finishesAtHead (P : Priqueue Job) (scheme : Scheme)
    (metadata : Job → JobInfo) (calls : List (Call Job)) (t : Sys Job)
    (hrun : Run (StepOf (Sys.call P)) (Sys.start scheme metadata) calls t) :
    (∀ pre post u, calls = pre ++ post →
      Run (StepOf (Sys.call P)) (Sys.start scheme metadata) pre u → u.KeepsUnfinished) ↔
    Run (Guarded (StepOf (Sys.call P)) FinishesAtHead) (Sys.start scheme metadata) calls t :=
  Run.forall_visited_iff_guarded (I := Sys.QueueInv) (fun _ h ↦ h.keeps)
    (fun _ _ _ h hok hcall ↦ h.step hok hcall)
    (fun _ _ _ h hbad hcall ↦ h.not_keepsUnfinished_of_step hbad hcall)
    (Sys.QueueInv.start scheme metadata) hrun

/-- Under FCFS two jobs are queued in order and the first one finishes. -/
theorem keepsUnfinished_iff_finishesAtHead_fcfs :
    ∃ t : Sys ℕ, t.sched.pqueue = [2] ∧
      ((∀ pre post u,
        [.newJob 1 1 0 ⟨10, 5⟩, .quantumExpired none 0, .newJob 2 2 1 ⟨10, 1⟩,
          .jobFinished 1 10] = pre ++ post →
        Run (StepOf (Sys.call (Priqueue.insertion ℕ)))
          (Sys.start .FCFS fun _ ↦ ⟨0, 0, 0, 0, 0, 0, 0⟩) pre u → u.KeepsUnfinished) ↔
      Run (Guarded (StepOf (Sys.call (Priqueue.insertion ℕ))) FinishesAtHead)
        (Sys.start .FCFS fun _ ↦ ⟨0, 0, 0, 0, 0, 0, 0⟩)
        [.newJob 1 1 0 ⟨10, 5⟩, .quantumExpired none 0, .newJob 2 2 1 ⟨10, 1⟩,
          .jobFinished 1 10] t) :=
  ⟨_, rfl, keepsUnfinished_iff_finishesAtHead (Priqueue.insertion ℕ) .FCFS _ _ _
    (Run.execute_eq_some_iff.mp rfl)⟩

/-- Under PRI a job of smaller priority value arrives while job 1 runs; finishing
job 1 removes the new job from the queue and leaves job 1 in it. -/
theorem pri_finish_drops_arrival :
    ∃ t : Sys ℕ, Run (StepOf (Sys.call (Priqueue.insertion ℕ)))
        (Sys.start .PRI fun _ ↦ ⟨0, 0, 0, 0, 0, 0, 0⟩)
        [.newJob 1 1 0 ⟨10, 5⟩, .quantumExpired none 0, .newJob 2 2 1 ⟨10, 1⟩,
          .jobFinished 1 10] t ∧
      t.sched.pqueue = [1] ∧ t.finished = [1] ∧ t.Unfinished 2 ∧ ¬ t.KeepsUnfinished :=
  ⟨_, Run.execute_eq_some_iff.mp rfl, rfl, rfl, by decide,
    fun h ↦ absurd (h.count_eq 2) (by decide)⟩

/-! ## First come, first served -/

/-- Arrival times do not decrease. -/
def ArrivesInOrder (s : Sys Job) : Call Job → Prop
  | .newJob _ _ time _ => ∀ other ∈ s.sched.pqueue, (s.sched.metadata other).arrivalTime ≤ time
  | _ => True

/-- An offered job that compares greater than or equal to every queued one goes to
the end. -/
theorem Priqueue.offer_eq_append {cmp : Job → Job → ℤ} {queue : List Job} {job : Job}
    (h : ∀ other ∈ queue, 0 ≤ cmp job other) : P.offer cmp queue job = queue ++ [job] := by
  obtain ⟨before, after, rfl, hoffer, -, hafter⟩ := P.offer_spec cmp queue job
  cases after with
  | nil => simpa using hoffer
  | cons other after =>
      have hlt := hafter other (by simp)
      have hge := h other (by simp)
      omega

/-- The invariant of FCFS: the running job is the head. -/
structure Sys.RunsHead (s : Sys Job) : Prop where
  scheme : s.sched.pqueueScheme = .FCFS
  head : ∀ job, s.running = some job → priqueuePeek s.sched.pqueue = some job

theorem comparerFcfs_nonneg {a b : JobInfo} (h : b.arrivalTime ≤ a.arrivalTime) :
    0 ≤ comparerFcfs a b := by
  unfold comparerFcfs
  rw [if_neg (not_lt.mpr h)]
  split <;> decide

theorem Sys.RunsHead.step {c : Call Job} (h : s.RunsHead) (hok : ArrivesInOrder s c)
    (hcall : s.call P c = some t) : t.RunsHead := by
  rcases call_cases hcall with
    ⟨job, n, time, data, rfl, -, rfl⟩ | ⟨evicted, time, rfl, hev, rfl⟩ |
      ⟨job, time, rfl, -, rfl⟩
  · refine ⟨h.scheme, fun running hrun ↦ ?_⟩
    have hhead := h.head running hrun
    have hend : (s.sched.schedulerNewJob P job n time data).pqueue = s.sched.pqueue ++ [job] := by
      refine Priqueue.offer_eq_append fun other hother ↦ ?_
      have hle := hok other hother
      simp only [Scheduler.compare, Scheduler.setMetadata, h.scheme, Scheme.comparisionFunc]
      apply comparerFcfs_nonneg
      by_cases heq : other = job
      · simp [heq]
      · simpa [heq] using hle
    simp only [priqueuePeek] at hhead ⊢
    rw [hend, List.head?_append, hhead, Option.some_or]
  · have hpre : s.sched.pqueueScheme.preemptive = false := by rw [h.scheme]; rfl
    cases evicted with
    | none => exact ⟨h.scheme, fun job hjob ↦ hjob⟩
    | some old =>
        have hrun : s.running = some old := by simpa [eq_comm] using hev
        refine ⟨?_, fun job hjob ↦ ?_⟩
        · simpa [Scheduler.schedulerQuantumExpired, hpre] using h.scheme
        · obtain rfl : old = job := by
            simpa [Scheduler.schedulerQuantumExpired, hpre] using hjob
          simpa [Scheduler.schedulerQuantumExpired, hpre] using h.head old hrun
  · exact ⟨h.scheme, by simp⟩

/-- FCFS with a clock that does not go back finishes every job at the head, so its
queue always holds exactly the unfinished jobs. -/
theorem fcfs_keepsUnfinished (metadata : Job → JobInfo) {calls : List (Call Job)}
    (hrun : Run (Guarded (StepOf (Sys.call P)) ArrivesInOrder)
      (Sys.start .FCFS metadata) calls t) : t.KeepsUnfinished := by
  have hboth : t.QueueInv ∧ t.RunsHead := by
    refine hrun.invariant (I := fun s ↦ s.QueueInv ∧ s.RunsHead) ?_
      ⟨Sys.QueueInv.start _ metadata, rfl, by simp [Sys.start]⟩
    rintro s c u ⟨hinv, hhead⟩ ⟨hok, hcall⟩
    refine ⟨hinv.step ?_ hcall, hhead.step hok hcall⟩
    cases c with
    | jobFinished job time =>
        refine hhead.head job ?_
        by_contra hne
        simp [StepOf, Sys.call, hne] at hcall
    | newJob job n time data => trivial
    | quantumExpired evicted time => trivial
  exact hboth.1.keeps

end SystemProgramming.SavvyScheduler
