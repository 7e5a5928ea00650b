import SystemProgramming.SavvyScheduler.ReadyQueue

/-!
# The preemptive schemes

A quantum changes the key of the evicted job while it is queued, and then polls the head
and offers it again.  The queue stays in order when the jobs behind the head are in order
under the new key, and then the job handed out is the least of the unfinished ones.
-/

namespace SystemProgramming.SavvyScheduler

variable {Job : Type*}

/-! ## The comparers as orders -/

/-- The key of a scheme, before the arrival time.  FCFS has none. -/
def Scheme.key : Scheme → JobInfo → ℚ
  | .FCFS, _ => 0
  | .PRI, info | .PPRI, info => info.priority
  | .PSRTF, info | .SJF, info => info.remainingTime
  | .RR, info => info.recentExecutionTime

def Scheme.rank (scheme : Scheme) (info : JobInfo) : ℚ ×ₗ ℚ :=
  toLex (scheme.key info, info.arrivalTime)

theorem Scheme.comparisionFunc_eq (scheme : Scheme) :
    scheme.comparisionFunc = compareBy scheme.key := by
  funext a b
  cases scheme <;> rfl

theorem Scheme.comparisionFunc_nonpos_iff (scheme : Scheme) (a b : JobInfo) :
    scheme.comparisionFunc a b ≤ 0 ↔ scheme.rank a ≤ scheme.rank b := by
  rw [scheme.comparisionFunc_eq, rank, rank, Prod.Lex.toLex_le_toLex]
  rcases lt_trichotomy (scheme.key a) (scheme.key b) with hlt | heq | hgt
  · simp [compareBy, hlt]
  · rcases lt_trichotomy a.arrivalTime b.arrivalTime with hlt' | heq' | hgt'
    · simp [compareBy, heq, breakTie, comparerFcfs, hlt', hlt'.le]
    · simp [compareBy, heq, breakTie, comparerFcfs, heq']
    · simp [compareBy, heq, breakTie, comparerFcfs, hgt', not_lt.mpr hgt'.le]
  · simp [compareBy, hgt, not_lt.mpr hgt.le, hgt.ne']

theorem Scheme.comparisionFunc_neg_iff (scheme : Scheme) (a b : JobInfo) :
    scheme.comparisionFunc a b < 0 ↔ scheme.rank a < scheme.rank b := by
  rw [scheme.comparisionFunc_eq, rank, rank, Prod.Lex.toLex_lt_toLex]
  rcases lt_trichotomy (scheme.key a) (scheme.key b) with hlt | heq | hgt
  · simp [compareBy, hlt]
  · rcases lt_trichotomy a.arrivalTime b.arrivalTime with hlt' | heq' | hgt'
    · simp [compareBy, heq, breakTie, comparerFcfs, hlt']
    · simp [compareBy, heq, breakTie, comparerFcfs, heq']
    · simp [compareBy, heq, breakTie, comparerFcfs, hgt', not_lt.mpr hgt'.le]
  · simp [compareBy, hgt, not_lt.mpr hgt.le, hgt.ne']

namespace Scheduler

/-- The queue is in the order of the comparer, with the metadata as it is now. -/
def InOrder (s : Scheduler Job) (queue : List Job) : Prop :=
  queue.Pairwise fun a b ↦ s.compare a b ≤ 0

variable {s s' : Scheduler Job} {queue : List Job}

theorem compare_nonpos_iff {a b : Job} : s.compare a b ≤ 0 ↔
    s.pqueueScheme.rank (s.metadata a) ≤ s.pqueueScheme.rank (s.metadata b) :=
  s.pqueueScheme.comparisionFunc_nonpos_iff _ _

theorem compare_neg_iff {a b : Job} : s.compare a b < 0 ↔
    s.pqueueScheme.rank (s.metadata a) < s.pqueueScheme.rank (s.metadata b) :=
  s.pqueueScheme.comparisionFunc_neg_iff _ _

/-- The order only depends on the metadata of the queued jobs. -/
theorem InOrder.congr (h : s.InOrder queue)
    (hsame : ∀ a ∈ queue, ∀ b ∈ queue, s'.compare a b = s.compare a b) : s'.InOrder queue :=
  List.Pairwise.imp_of_mem (fun ha hb hab ↦ by rwa [hsame _ ha _ hb]) h

/-- The library inserts a job at a place where it belongs. -/
theorem InOrder.offer (h : s.InOrder queue) (P : Priqueue Job) (job : Job) :
    s.InOrder (P.offer s.compare queue job) := by
  obtain ⟨before, after, rfl, hoffer, hbefore, hafter⟩ := P.offer_spec s.compare queue job
  rw [hoffer]
  obtain ⟨hb, ha, hab⟩ := List.pairwise_append.mp h
  have hbefore' : ∀ other ∈ before, s.compare other job ≤ 0 := by
    intro other hother
    have hnot := not_lt.mpr (hbefore other hother)
    rw [compare_neg_iff, not_lt] at hnot
    exact compare_nonpos_iff.mpr hnot
  have hafter' : ∀ other ∈ after, s.compare job other ≤ 0 := by
    cases after with
    | nil => simp
    | cons head after =>
        have hhead := compare_neg_iff.mp (hafter head rfl)
        intro other hother
        rcases List.mem_cons.mp hother with rfl | hother
        · exact compare_nonpos_iff.mpr hhead.le
        · have hrest := compare_nonpos_iff.mp ((List.pairwise_cons.mp ha).1 other hother)
          exact compare_nonpos_iff.mpr (hhead.le.trans hrest)
  refine List.pairwise_append.mpr ⟨hb, List.pairwise_cons.mpr ⟨hafter', ha⟩, ?_⟩
  intro a hmem b hb'
  rcases List.mem_cons.mp hb' with rfl | hb'
  · exact hbefore' a hmem
  · exact hab a hmem b hb'

/-- Conversely, a queue that is in order after an insertion was so before. -/
theorem InOrder.of_offer {P : Priqueue Job} {job : Job}
    (h : s.InOrder (P.offer s.compare queue job)) : s.InOrder queue := by
  obtain ⟨before, after, rfl, hoffer, -, -⟩ := P.offer_spec s.compare queue job
  rw [hoffer] at h
  exact h.sublist ((List.sublist_cons_self job after).append_left before)

variable [DecidableEq Job]

/-- The in-place update at the top of `scheduler_quantum_expired`. -/
def charge (s : Scheduler Job) (job : Job) (time : ℚ) : Scheduler Job :=
  s.setMetadata job (chargeQuantum (s.metadata job) time)

/-- The order after a quantum is the order behind the head under the new key. -/
theorem quantumExpired_inOrder_iff {P : Priqueue Job} {job : Job} {time : ℚ}
    (hpre : s.pqueueScheme.preemptive = true) :
    (s.schedulerQuantumExpired P (some job) time).2.InOrder
        (s.schedulerQuantumExpired P (some job) time).2.pqueue ↔
      (s.charge job time).InOrder s.pqueue.tail := by
  have hresult : (s.schedulerQuantumExpired P (some job) time).2 = (s.charge job time).rotate P := by
    simp only [schedulerQuantumExpired, hpre, if_true]
    rfl
  rw [hresult]
  cases hqueue : s.pqueue with
  | nil =>
      have hempty : ((s.charge job time).rotate P).pqueue = [] := by
        simp [rotate, priqueuePoll, charge, hqueue]
      rw [hempty]
      exact iff_of_true List.Pairwise.nil List.Pairwise.nil
  | cons cur rest =>
      have hrotate : (s.charge job time).rotate P =
          { s.charge job time with pqueue := P.offer (s.charge job time).compare rest cur } := by
        simp only [rotate, priqueuePoll, charge, setMetadata_pqueue, hqueue, List.head?_cons,
          List.tail_cons]
        rfl
      rw [hrotate]
      exact ⟨fun h ↦ InOrder.of_offer h, fun h ↦ InOrder.offer h P cur⟩

theorem quantumExpired_scheme (P : Priqueue Job) (evicted : Option Job) (time : ℚ) :
    (s.schedulerQuantumExpired P evicted time).2.pqueueScheme = s.pqueueScheme := by
  cases evicted with
  | none => rfl
  | some job =>
      simp only [schedulerQuantumExpired]
      split
      · simp only [rotate]
        split <;> rfl
      · rfl

end Scheduler

/-! ## Runs -/

/-- The queue is in order and holds exactly the unfinished jobs. -/
structure Sys.Ordered [DecidableEq Job] (s : Sys Job) : Prop where
  keeps : s.KeepsUnfinished
  inOrder : s.sched.InOrder s.sched.pqueue

variable [DecidableEq Job]

/-- A job is the head of the queue when it finishes, and the jobs behind the head are in
order after a quantum under the new key of the evicted job. -/
def KeepsOrder (s : Sys Job) : Call Job → Prop
  | .quantumExpired (some job) time => (s.sched.charge job time).InOrder s.sched.pqueue.tail
  | call => FinishesAtHead s call

instance (s : Sys Job) : ∀ c, Decidable (KeepsOrder s c)
  | .newJob .. => isTrue trivial
  | .quantumExpired none _ => isTrue trivial
  | .quantumExpired (some _) _ => inferInstanceAs (Decidable (List.Pairwise _ _))
  | .jobFinished _ _ => inferInstanceAs (Decidable (_ = _))

/-- The job handed out is unfinished, and none of the unfinished jobs compares less. -/
def Sys.RunsMinimal (s : Sys Job) : Prop :=
  match s.running with
  | none => ∀ job, ¬ s.Unfinished job
  | some job => s.Unfinished job ∧ ∀ other, s.Unfinished other → s.sched.compare job other ≤ 0

variable {P : Priqueue Job} {s t : Sys Job}

namespace Sys

/-- The head of a queue that is in order is least. -/
theorem QueueInv.runsMinimal (h : s.QueueInv) (horder : s.sched.InOrder s.sched.pqueue)
    (hrun : s.running = priqueuePeek s.sched.pqueue) : s.RunsMinimal := by
  cases hqueue : s.sched.pqueue with
  | nil =>
      rw [hqueue] at hrun
      simp only [RunsMinimal, hrun, priqueuePeek, List.head?_nil]
      intro job hjob
      have hmem := h.mem_pqueue_iff.mpr hjob
      rw [hqueue] at hmem
      cases hmem
  | cons head rest =>
      rw [hqueue] at hrun
      simp only [RunsMinimal, hrun, priqueuePeek, List.head?_cons]
      refine ⟨h.mem_pqueue_iff.mp (by simp [hqueue]), fun other hother ↦ ?_⟩
      have hmem := h.mem_pqueue_iff.mpr hother
      have hsorted := horder
      rw [hqueue] at hmem hsorted
      rcases List.mem_cons.mp hmem with rfl | hmem
      · exact Scheduler.compare_nonpos_iff.mpr le_rfl
      · exact (List.pairwise_cons.mp hsorted).1 other hmem

/-- The invariant of a preemptive scheme. -/
structure PreemptInv (s : Sys Job) : Prop where
  queue : s.QueueInv
  inOrder : s.sched.InOrder s.sched.pqueue
  preemptive : s.sched.pqueueScheme.preemptive = true

namespace PreemptInv

theorem start {scheme : Scheme} (hpre : scheme.preemptive = true) (metadata : Job → JobInfo) :
    (Sys.start scheme metadata).PreemptInv :=
  ⟨QueueInv.start scheme metadata, List.Pairwise.nil, hpre⟩

theorem step {c : Call Job} (h : s.PreemptInv) (hok : KeepsOrder s c)
    (hcall : s.call P c = some t) : t.PreemptInv := by
  have hqueue : t.QueueInv := by
    refine h.queue.step ?_ hcall
    cases c with
    | newJob job n time data => trivial
    | quantumExpired evicted time => trivial
    | jobFinished job time => exact hok
  rcases call_cases hcall with
    ⟨job, n, time, data, rfl, hfresh, rfl⟩ | ⟨evicted, time, rfl, -, rfl⟩ |
      ⟨job, time, rfl, -, rfl⟩
  · refine ⟨hqueue, ?_, h.preemptive⟩
    refine Scheduler.InOrder.offer (h.inOrder.congr fun a ha b hb ↦ ?_) P job
    have hne : ∀ a ∈ s.sched.pqueue, a ≠ job := by
      rintro a ha rfl
      exact hfresh (h.queue.mem_pqueue_iff.mp ha).1
    have hmeta : ∀ a ∈ s.sched.pqueue,
        (s.sched.schedulerNewJob P job n time data).metadata a = s.sched.metadata a :=
      fun a ha ↦ Function.update_of_ne (hne a ha) _ _
    rw [Scheduler.compare, Scheduler.compare, ← hmeta a ha, ← hmeta b hb]
    rfl
  · cases evicted with
    | none => exact ⟨hqueue, h.inOrder, h.preemptive⟩
    | some job =>
        refine ⟨hqueue, (Scheduler.quantumExpired_inOrder_iff h.preemptive).mpr hok, ?_⟩
        rw [Scheduler.quantumExpired_scheme]
        exact h.preemptive
  · exact ⟨hqueue, h.inOrder.sublist (List.tail_sublist _), h.preemptive⟩

/-- The head of the queue is handed out. -/
theorem running_eq_head {evicted : Option Job} {time : ℚ} (h : s.PreemptInv)
    (hcall : s.call P (.quantumExpired evicted time) = some t) :
    t.running = priqueuePeek t.sched.pqueue := by
  obtain ⟨job, n, time', data, heq, -⟩ | ⟨evicted', time', heq, -, rfl⟩ | ⟨job, time', heq, -⟩ :=
    call_cases hcall
  · cases heq
  · cases evicted' with
    | none => rfl
    | some job => simp only [Scheduler.schedulerQuantumExpired, h.preemptive, if_true]
  · cases heq

theorem runsMinimal (h : s.PreemptInv) (hrun : s.running = priqueuePeek s.sched.pqueue) :
    s.RunsMinimal :=
  h.queue.runsMinimal h.inOrder hrun

theorem not_ordered_of_step {c : Call Job} (h : s.PreemptInv) (hbad : ¬ KeepsOrder s c)
    (hcall : s.call P c = some t) : ¬ t.Ordered := by
  intro hordered
  cases c with
  | newJob job n time data => exact hbad trivial
  | jobFinished job time =>
      have hfinish : ¬ FinishesAtHead s (.jobFinished job time) := hbad
      exact h.queue.not_keepsUnfinished_of_step hfinish hcall hordered.keeps
  | quantumExpired evicted time =>
      cases evicted with
      | none => exact hbad trivial
      | some job =>
          obtain ⟨job, n, time', data, heq, -⟩ | ⟨evicted', time', heq, -, rfl⟩ |
            ⟨job, time', heq, -⟩ := call_cases hcall
          · cases heq
          · cases heq
            exact hbad ((Scheduler.quantumExpired_inOrder_iff h.preemptive).mp hordered.inOrder)
          · cases heq

end PreemptInv

end Sys

/-- Under the preemptive schemes, in every run that keeps the order the job that is handed
out at a quantum is the least of the unfinished jobs.  The queue is in order and holds the
unfinished jobs after every call of a run exactly when the run keeps the order. -/
theorem quantum_returns_minimal (P : Priqueue Job) {scheme : Scheme}
    (hpre : scheme.preemptive = true) (metadata : Job → JobInfo) (calls : List (Call Job))
    (t : Sys Job) (hrun : Run (StepOf (Sys.call P)) (Sys.start scheme metadata) calls t) :
    (Run (Guarded (StepOf (Sys.call P)) KeepsOrder) (Sys.start scheme metadata) calls t →
      ∀ pre evicted time post u, calls = pre ++ .quantumExpired evicted time :: post →
        Run (StepOf (Sys.call P)) (Sys.start scheme metadata)
          (pre ++ [.quantumExpired evicted time]) u → u.RunsMinimal) ∧
    ((∀ pre post u, calls = pre ++ post →
        Run (StepOf (Sys.call P)) (Sys.start scheme metadata) pre u → u.Ordered) ↔
      Run (Guarded (StepOf (Sys.call P)) KeepsOrder) (Sys.start scheme metadata) calls t) := by
  refine ⟨?_, ?_⟩
  · rintro hguarded pre evicted time post u rfl hu
    obtain ⟨v, hpre', hrest⟩ := Run.append_iff.mp hguarded
    obtain ⟨w, hstep, -⟩ := Run.cons_iff.mp hrest
    obtain rfl := hu.unique (hpre'.snoc hstep).of_guarded
    have hv : v.PreemptInv := hpre'.invariant (fun _ _ _ h hst ↦ h.step hst.1 hst.2)
      (Sys.PreemptInv.start hpre metadata)
    exact (hv.step hstep.1 hstep.2).runsMinimal (hv.running_eq_head hstep.2)
  · exact Run.forall_visited_iff_guarded (I := Sys.PreemptInv)
      (fun _ h ↦ ⟨h.queue.keeps, h.inOrder⟩) (fun _ _ _ h hok hcall ↦ h.step hok hcall)
      (fun _ _ _ h hbad hcall ↦ h.not_ordered_of_step hbad hcall)
      (Sys.PreemptInv.start hpre metadata) hrun

/-- Job 2 arrives while job 1 runs, and runs next. -/
theorem quantum_returns_minimal_rr : ∃ t : Sys ℕ, t.running = some 2 ∧ t.RunsMinimal ∧
    Run (StepOf (Sys.call (Priqueue.insertion ℕ))) (Sys.start .RR fun _ ↦ ⟨0, 0, 0, 0, 0, 0, 0⟩)
      [.newJob 1 1 0 ⟨10, 1⟩, .quantumExpired none 0, .newJob 2 2 1 ⟨1, 2⟩,
        .quantumExpired (some 1) 1] t := by
  let calls : List (Call ℕ) := [.newJob 1 1 0 ⟨10, 1⟩, .quantumExpired none 0,
    .newJob 2 2 1 ⟨1, 2⟩, .quantumExpired (some 1) 1]
  obtain ⟨t, hexec, hrunning⟩ : ∃ t, execute (guarded (Sys.call (Priqueue.insertion ℕ)) KeepsOrder)
      (Sys.start .RR fun _ ↦ ⟨0, 0, 0, 0, 0, 0, 0⟩) calls = some t ∧ t.running = some 2 :=
    ⟨_, rfl, rfl⟩
  have hguarded := Run.execute_guarded_eq_some_iff.mp hexec
  have hminimal := (quantum_returns_minimal (Priqueue.insertion ℕ) rfl _ calls t
    hguarded.of_guarded).1 hguarded [.newJob 1 1 0 ⟨10, 1⟩, .quantumExpired none 0,
      .newJob 2 2 1 ⟨1, 2⟩] (some 1) 1 [] t rfl hguarded.of_guarded
  exact ⟨t, hrunning, hminimal, hguarded.of_guarded⟩

/-- Job 3 arrives before the quantum of job 1 expires.  It is offered again in place of job 1,
which stays ahead of job 2. -/
theorem rr_returns_most_recent : ∃ t : Sys ℕ, t.running = some 1 ∧ t.Unfinished 2 ∧
    t.sched.compare 2 1 < 0 ∧ ¬ t.RunsMinimal ∧
    Run (StepOf (Sys.call (Priqueue.insertion ℕ))) (Sys.start .RR fun _ ↦ ⟨0, 0, 0, 0, 0, 0, 0⟩)
      [.newJob 1 1 0 ⟨10, 1⟩, .newJob 2 2 0 ⟨10, 1⟩, .quantumExpired none 0,
        .quantumExpired (some 1) 1, .quantumExpired (some 2) 2, .newJob 3 3 3 ⟨10, 1⟩,
        .quantumExpired (some 1) 3, .quantumExpired (some 3) 4] t := by
  let calls : List (Call ℕ) := [.newJob 1 1 0 ⟨10, 1⟩, .newJob 2 2 0 ⟨10, 1⟩,
    .quantumExpired none 0, .quantumExpired (some 1) 1, .quantumExpired (some 2) 2,
    .newJob 3 3 3 ⟨10, 1⟩, .quantumExpired (some 1) 3, .quantumExpired (some 3) 4]
  obtain ⟨t, hexec, hrunning, hunfinished, hless⟩ :
      ∃ t, execute (Sys.call (Priqueue.insertion ℕ))
        (Sys.start .RR fun _ ↦ ⟨0, 0, 0, 0, 0, 0, 0⟩) calls = some t ∧ t.running = some 1 ∧
        t.Unfinished 2 ∧ t.sched.compare 2 1 < 0 :=
    ⟨_, rfl, rfl, by decide, by decide⟩
  refine ⟨t, hrunning, hunfinished, hless, ?_, Run.execute_eq_some_iff.mp hexec⟩
  intro hminimal
  simp only [Sys.RunsMinimal, hrunning] at hminimal
  have hle := Scheduler.compare_nonpos_iff.mp (hminimal.2 2 hunfinished)
  exact absurd hle (not_le.mpr (Scheduler.compare_neg_iff.mp hless))

end SystemProgramming.SavvyScheduler
