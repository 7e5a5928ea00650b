import SystemProgramming.SavvyScheduler.Statistics

/-!
# Schemes without preemption

`FCFS`, `PRI` and `SJF` leave the queue as it is when a quantum expires.  A job that is handed
out stays the running job until it finishes.
-/

namespace SystemProgramming.SavvyScheduler

variable {Job : Type*} [DecidableEq Job] {P : Priqueue Job}

theorem Scheduler.schedulerQuantumExpired_some {s : Scheduler Job}
    (hpre : s.pqueueScheme.preemptive = false) (job : Job) (time : ℚ) :
    s.schedulerQuantumExpired P (some job) time = (some job, s.charge job time) := by
  simp [schedulerQuantumExpired, hpre, charge]

theorem Scheduler.schedulerNewJob_metadata {s : Scheduler Job} {job other : Job} {n : ℤ} {time : ℚ}
    {data : SchedulerInfo} (hne : other ≠ job) :
    (s.schedulerNewJob P job n time data).metadata other = s.metadata other :=
  Function.update_of_ne hne _ _

omit [DecidableEq Job] in
/-- A head that was not offered just now was the head before. -/
theorem Priqueue.peek_of_peek_offer {cmp : Job → Job → ℤ} {queue : List Job} {job new : Job}
    (hne : job ≠ new) (h : priqueuePeek (P.offer cmp queue new) = some job) :
    priqueuePeek queue = some job := by
  obtain ⟨front, behind, rfl, hoffer, -, -⟩ := P.offer_spec cmp queue new
  rw [hoffer] at h
  cases front with
  | nil => exact absurd (Option.some.inj h) hne.symm
  | cons x front => exact h

/-- A quantum does not put a job further back. -/
theorem Scheme.rank_chargeQuantum_le {scheme : Scheme} (hpre : scheme.preemptive = false)
    (info : JobInfo) (time : ℚ) :
    scheme.rank (Scheduler.chargeQuantum info time) ≤ scheme.rank info := by
  rw [rank, rank, Prod.Lex.toLex_le_toLex]
  cases scheme with
  | FCFS => exact .inr ⟨rfl, le_rfl⟩
  | PRI => exact .inr ⟨rfl, le_rfl⟩
  | SJF => exact .inl (sub_one_lt info.remainingTime)
  | PPRI => cases hpre
  | PSRTF => cases hpre
  | RR => cases hpre

theorem Scheduler.InOrder.charge_head {s : Scheduler Job} {job : Job} {rest : List Job}
    (h : s.InOrder (job :: rest)) (hpre : s.pqueueScheme.preemptive = false)
    (hnodup : (job :: rest).Nodup) (time : ℚ) : (s.charge job time).InOrder (job :: rest) := by
  have hmeta : ∀ other ∈ rest, (s.charge job time).metadata other = s.metadata other := by
    intro other hother
    apply Function.update_of_ne
    rintro rfl
    exact hnodup.notMem hother
  have hself : (s.charge job time).metadata job = chargeQuantum (s.metadata job) time :=
    Function.update_self ..
  obtain ⟨hfirst, hrest⟩ := List.pairwise_cons.mp h
  apply List.pairwise_cons.mpr
  constructor
  · intro other hother
    rw [compare_nonpos_iff, hself, hmeta other hother]
    exact (Scheme.rank_chargeQuantum_le hpre _ time).trans
      (compare_nonpos_iff.mp (hfirst other hother))
  · refine InOrder.congr hrest fun a ha b hb ↦ ?_
    rw [compare, compare, hmeta a ha, hmeta b hb]
    rfl

theorem Scheduler.InOrder.newJob {s : Scheduler Job} {job : Job} {n : ℤ} {time : ℚ}
    {data : SchedulerInfo} (h : s.InOrder s.pqueue) (hfresh : job ∉ s.pqueue) :
    (s.schedulerNewJob P job n time data).InOrder
      (s.schedulerNewJob P job n time data).pqueue := by
  refine InOrder.offer (h.congr fun a ha b hb ↦ ?_) P job
  have hmeta : ∀ a ∈ s.pqueue,
      (s.schedulerNewJob P job n time data).metadata a = s.metadata a := by
    intro a ha
    apply schedulerNewJob_metadata
    rintro rfl
    exact hfresh ha
  rw [compare, compare, ← hmeta a ha, ← hmeta b hb]
  rfl

namespace Driver

variable {d d' : Driver Job} {c : Call Job}

/-! ## First come, first served -/

/-- The queue goes on where the finished jobs end. -/
structure Fifo (d : Driver Job) : Prop where
  scheme : d.sys.sched.pqueueScheme = .FCFS
  order : d.sys.arrived.reverse = d.sys.finished.reverse ++ d.sys.sched.pqueue
  head : ∀ job, d.sys.running = some job → priqueuePeek d.sys.sched.pqueue = some job
  arrived_le : ∀ job ∈ d.sys.sched.pqueue, (d.sys.sched.metadata job).arrivalTime ≤ d.last
  now_le : d.now ≤ d.last
  last_le : d.last ≤ d.now + 1

omit [DecidableEq Job] in
theorem Fifo.mem_arrived (h : d.Fifo) {job : Job} (hjob : job ∈ d.sys.sched.pqueue) :
    job ∈ d.sys.arrived := by
  rw [← List.mem_reverse, h.order]
  exact List.mem_append_right _ hjob

omit [DecidableEq Job] in
theorem Fifo.start (metadata : Job → JobInfo) (time : ℚ) :
    (Driver.start .FCFS metadata time).Fifo where
  scheme := rfl
  order := rfl
  head := by simp [Driver.start, Sys.start]
  arrived_le := by simp [Driver.start, Sys.start, schedulerStartUp]
  now_le := le_rfl
  last_le := by simp [Driver.start]

theorem Fifo.newJob (h : d.Fifo) {job : Job} {n : ℤ} {time : ℚ} {data : SchedulerInfo}
    (hfresh : job ∉ d.sys.arrived) (hlast : d.last ≤ time) (hnow : time ≤ d.now + 1) :
    (d.note { d.sys with
      sched := d.sys.sched.schedulerNewJob P job n time data
      arrived := job :: d.sys.arrived } (.newJob job n time data)).Fifo := by
  have hmeta : ∀ other ∈ d.sys.sched.pqueue,
      (d.sys.sched.schedulerNewJob P job n time data).metadata other =
        d.sys.sched.metadata other := by
    intro other hother
    apply Scheduler.schedulerNewJob_metadata
    rintro rfl
    exact hfresh (h.mem_arrived hother)
  have hend : (d.sys.sched.schedulerNewJob P job n time data).pqueue =
      d.sys.sched.pqueue ++ [job] := by
    apply Priqueue.offer_eq_append
    intro other hother
    simp only [Scheduler.compare, Scheduler.setMetadata_pqueueScheme, h.scheme,
      Scheme.comparisionFunc]
    apply comparerFcfs_nonneg
    have hother' := hmeta other hother
    simp only [Scheduler.schedulerNewJob, Scheduler.priqueueOffer] at hother'
    rw [hother']
    simp only [Scheduler.setMetadata, Function.update_self]
    exact (h.arrived_le other hother).trans hlast
  refine ⟨h.scheme, ?_, ?_, ?_, h.now_le.trans hlast, hnow⟩
  · simp only [note, hend, List.reverse_cons, h.order, List.append_assoc]
  · intro running hrunning
    have hhead := h.head running hrunning
    simp only [note, priqueuePeek] at hhead ⊢
    rw [hend, List.head?_append, hhead, Option.some_or]
  · intro other hother
    simp only [note, hend] at hother
    rcases List.mem_append.mp hother with hother | hother
    · simp only [note, hmeta other hother]
      exact (h.arrived_le other hother).trans hlast
    · obtain rfl := List.mem_singleton.mp hother
      simp [note, Scheduler.schedulerNewJob, Scheduler.priqueueOffer, Scheduler.setMetadata]

theorem Fifo.quantumExpired (h : d.Fifo) {evicted : Option Job} {time : ℚ}
    (hev : evicted = none ∨ evicted = d.sys.running) (hlast : d.last ≤ time) :
    (d.note { d.sys with
      sched := (d.sys.sched.schedulerQuantumExpired P evicted time).2
      running := (d.sys.sched.schedulerQuantumExpired P evicted time).1 }
        (.quantumExpired evicted time)).Fifo := by
  cases evicted with
  | none =>
    refine ⟨h.scheme, h.order, fun job hjob ↦ hjob, ?_, le_rfl, by simp [note]⟩
    intro job hjob
    exact (h.arrived_le job hjob).trans hlast
  | some job =>
    have hrunning : d.sys.running = some job := by
      simpa [eq_comm] using hev
    have hpre : d.sys.sched.pqueueScheme.preemptive = false := by
      rw [h.scheme]
      rfl
    rw [Scheduler.schedulerQuantumExpired_some hpre]
    refine ⟨h.scheme, h.order, ?_, ?_, le_rfl, by simp [note]⟩
    · intro next hnext
      obtain rfl : job = next := by simpa [note] using hnext
      exact h.head job hrunning
    · intro other hother
      simp only [note, Scheduler.charge, Scheduler.setMetadata]
      rcases eq_or_ne other job with rfl | hne
      · simpa [Scheduler.chargeQuantum] using (h.arrived_le other hother).trans hlast
      · rw [Function.update_of_ne hne]
        exact (h.arrived_le other hother).trans hlast

theorem Fifo.jobFinished (h : d.Fifo) {job : Job} {time : ℚ} (hrun : d.sys.running = some job)
    (hlast : d.last ≤ time) :
    (d.note { d.sys with
      sched := d.sys.sched.schedulerJobFinished job time
      finished := job :: d.sys.finished
      running := none } (.jobFinished job time)).Fifo := by
  have hqueue := (List.cons_head?_tail (h.head job hrun)).symm
  refine ⟨h.scheme, ?_, by simp [note], ?_, le_rfl, by simp [note]⟩
  · simp only [note, Scheduler.schedulerJobFinished, priqueuePoll, List.reverse_cons,
      List.append_assoc, List.singleton_append]
    rw [h.order, ← hqueue]
  · intro other hother
    exact (h.arrived_le other (List.mem_of_mem_tail hother)).trans hlast

theorem Fifo.step (h : d.Fifo) (hcall : d.call P c = some d') : d'.Fifo := by
  obtain ⟨htimely, sys, hsys, rfl⟩ := call_cases hcall
  obtain ⟨job, n, time, data, rfl, hfresh, rfl⟩ | ⟨evicted, time, rfl, hev, rfl⟩ |
    ⟨job, time, rfl, hrun, rfl⟩ := Sys.call_cases hsys
  · exact h.newJob hfresh htimely.1 htimely.2
  · apply h.quantumExpired hev
    cases evicted with
    | none => exact htimely.2.2
    | some job =>
      have htime : time = d.now + 1 := htimely
      rw [htime]
      exact h.last_le
  · exact h.jobFinished hrun htimely.2.2

/-- Under FCFS the jobs finish in the order of their arrival, none is lost, and the job that runs
is the oldest unfinished one. -/
theorem fcfs_fifo (P : Priqueue Job) (metadata : Job → JobInfo) (time : ℚ)
    {calls : List (Call Job)}
    (hrun : Run (StepOf (Driver.call P)) (Driver.start .FCFS metadata time) calls d) :
    d.sys.arrived.reverse = d.sys.finished.reverse ++ d.sys.sched.pqueue ∧
      ∀ job, d.sys.running = some job → priqueuePeek d.sys.sched.pqueue = some job := by
  have h : d.Fifo := hrun.invariant (fun _ _ _ h hcall ↦ h.step hcall) (Fifo.start metadata time)
  exact ⟨h.order, h.head⟩

/-- Job 2 arrives while job 1 runs, and is next. -/
theorem fcfs_fifo_two : ∃ d : Driver ℕ, d.sys.finished = [1] ∧
    d.sys.arrived.reverse = [1] ++ [2] := by
  let calls : List (Call ℕ) := [.newJob 1 1 0 ⟨2, 1⟩, .quantumExpired none 0,
    .newJob 2 2 1 ⟨1, 1⟩, .quantumExpired (some 1) 1, .jobFinished 1 2]
  have hlists : (execute (Driver.call (Priqueue.insertion ℕ))
      (Driver.start .FCFS (fun _ ↦ ⟨0, 0, 0, 0, 0, 0, 0⟩) 0) calls).map
        (fun d ↦ (d.sys.finished, d.sys.sched.pqueue)) = some ([1], [2]) := by decide +kernel
  obtain ⟨d, hexec, hlists⟩ := Option.map_eq_some_iff.mp hlists
  obtain ⟨hfinished, hqueue⟩ := Prod.mk.inj hlists
  obtain ⟨horder, -⟩ := fcfs_fifo (Priqueue.insertion ℕ) _ 0 (Run.execute_eq_some_iff.mp hexec)
  rw [hfinished, hqueue] at horder
  exact ⟨d, hfinished, horder⟩

/-! ## From dispatch to completion -/

/-- The queue is in order while nothing runs and while its head does. -/
structure Dispatching (d : Driver Job) : Prop where
  queue : d.sys.QueueInv
  scheme : d.sys.sched.pqueueScheme.preemptive = false
  idle : d.sys.running = none → d.sys.sched.InOrder d.sys.sched.pqueue
  atHead : ∀ job, d.sys.running = some job → priqueuePeek d.sys.sched.pqueue = some job →
    d.sys.sched.InOrder d.sys.sched.pqueue

theorem Dispatching.start {scheme : Scheme} (hpre : scheme.preemptive = false)
    (metadata : Job → JobInfo) (time : ℚ) : (Driver.start scheme metadata time).Dispatching where
  queue := Sys.QueueInv.start scheme metadata
  scheme := hpre
  idle _ := List.Pairwise.nil
  atHead _ _ _ := List.Pairwise.nil

theorem Dispatching.nodup (h : d.Dispatching) : d.sys.sched.pqueue.Nodup := by
  apply List.nodup_iff_count_le_one.mpr
  intro job
  rw [h.queue.keeps.count_eq]
  split <;> decide

theorem Dispatching.newJob (h : d.Dispatching) {job : Job} {n : ℤ} {time : ℚ}
    {data : SchedulerInfo} (hfresh : job ∉ d.sys.arrived) :
    (d.note { d.sys with
      sched := d.sys.sched.schedulerNewJob P job n time data
      arrived := job :: d.sys.arrived } (.newJob job n time data)).Dispatching := by
  have horder : d.sys.sched.InOrder d.sys.sched.pqueue →
      (d.sys.sched.schedulerNewJob P job n time data).InOrder
        (d.sys.sched.schedulerNewJob P job n time data).pqueue :=
    fun hold ↦ hold.newJob fun hmem ↦ hfresh (h.queue.mem_pqueue_iff.mp hmem).1
  refine ⟨h.queue.newJob hfresh n time data, h.scheme, fun hidle ↦ horder (h.idle hidle), ?_⟩
  intro running hrunning hhead
  have hrunning' : d.sys.running = some running := hrunning
  have hne : running ≠ job := by
    rintro rfl
    exact hfresh (h.queue.keeps.running_unfinished running hrunning').1
  exact horder (h.atHead running hrunning' (Priqueue.peek_of_peek_offer hne hhead))

theorem Dispatching.quantumExpired (h : d.Dispatching) {evicted : Option Job} {time : ℚ}
    (hev : evicted = d.sys.running) :
    (d.note { d.sys with
      sched := (d.sys.sched.schedulerQuantumExpired P evicted time).2
      running := (d.sys.sched.schedulerQuantumExpired P evicted time).1 }
        (.quantumExpired evicted time)).Dispatching := by
  have hqueue := h.queue.quantumExpired (P := P) (.inr hev) time
  cases evicted with
  | none => exact ⟨hqueue, h.scheme, fun _ ↦ h.idle hev.symm, fun _ _ _ ↦ h.idle hev.symm⟩
  | some job =>
    rw [Scheduler.schedulerQuantumExpired_some h.scheme] at hqueue ⊢
    refine ⟨hqueue, h.scheme, by simp [note], ?_⟩
    intro next hnext hhead
    obtain rfl : job = next := by simpa [note] using hnext
    have hcons := (List.cons_head?_tail hhead).symm
    have horder := h.atHead job hev.symm hhead
    have hnodup := h.nodup
    simp only [note, Scheduler.charge, Scheduler.setMetadata_pqueue] at hcons ⊢
    rw [hcons] at horder hnodup ⊢
    exact horder.charge_head h.scheme hnodup time

theorem Dispatching.jobFinished (h : d.Dispatching) {job : Job} {time : ℚ}
    (hrun : d.sys.running = some job) (hhead : priqueuePeek d.sys.sched.pqueue = some job) :
    (d.note { d.sys with
      sched := d.sys.sched.schedulerJobFinished job time
      finished := job :: d.sys.finished
      running := none } (.jobFinished job time)).Dispatching := by
  refine ⟨h.queue.jobFinished hhead hrun time, h.scheme, fun _ ↦ ?_, by simp [note]⟩
  exact (h.atHead job hrun hhead).sublist (List.tail_sublist _)

theorem Dispatching.step (h : d.Dispatching) (hok : FinishesAtHead d.sys c)
    (hcall : d.call P c = some d') : d'.Dispatching := by
  obtain ⟨htimely, sys, hsys, rfl⟩ := call_cases hcall
  obtain ⟨job, n, time, data, rfl, hfresh, rfl⟩ | ⟨evicted, time, rfl, hev, rfl⟩ |
    ⟨job, time, rfl, hrun, rfl⟩ := Sys.call_cases hsys
  · exact h.newJob hfresh
  · apply h.quantumExpired
    cases evicted with
    | none => exact htimely.1.symm
    | some job => simpa using hev
  · exact h.jobFinished hrun hok

/-- The running job keeps the processor until it finishes. -/
theorem running_of_run {job : Job} {calls : List (Call Job)}
    (hpre : d.sys.sched.pqueueScheme.preemptive = false) (hjob : d.sys.running = some job)
    (hrun : Run (StepOf (Driver.call P)) d calls d')
    (hunfinished : ∀ other time, .jobFinished other time ∉ calls) :
    d'.sys.sched.pqueueScheme.preemptive = false ∧ d'.sys.running = some job ∧
      ∀ evicted time, .quantumExpired evicted time ∈ calls → evicted = some job := by
  induction hrun with
  | nil => exact ⟨hpre, hjob, by simp⟩
  | @snoc d₁ d₂ calls c _ hlast ih =>
    obtain ⟨hpre₁, hjob₁, hquanta⟩ := ih fun other time hmem ↦
      hunfinished other time (List.mem_append_left _ hmem)
    obtain ⟨htimely, sys, hsys, rfl⟩ := call_cases hlast
    obtain ⟨new, n, time, data, rfl, -, rfl⟩ | ⟨evicted, time, rfl, hev, rfl⟩ |
      ⟨done, time, rfl, -, -⟩ := Sys.call_cases hsys
    · refine ⟨hpre₁, hjob₁, fun evicted time hmem ↦ hquanta evicted time ?_⟩
      simpa using hmem
    · have hevicted : evicted = some job := by
        cases evicted with
        | none => exact absurd (htimely.1.symm.trans hjob₁) (by simp)
        | some old => simpa [hjob₁] using hev
      subst hevicted
      rw [Scheduler.schedulerQuantumExpired_some hpre₁]
      refine ⟨hpre₁, rfl, fun evicted time' hmem ↦ ?_⟩
      rcases List.mem_append.mp hmem with hmem | hmem
      · exact hquanta evicted time' hmem
      · simp only [List.mem_singleton, Call.quantumExpired.injEq] at hmem
        exact hmem.1
    · exact absurd (List.mem_append_right _ (List.mem_singleton_self _))
        (hunfinished done time)

/-- Without preemption, as long as every job is at the head of the queue when it finishes: what is
handed out is the least of the unfinished jobs, and it gets every quantum until it finishes. -/
theorem dispatched_to_completion (P : Priqueue Job) {scheme : Scheme}
    (hpre : scheme.preemptive = false) (metadata : Job → JobInfo) (time : ℚ)
    {before calls : List (Call Job)} {now : ℚ}
    (hbefore : Run (Guarded (StepOf (Driver.call P)) fun d c ↦ FinishesAtHead d.sys c)
      (Driver.start scheme metadata time) (before ++ [.quantumExpired none now]) d)
    (hrun : Run (StepOf (Driver.call P)) d calls d')
    (hunfinished : ∀ other time, .jobFinished other time ∉ calls) :
    d.sys.RunsMinimal ∧ ∀ job, d.sys.running = some job → d'.sys.running = some job ∧
      ∀ evicted time, .quantumExpired evicted time ∈ calls → evicted = some job := by
  have h : d.Dispatching := hbefore.invariant (fun _ _ _ h hst ↦ h.step hst.1 hst.2)
    (Dispatching.start hpre metadata time)
  refine ⟨?_, fun job hjob ↦ (running_of_run h.scheme hjob hrun hunfinished).2⟩
  obtain ⟨d₀, -, -, hlast⟩ := Run.snoc_iff.mp hbefore
  obtain ⟨-, sys, hsys, rfl⟩ := call_cases hlast
  have hhead : sys.running = priqueuePeek sys.sched.pqueue := by
    obtain ⟨job, n, time', data, heq, -⟩ | ⟨evicted, time', heq, -, rfl⟩ | ⟨job, time', heq, -⟩ :=
      Sys.call_cases hsys
    · cases heq
    · cases heq
      rfl
    · cases heq
  apply h.queue.runsMinimal ?_ hhead
  cases hrunning : sys.running with
  | none => exact h.idle hrunning
  | some job => exact h.atHead job hrunning (hhead ▸ hrunning)

/-- The shorter job 2 is handed out first, and again after its quantum. -/
theorem dispatched_to_completion_sjf : ∃ d d' : Driver ℕ, d.sys.running = some 2 ∧
    d.sys.RunsMinimal ∧ d'.sys.running = some 2 := by
  let before : List (Call ℕ) := [.newJob 1 1 0 ⟨5, 1⟩, .newJob 2 2 0 ⟨2, 1⟩]
  let calls : List (Call ℕ) := [.newJob 3 3 1 ⟨4, 1⟩, .quantumExpired (some 2) 1]
  let start : Driver ℕ := .start .SJF (fun _ ↦ ⟨0, 0, 0, 0, 0, 0, 0⟩) 0
  let f := Driver.call (Priqueue.insertion ℕ)
  have hrunning : (execute f start before).bind (fun d₀ ↦
      (f d₀ (.quantumExpired none 0)).bind fun d ↦
        (execute f d calls).map fun d' ↦ (d.sys.running, d'.sys.running)) =
      some (some 2, some 2) := by decide +kernel
  obtain ⟨d₀, hbefore, hrunning⟩ := Option.bind_eq_some_iff.mp hrunning
  obtain ⟨d, hdispatch, hrunning⟩ := Option.bind_eq_some_iff.mp hrunning
  obtain ⟨d', hrun, hrunning⟩ := Option.map_eq_some_iff.mp hrunning
  obtain ⟨hfirst, -⟩ := Prod.mk.inj hrunning
  obtain ⟨d₁, hone, htwo⟩ := Option.bind_eq_some_iff.mp hbefore
  have htwo' : f d₁ (.newJob 2 2 0 ⟨2, 1⟩) = some d₀ := by simpa [execute] using htwo
  have hguarded : Run (Guarded (StepOf f) fun d c ↦ FinishesAtHead d.sys c) start
      (before ++ [.quantumExpired none 0]) d :=
    .cons ⟨trivial, hone⟩ (.cons ⟨trivial, htwo'⟩ (.single ⟨trivial, hdispatch⟩))
  obtain ⟨hminimal, hkeeps⟩ := dispatched_to_completion (Priqueue.insertion ℕ) rfl _ 0 hguarded
    (Run.execute_eq_some_iff.mp hrun) (by simp [calls])
  exact ⟨d, d', hfirst, hminimal, (hkeeps 2 hfirst).1⟩

end Driver

end SystemProgramming.SavvyScheduler
