import SystemProgramming.Lib.WaitingLine
import SystemProgramming.SavvyScheduler.NonPreemptive

/-!
# The shortest job first

When all jobs arrive at once, `SJF` has the least average waiting time of all schemes.
-/

namespace SystemProgramming.SavvyScheduler

variable {Job : Type*}

namespace Scheduler

variable (s : Scheduler Job)

def schedulerAverageWaitingTime : ℚ := s.totalWaitingTime / s.numJob

def schedulerAverageTurnaroundTime : ℚ := s.totalTurnaroundTime / s.numJob

end Scheduler

def Call.ArrivesAt (time : ℚ) : Call Job → Prop
  | .newJob _ _ arrival _ => arrival = time
  | _ => False

namespace Driver

variable [DecidableEq Job] {P : Priqueue Job} {d d' : Driver Job} {c : Call Job} {time : ℚ}
  {jobs : List Job} {length : Job → ℚ}

/-- The processor does not stay idle, no job comes later, and a job finishes when it has run for
its running time. -/
def Busy (d : Driver Job) : Call Job → Prop
  | .newJob .. => False
  | .quantumExpired none now => now = d.now
  | .quantumExpired (some _) _ => True
  | .jobFinished job now => (d.sys.sched.metadata job).remainingTime = now - d.now

instance (d : Driver Job) : ∀ c, Decidable (d.Busy c)
  | .newJob .. => isFalse id
  | .quantumExpired none _ => inferInstanceAs (Decidable (_ = _))
  | .quantumExpired (some _) _ => isTrue trivial
  | .jobFinished .. => inferInstanceAs (Decidable (_ = _))

/-! ## The arrivals -/

/-- Nothing has been handed out. -/
structure Opening (scheme : Scheme) (time : ℚ) (d : Driver Job) : Prop where
  scheme : d.sys.sched.pqueueScheme = scheme
  running : d.sys.running = none
  finished : d.sys.finished = []
  now : d.now = time
  totals : d.sys.sched.totalWaitingTime = 0 ∧ d.sys.sched.totalTurnaroundTime = 0 ∧
    d.sys.sched.numJob = 0
  nodup : d.sys.arrived.Nodup
  queue : d.sys.sched.pqueue.Perm d.sys.arrived
  order : d.sys.sched.InOrder d.sys.sched.pqueue
  record : ∀ job ∈ d.sys.arrived, (d.sys.sched.metadata job).arrivalTime = time ∧
    (d.sys.sched.metadata job).runTime = d.runTime job ∧
    (d.sys.sched.metadata job).remainingTime = d.runTime job

omit [DecidableEq Job] in
theorem Opening.start (scheme : Scheme) (metadata : Job → JobInfo) (time : ℚ) :
    (Driver.start scheme metadata time).Opening scheme time where
  scheme := rfl
  running := rfl
  finished := rfl
  now := rfl
  totals := ⟨rfl, rfl, rfl⟩
  nodup := List.nodup_nil
  queue := List.Perm.nil
  order := List.Pairwise.nil
  record := by simp [Driver.start, Sys.start]

theorem Opening.step {scheme : Scheme} (h : d.Opening scheme time) (harrives : c.ArrivesAt time)
    (hcall : d.call P c = some d') : d'.Opening scheme time := by
  obtain ⟨-, sys, hsys, rfl⟩ := call_cases hcall
  obtain ⟨job, n, time', data, rfl, hfresh, rfl⟩ | ⟨evicted, time', rfl, -, -⟩ |
    ⟨job, time', rfl, -, -⟩ := Sys.call_cases hsys
  · obtain rfl : time' = time := harrives
    have hqueue : job ∉ d.sys.sched.pqueue := fun hmem ↦ hfresh (h.queue.mem_iff.mp hmem)
    refine ⟨h.scheme, h.running, h.finished, h.now, h.totals, h.nodup.cons hfresh,
      (d.sys.sched.schedulerNewJob_pqueue_perm P job n time' data).trans (h.queue.cons job),
      h.order.newJob hqueue, fun other hother ↦ ?_⟩
    rcases eq_or_ne other job with rfl | hne
    · simp [note, Scheduler.schedulerNewJob, Scheduler.priqueueOffer, Scheduler.setMetadata]
    · have hrecord := h.record other ((List.mem_cons.mp hother).resolve_left hne)
      simp only [note, Scheduler.schedulerNewJob_metadata hne, Function.update_of_ne hne]
      exact hrecord
  · cases harrives
  · cases harrives

/-! ## Under every scheme -/

/-- The quanta that a job has got. -/
def used (d : Driver Job) (job : Job) : ℚ :=
  if job ∈ d.sys.finished then d.runTime job
  else d.runTime job - (d.sys.sched.metadata job).remainingTime

/-- A job has waited at least for those that finished before it. -/
structure Serving (time : ℚ) (jobs : List Job) (length : Job → ℚ) (d : Driver Job) : Prop where
  runTime : d.runTime = length
  nodup : jobs.Nodup
  queued : ∀ job ∈ d.sys.sched.pqueue, job ∈ jobs
  running : ∀ job, d.sys.running = some job → job ∈ jobs
  finished : ∀ job ∈ d.sys.finished, job ∈ jobs
  finished_nodup : d.sys.finished.Nodup
  record : ∀ job ∈ jobs, (d.sys.sched.metadata job).arrivalTime = time ∧
    (d.sys.sched.metadata job).runTime = length job ∧
    (d.sys.sched.metadata job).remainingTime ≤ length job
  now : time + ∑ job ∈ jobs.toFinset, d.used job ≤ d.now
  waiting : totalDelay (d.sys.finished.reverse.map length) ≤ d.sys.sched.totalWaitingTime
  turnaround : d.sys.sched.totalTurnaroundTime =
    d.sys.sched.totalWaitingTime + (d.sys.finished.map length).sum
  numJob : d.sys.sched.numJob = d.sys.finished.length

theorem Opening.serving {scheme : Scheme} (h : d.Opening scheme time) :
    d.Serving time d.sys.arrived d.runTime where
  runTime := rfl
  nodup := h.nodup
  queued job hjob := h.queue.mem_iff.mp hjob
  running job hjob := by simp [h.running] at hjob
  finished job hjob := by simp [h.finished] at hjob
  finished_nodup := by simp [h.finished]
  record job hjob := by
    obtain ⟨harrival, hrun, hremaining⟩ := h.record job hjob
    exact ⟨harrival, hrun, hremaining.le⟩
  now := by
    have hused : ∀ job ∈ d.sys.arrived.toFinset, d.used job = 0 := by
      intro job hjob
      obtain ⟨-, -, hremaining⟩ := h.record job (List.mem_toFinset.mp hjob)
      simp [used, h.finished, hremaining]
    rw [Finset.sum_eq_zero hused, add_zero, h.now]
  waiting := by simp [h.finished, h.totals.1, totalDelay]
  turnaround := by simp [h.finished, h.totals]
  numJob := by simp [h.finished, h.totals]

theorem sum_le_add_of_le {f g : Job → ℚ} {job : Job} {δ : ℚ} (hjob : job ∈ jobs)
    (hle : ∀ other ∈ jobs, g other ≤ f other + if other = job then δ else 0) :
    ∑ other ∈ jobs.toFinset, g other ≤ ∑ other ∈ jobs.toFinset, f other + δ := by
  calc
    ∑ other ∈ jobs.toFinset, g other
      ≤ ∑ other ∈ jobs.toFinset, (f other + if other = job then δ else 0) :=
        Finset.sum_le_sum fun other hother ↦ hle other (List.mem_toFinset.mp hother)
    _ = ∑ other ∈ jobs.toFinset, f other + δ := by
        rw [Finset.sum_add_distrib, Finset.sum_ite_eq', if_pos (List.mem_toFinset.mpr hjob)]

namespace Serving

theorem used_nonneg (h : d.Serving time jobs length) {job : Job} (hjob : job ∈ jobs)
    (hunfinished : job ∉ d.sys.finished) : 0 ≤ d.used job := by
  rw [used, if_neg hunfinished, h.runTime, sub_nonneg]
  exact (h.record job hjob).2.2

/-- When a job finishes, those before it have used their running times. -/
theorem finished_le (h : d.Serving time jobs length) {job : Job} (hjob : job ∈ jobs)
    (hunfinished : job ∉ d.sys.finished) :
    (d.sys.finished.map length).sum + d.used job ≤ ∑ other ∈ jobs.toFinset, d.used other := by
  have hfinished : (d.sys.finished.map length).sum =
      ∑ other ∈ d.sys.finished.toFinset, d.used other := by
    rw [← List.sum_toFinset length h.finished_nodup]
    refine Finset.sum_congr rfl fun other hother ↦ ?_
    rw [used, if_pos (List.mem_toFinset.mp hother), h.runTime]
  have hnot : job ∉ d.sys.finished.toFinset := by simpa using hunfinished
  calc
    (d.sys.finished.map length).sum + d.used job
      = ∑ other ∈ insert job d.sys.finished.toFinset, d.used other := by
        rw [Finset.sum_insert hnot, hfinished, add_comm]
    _ ≤ ∑ other ∈ jobs.toFinset, d.used other := by
        refine Finset.sum_le_sum_of_subset_of_nonneg ?_ fun other hother hnot' ↦ ?_
        · intro other hother
          rcases Finset.mem_insert.mp hother with rfl | hother
          · exact List.mem_toFinset.mpr hjob
          · exact List.mem_toFinset.mpr (h.finished other (List.mem_toFinset.mp hother))
        · apply h.used_nonneg (List.mem_toFinset.mp hother)
          intro hmem
          exact hnot' (Finset.mem_insert_of_mem (List.mem_toFinset.mpr hmem))

theorem quantumExpired (h : d.Serving time jobs length) {evicted : Option Job} {now : ℚ}
    (hev : evicted = none ∨ evicted = d.sys.running)
    (hnow : now = d.now + if evicted = none then 0 else 1) :
    (d.note { d.sys with
      sched := (d.sys.sched.schedulerQuantumExpired P evicted now).2
      running := (d.sys.sched.schedulerQuantumExpired P evicted now).1 }
        (.quantumExpired evicted now)).Serving time jobs length := by
  obtain ⟨queue, heq⟩ := d.sys.sched.schedulerQuantumExpired_eq P evicted now
  have hperm := d.sys.sched.schedulerQuantumExpired_pqueue_perm P evicted now
  have hmeta (job : Job) : (d.sys.sched.schedulerQuantumExpired P evicted now).2.metadata job =
      if evicted = some job then Scheduler.chargeQuantum (d.sys.sched.metadata job) now
      else d.sys.sched.metadata job := by rw [heq]
  refine ⟨h.runTime, h.nodup, fun job hjob ↦ h.queued job (hperm.mem_iff.mp hjob),
    fun job hjob ↦ ?_, h.finished, h.finished_nodup, fun job hjob ↦ ?_, ?_, ?_, ?_, ?_⟩
  · rcases d.sys.sched.schedulerQuantumExpired_mem P evicted now hjob with hqueued | rfl
    · exact h.queued job hqueued
    · exact h.running job (by simpa [eq_comm] using hev)
  · obtain ⟨harrival, hrun, hle⟩ := h.record job hjob
    simp only [note, hmeta]
    split
    · exact ⟨harrival, hrun, (sub_one_lt _).le.trans hle⟩
    · exact ⟨harrival, hrun, hle⟩
  · change time + _ ≤ now
    cases evicted with
    | none =>
      rw [hnow]
      simpa [used, note, Scheduler.schedulerQuantumExpired] using h.now
    | some job =>
      have hjob : job ∈ jobs := h.running job (by simpa [eq_comm] using hev)
      refine (add_le_add_right (sum_le_add_of_le (f := d.used) (δ := 1) hjob
        fun other hother ↦ ?_) time).trans ?_
      · simp only [used, note, hmeta, Option.some.injEq]
        rcases eq_or_ne other job with rfl | hne
        · by_cases hfinished : other ∈ d.sys.finished
          · simp [hfinished]
          · simp only [hfinished, if_false, if_true, Scheduler.chargeQuantum]
            linarith
        · simp [hne, hne.symm]
      · have hbefore := h.now
        rw [if_neg (Option.some_ne_none job)] at hnow
        linarith
  · simpa only [note, heq] using h.waiting
  · simpa only [note, heq] using h.turnaround
  · simpa only [note, heq] using h.numJob

theorem jobFinished (h : d.Serving time jobs length) {job : Job} {now : ℚ}
    (hrun : d.sys.running = some job) (hunfinished : job ∉ d.sys.finished)
    (hremaining : (d.sys.sched.metadata job).remainingTime = now - d.now) :
    (d.note { d.sys with
      sched := d.sys.sched.schedulerJobFinished job now
      finished := job :: d.sys.finished
      running := none } (.jobFinished job now)).Serving time jobs length := by
  have hjob := h.running job hrun
  obtain ⟨harrival, hruntime, -⟩ := h.record job hjob
  have hused : d.used job = length job - (now - d.now) := by
    rw [used, if_neg hunfinished, h.runTime, hremaining]
  refine ⟨h.runTime, h.nodup, fun other hother ↦ h.queued other (List.mem_of_mem_tail hother),
    by simp [note], fun other hother ↦ ?_, h.finished_nodup.cons hunfinished, h.record, ?_, ?_,
    ?_, ?_⟩
  · rcases List.mem_cons.mp hother with rfl | hother
    · exact hjob
    · exact h.finished other hother
  · change time + _ ≤ now
    refine (add_le_add_right (sum_le_add_of_le (f := d.used) (δ := now - d.now) hjob
      fun other hother ↦ ?_) time).trans (by linarith [h.now])
    rcases eq_or_ne other job with rfl | hne
    · simp [used, note, hunfinished, hremaining]
    · simp [used, note, hne, Scheduler.schedulerJobFinished]
  · have hbefore := h.finished_le hjob hunfinished
    have hnow := h.now
    simp only [note, Scheduler.schedulerJobFinished, List.reverse_cons, List.map_append,
      List.map_cons, List.map_nil, totalDelay_concat, List.map_reverse, List.sum_reverse, harrival,
      hruntime]
    have hwaiting := h.waiting
    rw [List.map_reverse] at hwaiting
    linarith
  · have hturnaround := h.turnaround
    simp only [note, Scheduler.schedulerJobFinished, List.map_cons, List.sum_cons, harrival,
      hruntime]
    linarith
  · simp [note, Scheduler.schedulerJobFinished, h.numJob]

theorem step (h : d.Serving time jobs length) (hbusy : d.Busy c) (hcall : d.call P c = some d') :
    d'.Serving time jobs length := by
  obtain ⟨htimely, sys, hsys, rfl⟩ := call_cases hcall
  obtain ⟨job, n, time', data, rfl, -, -⟩ | ⟨evicted, now, rfl, hev, rfl⟩ |
    ⟨job, now, rfl, hrun, rfl⟩ := Sys.call_cases hsys
  · cases hbusy
  · apply h.quantumExpired hev
    cases evicted with
    | none =>
      have hnow : now = d.now := hbusy
      simpa using hnow
    | some job =>
      have hnow : now = d.now + 1 := htimely
      simpa using hnow
  · exact h.jobFinished hrun htimely.1 hbusy

end Serving

/-! ## Under `SJF` -/

/-- The jobs finish in the order of their running times, and each waits for those before it only. -/
structure Shortest (time : ℚ) (jobs : List Job) (length : Job → ℚ) (d : Driver Job) : Prop where
  scheme : d.sys.sched.pqueueScheme = .SJF
  perm : (d.sys.finished.reverse ++ d.sys.sched.pqueue).Perm jobs
  order : (d.sys.finished.reverse ++ d.sys.sched.pqueue).Pairwise fun a b ↦ length a ≤ length b
  head : ∀ job, d.sys.running = some job → priqueuePeek d.sys.sched.pqueue = some job
  fresh : ∀ job ∈ d.sys.sched.pqueue, d.sys.running ≠ some job →
    (d.sys.sched.metadata job).remainingTime = length job
  idle : d.sys.running = none → d.now = time + (d.sys.finished.map length).sum
  busy : ∀ job, d.sys.running = some job → d.now + (d.sys.sched.metadata job).remainingTime =
    time + (d.sys.finished.map length).sum + length job
  waiting : d.sys.sched.totalWaitingTime = totalDelay (d.sys.finished.reverse.map length)

omit [DecidableEq Job] in
theorem Opening.shortest (h : d.Opening .SJF time) : d.Shortest time d.sys.arrived d.runTime where
  scheme := h.scheme
  perm := by simpa [h.finished] using h.queue
  order := by
    rw [h.finished, List.reverse_nil, List.nil_append]
    refine List.Pairwise.imp_of_mem (fun {a b} ha hb hab ↦ ?_) h.order
    rw [Scheduler.compare_nonpos_iff, h.scheme, Scheme.rank, Scheme.rank,
      Prod.Lex.toLex_le_toLex] at hab
    simp only [Scheme.key, (h.record a (h.queue.mem_iff.mp ha)).2.2,
      (h.record b (h.queue.mem_iff.mp hb)).2.2] at hab
    exact hab.elim le_of_lt fun hab ↦ hab.1.le
  head job hjob := by simp [h.running] at hjob
  fresh job hjob _ := (h.record job (h.queue.mem_iff.mp hjob)).2.2
  idle _ := by simp [h.finished, h.now]
  busy job hjob := by simp [h.running] at hjob
  waiting := by simp [h.finished, h.totals.1, totalDelay]

namespace Shortest

theorem quantumExpired (h : d.Shortest time jobs length) {evicted : Option Job} {now : ℚ}
    (hev : evicted = d.sys.running) (hnow : now = d.now + if evicted = none then 0 else 1) :
    (d.note { d.sys with
      sched := (d.sys.sched.schedulerQuantumExpired P evicted now).2
      running := (d.sys.sched.schedulerQuantumExpired P evicted now).1 }
        (.quantumExpired evicted now)).Shortest time jobs length := by
  cases evicted with
  | none =>
    rw [if_pos rfl, add_zero] at hnow
    have hfresh : ∀ job ∈ d.sys.sched.pqueue,
        (d.sys.sched.metadata job).remainingTime = length job := by
      intro job hjob
      apply h.fresh job hjob
      simp [← hev]
    refine ⟨h.scheme, h.perm, h.order, fun _ hjob ↦ hjob, fun job hjob _ ↦ hfresh job hjob,
      fun _ ↦ hnow.trans (h.idle hev.symm), fun job hjob ↦ ?_, h.waiting⟩
    have hidle := h.idle hev.symm
    have hremaining := hfresh job (List.mem_of_mem_head? hjob)
    simp only [note, Scheduler.schedulerQuantumExpired, hremaining, hnow, hidle]
  | some job =>
    rw [if_neg (Option.some_ne_none job)] at hnow
    have hpre : d.sys.sched.pqueueScheme.preemptive = false := by rw [h.scheme]; rfl
    rw [Scheduler.schedulerQuantumExpired_some hpre]
    refine ⟨h.scheme, h.perm, h.order, fun other hother ↦ h.head other (hev ▸ hother),
      fun other hother hne ↦ ?_, by simp [note], fun other hother ↦ ?_, h.waiting⟩
    · have hne' : other ≠ job := fun heq ↦ hne (by simp [note, heq])
      have hfresh := h.fresh other hother (by simpa [← hev] using hne'.symm)
      simpa [note, Scheduler.charge, Scheduler.setMetadata, hne'] using hfresh
    · obtain rfl : job = other := by simpa [note] using hother
      have hbusy := h.busy job hev.symm
      simp only [note, Scheduler.charge, Scheduler.setMetadata, Function.update_self,
        Scheduler.chargeQuantum]
      linarith

theorem jobFinished (h : d.Shortest time jobs length) (hserving : d.Serving time jobs length)
    {job : Job} {now : ℚ} (hrun : d.sys.running = some job)
    (hremaining : (d.sys.sched.metadata job).remainingTime = now - d.now) :
    (d.note { d.sys with
      sched := d.sys.sched.schedulerJobFinished job now
      finished := job :: d.sys.finished
      running := none } (.jobFinished job now)).Shortest time jobs length := by
  obtain ⟨harrival, hruntime, -⟩ := hserving.record job (hserving.running job hrun)
  have hbusy := h.busy job hrun
  have hqueue : d.sys.sched.pqueue = job :: d.sys.sched.pqueue.tail :=
    (List.cons_head?_tail (h.head job hrun)).symm
  have hline : (job :: d.sys.finished).reverse ++ d.sys.sched.pqueue.tail =
      d.sys.finished.reverse ++ d.sys.sched.pqueue := by
    rw [List.reverse_cons, List.append_assoc, List.singleton_append, ← hqueue]
  refine ⟨h.scheme, ?_, ?_, by simp [note], fun other hother _ ↦ ?_, fun _ ↦ ?_, by simp [note], ?_⟩
  · exact hline.symm ▸ h.perm
  · exact hline.symm ▸ h.order
  · have hnodup : d.sys.sched.pqueue.Nodup := (h.perm.nodup_iff.mpr hserving.nodup).of_append_right
    rw [hqueue] at hnodup
    apply h.fresh other (List.mem_of_mem_tail hother)
    rw [hrun]
    rintro heq
    cases heq
    exact hnodup.notMem hother
  · simp only [note, List.map_cons, List.sum_cons]
    linarith
  · have hwaiting := h.waiting
    rw [List.map_reverse] at hwaiting
    simp only [note, Scheduler.schedulerJobFinished, List.reverse_cons, List.map_append,
      List.map_cons, List.map_nil, totalDelay_concat, List.map_reverse, List.sum_reverse, harrival,
      hruntime]
    linarith

theorem step (h : d.Shortest time jobs length) (hserving : d.Serving time jobs length)
    (hbusy : d.Busy c) (hcall : d.call P c = some d') : d'.Shortest time jobs length := by
  obtain ⟨htimely, sys, hsys, rfl⟩ := call_cases hcall
  obtain ⟨job, n, time', data, rfl, -, -⟩ | ⟨evicted, now, rfl, hev, rfl⟩ |
    ⟨job, now, rfl, hrun, rfl⟩ := Sys.call_cases hsys
  · cases hbusy
  · cases evicted with
    | none =>
      have hnow : now = d.now := hbusy
      exact h.quantumExpired htimely.1.symm (by simpa using hnow)
    | some job =>
      have hnow : now = d.now + 1 := htimely
      exact h.quantumExpired (by simpa using hev) (by simpa using hnow)
  · exact h.jobFinished hserving hrun hbusy

end Shortest

/-! ## The averages -/

/-- The jobs and their running times depend on the arrivals only. -/
theorem same_jobs {e e' : Driver Job} {calls : List (Call Job)}
    (hrun : Run (StepOf (Driver.call P)) d calls e)
    (hrun' : Run (StepOf (Driver.call P)) d' calls e')
    (harrived : d.sys.arrived = d'.sys.arrived) (hlength : d.runTime = d'.runTime) :
    e.sys.arrived = e'.sys.arrived ∧ e.runTime = e'.runTime := by
  induction hrun generalizing e' with
  | nil =>
    obtain rfl := Run.nil_iff.mp hrun'
    exact ⟨harrived, hlength⟩
  | @snoc e₁ e₂ calls c _ hlast ih =>
    obtain ⟨e₁', hprev', hlast'⟩ := Run.snoc_iff.mp hrun'
    obtain ⟨harrived₁, hlength₁⟩ := ih hprev'
    obtain ⟨-, sys, hsys, rfl⟩ := call_cases hlast
    obtain ⟨-, sys', hsys', rfl⟩ := call_cases hlast'
    obtain ⟨job, n, time, data, rfl, -, rfl⟩ | ⟨evicted, time, rfl, -, rfl⟩ |
      ⟨job, time, rfl, -, rfl⟩ := Sys.call_cases hsys
    all_goals
      obtain ⟨_, _, _, _, hc, -, rfl⟩ | ⟨_, _, hc, -, rfl⟩ | ⟨_, _, hc, -, rfl⟩ :=
        Sys.call_cases hsys' <;> cases hc
      simp [note, harrived₁, hlength₁]

theorem opening_of_run {scheme : Scheme} {metadata : Job → JobInfo} {arrivals : List (Call Job)}
    (harrivals : ∀ c ∈ arrivals, c.ArrivesAt time)
    (hrun : Run (StepOf (Driver.call P)) (Driver.start scheme metadata time) arrivals d) :
    d.Opening scheme time := by
  induction hrun with
  | nil => exact .start scheme metadata time
  | snoc _ hlast ih =>
    rw [List.forall_mem_append, List.forall_mem_singleton] at harrivals
    exact (ih harrivals.1).step harrivals.2 hlast

theorem Serving.finished_perm (h : d.Serving time jobs length)
    (hdone : ∀ job ∈ jobs, job ∈ d.sys.finished) : d.sys.finished.Perm jobs :=
  (List.perm_ext_iff_of_nodup h.finished_nodup h.nodup).mpr fun job ↦
    ⟨h.finished job, hdone job⟩

omit [DecidableEq Job] in
/-- At the end the finished jobs are in the order of their running times. -/
theorem Shortest.finished_pairwise (h : d.Shortest time jobs length) :
    (d.sys.finished.reverse.map length).Pairwise (· ≤ ·) :=
  List.pairwise_map.mpr (List.pairwise_append.mp h.order).1

/-- The same jobs arrive at once and run to completion without idle time, once under `SJF` and once
under any scheme.  Then `SJF` has no greater average waiting time, and no greater average
turnaround time. -/
theorem sjf_minimises_waiting (P : Priqueue Job) (scheme : Scheme) (metadata : Job → JobInfo)
    (time : ℚ) {arrivals calls calls' : List (Call Job)} {d₀ d₀' : Driver Job}
    (harrivals : ∀ c ∈ arrivals, c.ArrivesAt time)
    (hopen : Run (StepOf (Driver.call P)) (Driver.start .SJF metadata time) arrivals d₀)
    (hopen' : Run (StepOf (Driver.call P)) (Driver.start scheme metadata time) arrivals d₀')
    (hrun : Run (Guarded (StepOf (Driver.call P)) Busy) d₀ calls d)
    (hrun' : Run (Guarded (StepOf (Driver.call P)) Busy) d₀' calls' d')
    (hdone : ∀ job ∈ d₀.sys.arrived, job ∈ d.sys.finished)
    (hdone' : ∀ job ∈ d₀'.sys.arrived, job ∈ d'.sys.finished) :
    d.sys.sched.schedulerAverageWaitingTime ≤ d'.sys.sched.schedulerAverageWaitingTime ∧
      d.sys.sched.schedulerAverageTurnaroundTime ≤ d'.sys.sched.schedulerAverageTurnaroundTime := by
  have hopening := opening_of_run harrivals hopen
  obtain ⟨hjobs, hlength⟩ := same_jobs hopen hopen' rfl rfl
  obtain ⟨hserving, hshortest⟩ := hrun.invariant
    (I := fun d ↦ d.Serving time d₀.sys.arrived d₀.runTime ∧
      d.Shortest time d₀.sys.arrived d₀.runTime)
    (fun _ _ _ h hstep ↦ ⟨h.1.step hstep.1 hstep.2, h.2.step h.1 hstep.1 hstep.2⟩)
    ⟨hopening.serving, hopening.shortest⟩
  have hserving' : d'.Serving time d₀.sys.arrived d₀.runTime := by
    rw [hjobs, hlength]
    exact hrun'.invariant (I := fun d ↦ d.Serving time d₀'.sys.arrived d₀'.runTime)
      (fun _ _ _ h hstep ↦ h.step hstep.1 hstep.2) (opening_of_run harrivals hopen').serving
  have hperm := hserving.finished_perm hdone
  have hperm' := hserving'.finished_perm (hjobs ▸ hdone')
  have hnumJob : d.sys.sched.numJob = d'.sys.sched.numJob := by
    rw [hserving.numJob, hserving'.numJob, hperm.length_eq, hperm'.length_eq]
  have hwaiting : d.sys.sched.totalWaitingTime ≤ d'.sys.sched.totalWaitingTime := by
    calc
      d.sys.sched.totalWaitingTime = totalDelay (d.sys.finished.reverse.map d₀.runTime) :=
        hshortest.waiting
      _ ≤ totalDelay (d'.sys.finished.reverse.map d₀.runTime) := by
        apply totalDelay_le_of_pairwise hshortest.finished_pairwise
        apply List.Perm.map
        exact (List.reverse_perm _).trans ((hperm.trans hperm'.symm).trans (List.reverse_perm _).symm)
      _ ≤ d'.sys.sched.totalWaitingTime := hserving'.waiting
  have hturnaround : d.sys.sched.totalTurnaroundTime ≤ d'.sys.sched.totalTurnaroundTime := by
    rw [hserving.turnaround, hserving'.turnaround,
      ((hperm.trans hperm'.symm).map d₀.runTime).sum_eq]
    exact add_le_add_left hwaiting _
  have hnonneg : (0 : ℚ) ≤ d'.sys.sched.numJob := Nat.cast_nonneg _
  simp only [Scheduler.schedulerAverageWaitingTime, Scheduler.schedulerAverageTurnaroundTime,
    hnumJob]
  exact ⟨div_le_div_of_nonneg_right hwaiting hnonneg, div_le_div_of_nonneg_right hturnaround hnonneg⟩

/-- Two jobs that need two quanta and one, under `SJF` and under `RR`. -/
theorem sjf_minimises_waiting_rr : ∃ d d' : Driver ℕ,
    d.sys.sched.schedulerAverageWaitingTime = 1 / 2 ∧
    d'.sys.sched.schedulerAverageWaitingTime = 1 ∧
    d.sys.sched.schedulerAverageWaitingTime ≤ d'.sys.sched.schedulerAverageWaitingTime := by
  let f := Driver.call (Priqueue.insertion ℕ)
  let metadata : ℕ → JobInfo := fun _ ↦ ⟨0, 0, 0, 0, 0, 0, 0⟩
  let arrivals : List (Call ℕ) := [.newJob 1 1 0 ⟨2, 1⟩, .newJob 2 2 0 ⟨1, 1⟩]
  let calls : List (Call ℕ) := [.quantumExpired none 0, .jobFinished 2 1, .quantumExpired none 1,
    .quantumExpired (some 1) 2, .jobFinished 1 3]
  let calls' : List (Call ℕ) := [.quantumExpired none 0, .quantumExpired (some 1) 1,
    .jobFinished 2 2, .quantumExpired none 2, .jobFinished 1 3]
  have hsjf : (execute f (Driver.start .SJF metadata 0) arrivals).bind (fun d₀ ↦
      (execute (guarded f Busy) d₀ calls).map fun d ↦ (d₀.sys.arrived, d.sys.finished,
        d.sys.sched.schedulerAverageWaitingTime)) = some ([2, 1], [1, 2], 1 / 2) := by
    decide +kernel
  have hrr : (execute f (Driver.start .RR metadata 0) arrivals).bind (fun d₀ ↦
      (execute (guarded f Busy) d₀ calls').map fun d ↦ (d₀.sys.arrived, d.sys.finished,
        d.sys.sched.schedulerAverageWaitingTime)) = some ([2, 1], [1, 2], 1) := by
    decide +kernel
  obtain ⟨d₀, hopen, hsjf⟩ := Option.bind_eq_some_iff.mp hsjf
  obtain ⟨d, hrun, hsjf⟩ := Option.map_eq_some_iff.mp hsjf
  obtain ⟨d₀', hopen', hrr⟩ := Option.bind_eq_some_iff.mp hrr
  obtain ⟨d', hrun', hrr⟩ := Option.map_eq_some_iff.mp hrr
  simp only [Prod.mk.injEq] at hsjf hrr
  obtain ⟨harrived, hfinished, haverage⟩ := hsjf
  obtain ⟨harrived', hfinished', haverage'⟩ := hrr
  refine ⟨d, d', haverage, haverage', ?_⟩
  exact (sjf_minimises_waiting (Priqueue.insertion ℕ) .RR metadata 0
    (by simp [arrivals, Call.ArrivesAt])
    (Run.execute_eq_some_iff.mp hopen) (Run.execute_eq_some_iff.mp hopen')
    (Run.execute_guarded_eq_some_iff.mp hrun) (Run.execute_guarded_eq_some_iff.mp hrun')
    (by rw [harrived, hfinished]; simp) (by rw [harrived', hfinished']; simp)).1

end Driver

end SystemProgramming.SavvyScheduler
