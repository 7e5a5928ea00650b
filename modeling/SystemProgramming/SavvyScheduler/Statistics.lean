import SystemProgramming.SavvyScheduler.Preemption

/-!
# The statistics

A driver that calls the scheduler in unit quanta.  What the totals should be is computed from
the times of its calls and from the jobs that it is handed.
-/

namespace SystemProgramming.SavvyScheduler

variable {Job : Type*}

/-- The scheduler with the last time step, the time of the last call, and what the driver
has seen of each job. -/
structure Driver (Job : Type*) where
  sys : Sys Job
  now : ℚ
  last : ℚ
  arrival : Job → ℚ
  runTime : Job → ℚ
  firstReturn : Job → Option ℚ
  finish : Job → ℚ
  ranQuantum : Job → Bool

namespace Driver

def start (s : Scheme) (metadata : Job → JobInfo) (time : ℚ) : Driver Job where
  sys := Sys.start s metadata
  now := time
  last := time
  arrival _ := 0
  runTime _ := 0
  firstReturn _ := none
  finish _ := 0
  ranQuantum _ := false

variable [DecidableEq Job] (P : Priqueue Job) (d : Driver Job)

/-- A quantum ends one unit after the last time step.  Jobs arrive in between, and a job
finishes once, at the end of its quantum or when that has just been reported. -/
def Timely : Call Job → Prop
  | .newJob _ _ time _ => d.last ≤ time ∧ time ≤ d.now + 1
  | .quantumExpired none time =>
      d.sys.running = none ∧ (time = d.now ∨ time = d.now + 1) ∧ d.last ≤ time
  | .quantumExpired (some _) time => time = d.now + 1
  | .jobFinished job time =>
      job ∉ d.sys.finished ∧ (time = d.now ∨ time = d.now + 1) ∧ d.last ≤ time

instance : ∀ c, Decidable (d.Timely c)
  | .newJob .. => inferInstanceAs (Decidable (_ ∧ _))
  | .quantumExpired none _ => inferInstanceAs (Decidable (_ ∧ _))
  | .quantumExpired (some _) _ => inferInstanceAs (Decidable (_ = _))
  | .jobFinished .. => inferInstanceAs (Decidable (_ ∧ _))

/-- A job is returned for the first time. -/
def noteReturn (time : ℚ) : Option Job → Job → Option ℚ
  | none => d.firstReturn
  | some job => if d.firstReturn job = none then Function.update d.firstReturn job (some time)
      else d.firstReturn

def noteQuantum : Option Job → Job → Bool
  | none => d.ranQuantum
  | some job => Function.update d.ranQuantum job true

/-- What the driver notes about a call that leaves `sys`. -/
def note (sys : Sys Job) : Call Job → Driver Job
  | .newJob job _ time data =>
      { d with
        sys := sys
        last := time
        arrival := Function.update d.arrival job time
        runTime := Function.update d.runTime job data.runningTime }
  | .quantumExpired evicted time =>
      { d with
        sys := sys
        now := time
        last := time
        firstReturn := d.noteReturn time sys.running
        ranQuantum := d.noteQuantum evicted }
  | .jobFinished job time =>
      { d with
        sys := sys
        now := time
        last := time
        finish := Function.update d.finish job time }

def call (c : Call Job) : Option (Driver Job) :=
  if d.Timely c then (d.sys.call P c).map fun sys ↦ d.note sys c else none

omit [DecidableEq Job] in
/-- The time from the arrival of a job to its first return. -/
def response (job : Job) : ℚ := (d.firstReturn job).getD 0 - d.arrival job

/-- The totals are those of the finished jobs. -/
structure Accurate (d : Driver Job) : Prop where
  nodup : d.sys.finished.Nodup
  numJob : d.sys.sched.numJob = d.sys.finished.length
  turnaround : d.sys.sched.totalTurnaroundTime =
    (d.sys.finished.map fun job ↦ d.finish job - d.arrival job).sum
  waiting : d.sys.sched.totalWaitingTime =
    (d.sys.finished.map fun job ↦ d.finish job - d.arrival job - d.runTime job).sum
  response : d.sys.sched.totalResponseTime = (d.sys.finished.map d.response).sum
  returned : ∀ job ∈ d.sys.finished, d.firstReturn job ≠ none ∧ 0 ≤ d.response job

/-- A job that finishes has been evicted at the end of a quantum before. -/
def RanQuantum (d : Driver Job) : Call Job → Prop
  | .jobFinished job _ => d.ranQuantum job = true
  | _ => True

instance (d : Driver Job) : ∀ c, Decidable (d.RanQuantum c)
  | .newJob .. => isTrue trivial
  | .quantumExpired .. => isTrue trivial
  | .jobFinished .. => inferInstanceAs (Decidable (_ = _))

/-- The start time of a job: not set before its first quantum has ended, and then the time at
which it was first returned. -/
def Started (d : Driver Job) (job : Job) : Prop :=
  d.firstReturn job = none ∧ d.ranQuantum job = false ∧ (d.sys.sched.metadata job).startTime = -1 ∨
  d.firstReturn job = some d.now ∧ d.ranQuantum job = false ∧ d.sys.running = some job ∧
    (d.sys.sched.metadata job).startTime = -1 ∨
  d.firstReturn job = some (d.sys.sched.metadata job).startTime ∧ d.ranQuantum job = true

structure Inv (d : Driver Job) : Prop where
  accurate : d.Accurate
  now_nonneg : 0 ≤ d.now
  now_le : d.now ≤ d.last
  last_le : d.last ≤ d.now + 1
  finished : ∀ job ∈ d.sys.finished, job ∈ d.sys.arrived
  queued : ∀ job ∈ d.sys.sched.pqueue, job ∈ d.sys.arrived
  running : ∀ job, d.sys.running = some job → job ∈ d.sys.arrived ∧ d.firstReturn job ≠ none
  arrival_le : ∀ job ∈ d.sys.arrived, d.arrival job ≤ d.last
  arrivalTime : ∀ job ∈ d.sys.arrived, (d.sys.sched.metadata job).arrivalTime = d.arrival job
  runTime : ∀ job ∈ d.sys.arrived, (d.sys.sched.metadata job).runTime = d.runTime job
  returned : ∀ job time, d.firstReturn job = some time →
    job ∈ d.sys.arrived ∧ d.arrival job ≤ time ∧ 0 ≤ time
  ran : ∀ job, d.ranQuantum job = true → job ∈ d.sys.arrived
  started : ∀ job ∈ d.sys.arrived, job ∉ d.sys.finished → d.Started job

end Driver

/-! ## The scheduler's side of the calls -/

namespace Scheduler

variable [DecidableEq Job] (P : Priqueue Job) (s : Scheduler Job)

/-- A quantum changes the record of the evicted job and the order of the queue. -/
theorem schedulerQuantumExpired_eq (evicted : Option Job) (time : ℚ) : ∃ queue,
    (s.schedulerQuantumExpired P evicted time).2 =
      { s with
        metadata := fun job ↦
          if evicted = some job then chargeQuantum (s.metadata job) time else s.metadata job
        pqueue := queue } := by
  cases evicted with
  | none => exact ⟨s.pqueue, by simp [schedulerQuantumExpired]⟩
  | some job =>
      have hcharge : (s.charge job time).metadata = fun other ↦
          if some job = some other then chargeQuantum (s.metadata other) time
          else s.metadata other := by
        funext other
        rcases eq_or_ne other job with rfl | hne
        · simp [charge, setMetadata]
        · simp [charge, setMetadata, hne, hne.symm]
      rw [← hcharge]
      by_cases hpre : s.pqueueScheme.preemptive
      · simp only [schedulerQuantumExpired, hpre, if_true, rotate]
        split
        · exact ⟨_, rfl⟩
        · exact ⟨_, rfl⟩
      · simp only [schedulerQuantumExpired, hpre]
        exact ⟨s.pqueue, rfl⟩

end Scheduler

namespace Driver

variable [DecidableEq Job] {P : Priqueue Job} {d d' : Driver Job}

/-! ## The totals -/

omit [DecidableEq Job] in
/-- The totals stay accurate while no job finishes. -/
theorem Accurate.congr (h : d.Accurate) (hfinished : d'.sys.finished = d.sys.finished)
    (hnum : d'.sys.sched.numJob = d.sys.sched.numJob)
    (hturnaround : d'.sys.sched.totalTurnaroundTime = d.sys.sched.totalTurnaroundTime)
    (hwaiting : d'.sys.sched.totalWaitingTime = d.sys.sched.totalWaitingTime)
    (hresponse : d'.sys.sched.totalResponseTime = d.sys.sched.totalResponseTime)
    (hfinish : ∀ job ∈ d.sys.finished, d'.finish job = d.finish job)
    (harrival : ∀ job ∈ d.sys.finished, d'.arrival job = d.arrival job)
    (hrunTime : ∀ job ∈ d.sys.finished, d'.runTime job = d.runTime job)
    (hreturn : ∀ job ∈ d.sys.finished, d'.firstReturn job = d.firstReturn job) :
    d'.Accurate where
  nodup := hfinished ▸ h.nodup
  numJob := by rw [hnum, hfinished, h.numJob]
  turnaround := by
    rw [hturnaround, hfinished, h.turnaround]
    congr 1
    refine List.map_congr_left fun job hjob ↦ ?_
    rw [hfinish job hjob, harrival job hjob]
  waiting := by
    rw [hwaiting, hfinished, h.waiting]
    congr 1
    refine List.map_congr_left fun job hjob ↦ ?_
    rw [hfinish job hjob, harrival job hjob, hrunTime job hjob]
  response := by
    rw [hresponse, hfinished, h.response]
    congr 1
    refine List.map_congr_left fun job hjob ↦ ?_
    rw [Driver.response, Driver.response, hreturn job hjob, harrival job hjob]
  returned := by
    intro job hjob
    rw [hfinished] at hjob
    rw [Driver.response, hreturn job hjob, harrival job hjob]
    exact h.returned job hjob

/-- The state that a finished job leaves. -/
def afterFinish (d : Driver Job) (job : Job) (time : ℚ) : Driver Job :=
  d.note { d.sys with
    sched := d.sys.sched.schedulerJobFinished job time
    finished := job :: d.sys.finished
    running := none } (.jobFinished job time)

/-- A finished job adds its own times to the totals, and its response is right if its start
time is the time of its first return. -/
theorem accurate_afterFinish_iff (h : d.Inv) {job : Job} {time : ℚ}
    (hrun : d.sys.running = some job) (hnew : job ∉ d.sys.finished) :
    (d.afterFinish job time).Accurate ↔
      d.firstReturn job = some (d.sys.sched.metadata job).startTime := by
  obtain ⟨harrived, hreturned⟩ := h.running job hrun
  obtain ⟨first, hfirst⟩ := Option.ne_none_iff_exists'.mp hreturned
  have harrival := h.arrivalTime job harrived
  have hrunTime := h.runTime job harrived
  have hself : (d.afterFinish job time).finish job = time := Function.update_self ..
  have hothers : ∀ other ∈ d.sys.finished,
      (d.afterFinish job time).finish other = d.finish other := by
    rintro other hother
    refine Function.update_of_ne ?_ _ _
    rintro rfl
    exact hnew hother
  have hsum : (d.sys.finished.map (d.afterFinish job time).response).sum =
      d.sys.sched.totalResponseTime := h.accurate.response.symm
  constructor
  · intro hacc
    have htotal := hacc.response
    simp only [afterFinish, note, Scheduler.schedulerJobFinished, List.map_cons, List.sum_cons]
      at htotal hsum
    rw [hsum, add_comm, add_left_inj, harrival, Driver.response, hfirst, Option.getD_some,
      sub_left_inj] at htotal
    rw [hfirst, htotal]
  · intro hstart
    constructor
    case nodup => exact List.nodup_cons.mpr ⟨hnew, h.accurate.nodup⟩
    case numJob => exact congrArg (· + 1) h.accurate.numJob
    case turnaround =>
      have hmap : d.sys.finished.map (fun j ↦ (d.afterFinish job time).finish j - d.arrival j) =
          d.sys.finished.map fun j ↦ d.finish j - d.arrival j :=
        List.map_congr_left fun j hj ↦ by rw [hothers j hj]
      calc d.sys.sched.totalTurnaroundTime + (time - (d.sys.sched.metadata job).arrivalTime)
          = time - d.arrival job + (d.sys.finished.map fun j ↦ d.finish j - d.arrival j).sum := by
            rw [h.accurate.turnaround, harrival, add_comm]
        _ = ((job :: d.sys.finished).map fun j ↦
              (d.afterFinish job time).finish j - d.arrival j).sum := by
            rw [List.map_cons, List.sum_cons, hself, hmap]
    case waiting =>
      have hmap : d.sys.finished.map
            (fun j ↦ (d.afterFinish job time).finish j - d.arrival j - d.runTime j) =
          d.sys.finished.map fun j ↦ d.finish j - d.arrival j - d.runTime j :=
        List.map_congr_left fun j hj ↦ by rw [hothers j hj]
      calc d.sys.sched.totalWaitingTime + (time - (d.sys.sched.metadata job).arrivalTime -
            (d.sys.sched.metadata job).runTime)
          = time - d.arrival job - d.runTime job +
              (d.sys.finished.map fun j ↦ d.finish j - d.arrival j - d.runTime j).sum := by
            rw [h.accurate.waiting, harrival, hrunTime, add_comm]
        _ = ((job :: d.sys.finished).map fun j ↦
              (d.afterFinish job time).finish j - d.arrival j - d.runTime j).sum := by
            rw [List.map_cons, List.sum_cons, hself, hmap]
    case response =>
      calc d.sys.sched.totalResponseTime +
            ((d.sys.sched.metadata job).startTime - (d.sys.sched.metadata job).arrivalTime)
          = d.response job + (d.sys.finished.map d.response).sum := by
            rw [h.accurate.response, Driver.response, hstart, harrival, add_comm,
              Option.getD_some]
        _ = ((job :: d.sys.finished).map d.response).sum := by
            rw [List.map_cons, List.sum_cons]
    case returned =>
      obtain ⟨-, hle, -⟩ := h.returned job first hfirst
      intro other hother
      rcases List.mem_cons.mp hother with rfl | hother
      · refine ⟨hreturned, ?_⟩
        change 0 ≤ (d.firstReturn other).getD 0 - d.arrival other
        rw [hfirst, Option.getD_some]
        exact sub_nonneg.mpr hle
      · exact h.accurate.returned other hother

/-! ## The invariant -/

theorem call_cases {c : Call Job} (h : d.call P c = some d') :
    d.Timely c ∧ ∃ sys, d.sys.call P c = some sys ∧ d' = d.note sys c := by
  by_cases htimely : d.Timely c
  · rw [call, if_pos htimely] at h
    obtain ⟨sys, hsys, heq⟩ := Option.map_eq_some_iff.mp h
    exact ⟨htimely, sys, hsys, heq.symm⟩
  · rw [call, if_neg htimely] at h
    cases h

/-- A first return is noted once. -/
theorem noteReturn_apply (time : ℚ) (returned : Option Job) (job : Job) :
    d.noteReturn time returned job =
      (d.firstReturn job).or (if returned = some job then some time else none) := by
  cases returned with
  | none => simp [noteReturn]
  | some other =>
      rw [noteReturn]
      rcases eq_or_ne other job with rfl | hne
      · cases hfirst : d.firstReturn other <;> simp [hfirst]
      · by_cases hfirst : d.firstReturn other = none <;> simp [hfirst, hne, hne.symm]

/-- A return that has been noted stays. -/
theorem noteReturn_of_returned {job : Job} {first : ℚ} (h : d.firstReturn job = some first)
    (time : ℚ) (returned : Option Job) : d.noteReturn time returned job = some first := by
  rw [noteReturn_apply, h, Option.some_or]

theorem noteReturn_of_none {job : Job} (h : d.firstReturn job = none) (time : ℚ)
    (returned : Option Job) : d.noteReturn time returned job =
      if returned = some job then some time else none := by
  rw [noteReturn_apply, h, Option.none_or]

theorem noteQuantum_apply (evicted : Option Job) (job : Job) :
    d.noteQuantum evicted job = (decide (evicted = some job) || d.ranQuantum job) := by
  cases evicted with
  | none => simp [noteQuantum]
  | some other =>
      rcases eq_or_ne other job with rfl | hne
      · simp [noteQuantum]
      · simp [noteQuantum, hne, hne.symm]

namespace Inv

omit [DecidableEq Job] in
theorem start (scheme : Scheme) (metadata : Job → JobInfo) {time : ℚ} (htime : 0 ≤ time) :
    (Driver.start scheme metadata time).Inv where
  accurate := by constructor <;> simp [Driver.start, Sys.start, schedulerStartUp]
  now_nonneg := htime
  now_le := le_rfl
  last_le := by simp [Driver.start]
  finished := by simp [Driver.start, Sys.start]
  queued := by simp [Driver.start, Sys.start, schedulerStartUp]
  running := by simp [Driver.start, Sys.start]
  arrival_le := by simp [Driver.start, Sys.start]
  arrivalTime := by simp [Driver.start, Sys.start]
  runTime := by simp [Driver.start, Sys.start]
  returned := by simp [Driver.start]
  ran := by simp [Driver.start]
  started := by simp [Driver.start, Sys.start]

theorem newJob (h : d.Inv) {job : Job} (hfresh : job ∉ d.sys.arrived) (n : ℤ) {time : ℚ}
    (data : SchedulerInfo) (hlast : d.last ≤ time) (hnow : time ≤ d.now + 1) :
    (d.note { d.sys with
      sched := d.sys.sched.schedulerNewJob P job n time data
      arrived := job :: d.sys.arrived } (.newJob job n time data)).Inv := by
  have hne : ∀ other ∈ d.sys.arrived, other ≠ job := by
    rintro other hother rfl
    exact hfresh hother
  have hmeta : ∀ other ∈ d.sys.arrived,
      (d.sys.sched.schedulerNewJob P job n time data).metadata other =
        d.sys.sched.metadata other :=
    fun other hother ↦ Function.update_of_ne (hne other hother) _ _
  have harrival : ∀ other ∈ d.sys.arrived,
      Function.update d.arrival job time other = d.arrival other :=
    fun other hother ↦ Function.update_of_ne (hne other hother) _ _
  have hrunTime : ∀ other ∈ d.sys.arrived,
      Function.update d.runTime job data.runningTime other = d.runTime other :=
    fun other hother ↦ Function.update_of_ne (hne other hother) _ _
  have hself : (d.sys.sched.schedulerNewJob P job n time data).metadata job =
      ⟨n, time, data.priority, data.runningTime, -1, data.runningTime, -1⟩ :=
    Function.update_self ..
  constructor
  case accurate =>
    exact h.accurate.congr rfl rfl rfl rfl rfl (fun _ _ ↦ rfl)
      (fun other hother ↦ harrival other (h.finished other hother))
      (fun other hother ↦ hrunTime other (h.finished other hother)) fun _ _ ↦ rfl
  case now_nonneg => exact h.now_nonneg
  case now_le => exact h.now_le.trans hlast
  case last_le => exact hnow
  case finished => exact fun other hother ↦ List.mem_cons_of_mem _ (h.finished other hother)
  case queued =>
    intro other hother
    rcases List.mem_cons.mp ((d.sys.sched.schedulerNewJob_pqueue_perm P job n time data).mem_iff.mp
      hother) with rfl | hother
    · exact List.mem_cons_self
    · exact List.mem_cons_of_mem _ (h.queued other hother)
  case running =>
    intro other hother
    obtain ⟨harrived, hreturned⟩ := h.running other hother
    exact ⟨List.mem_cons_of_mem _ harrived, hreturned⟩
  case arrival_le =>
    intro other hother
    rcases List.mem_cons.mp hother with rfl | hother
    · simp [note]
    · simpa only [note, harrival other hother] using (h.arrival_le other hother).trans hlast
  case arrivalTime =>
    intro other hother
    rcases List.mem_cons.mp hother with rfl | hother
    · simp [note, hself]
    · simpa only [note, hmeta other hother, harrival other hother] using h.arrivalTime other hother
  case runTime =>
    intro other hother
    rcases List.mem_cons.mp hother with rfl | hother
    · simp [note, hself]
    · simpa only [note, hmeta other hother, hrunTime other hother] using h.runTime other hother
  case returned =>
    intro other first hfirst
    obtain ⟨harrived, hle⟩ := h.returned other first hfirst
    refine ⟨List.mem_cons_of_mem _ harrived, ?_⟩
    simpa only [note, harrival other harrived] using hle
  case ran => exact fun other hran ↦ List.mem_cons_of_mem _ (h.ran other hran)
  case started =>
    intro other hother hunfinished
    rcases List.mem_cons.mp hother with rfl | hother
    · refine Or.inl ⟨?_, ?_, ?_⟩
      · by_contra hreturned
        obtain ⟨first, hfirst⟩ := Option.ne_none_iff_exists'.mp hreturned
        exact hfresh (h.returned other first hfirst).1
      · exact Bool.eq_false_iff.mpr fun hran ↦ hfresh (h.ran other hran)
      · simp [note, hself]
    · simpa only [Started, note, hmeta other hother] using h.started other hother hunfinished

omit [DecidableEq Job] in
/-- The end of its first quantum sets the start time of a job to the time at which it was first
returned, and its later quanta keep it. -/
theorem startTime_chargeQuantum (h : d.Inv) {job : Job} (hrun : d.sys.running = some job)
    (hunfinished : job ∉ d.sys.finished) : d.firstReturn job =
      some (Scheduler.chargeQuantum (d.sys.sched.metadata job) (d.now + 1)).startTime := by
  obtain ⟨harrived, hreturned⟩ := h.running job hrun
  simp only [Scheduler.chargeQuantum]
  rcases h.started job harrived hunfinished with ⟨hnone, -⟩ | ⟨hnow, -, -, hunset⟩ | ⟨hset, -⟩
  · exact absurd hnone hreturned
  · rw [hnow, hunset, if_pos (by norm_num), add_sub_cancel_right]
  · rw [hset, if_neg (not_lt.mpr (h.returned job _ hset).2.2)]

/-- A return is noted after the arrival of the job. -/
theorem returned_noteReturn (h : d.Inv) {returned : Option Job}
    (hmem : ∀ job, returned = some job → job ∈ d.sys.arrived) {time : ℚ} (hlast : d.last ≤ time)
    {job : Job} {first : ℚ} (hfirst : d.noteReturn time returned job = some first) :
    job ∈ d.sys.arrived ∧ d.arrival job ≤ first ∧ 0 ≤ first := by
  cases hold : d.firstReturn job with
  | none =>
      rw [noteReturn_of_none hold, Option.ite_none_right_eq_some] at hfirst
      obtain ⟨hjob, heq⟩ := hfirst
      cases heq
      have harrived := hmem job hjob
      exact ⟨harrived, (h.arrival_le job harrived).trans hlast,
        h.now_nonneg.trans (h.now_le.trans hlast)⟩
  | some first' =>
      rw [noteReturn_of_returned hold] at hfirst
      cases hfirst
      exact h.returned job first hold

/-- A quantum that ends for another job may be the end of waiting for this one. -/
theorem started_of_not_evicted (h : d.Inv) {evicted returned : Option Job}
    (hev : evicted = d.sys.running) {job : Job} (hjob : job ∈ d.sys.arrived)
    (hunfinished : job ∉ d.sys.finished) (hne : evicted ≠ some job) (time : ℚ) :
    d.noteReturn time returned job = none ∧ d.ranQuantum job = false ∧
        (d.sys.sched.metadata job).startTime = -1 ∨
      d.noteReturn time returned job = some time ∧ d.ranQuantum job = false ∧
        returned = some job ∧ (d.sys.sched.metadata job).startTime = -1 ∨
      d.noteReturn time returned job = some (d.sys.sched.metadata job).startTime ∧
        d.ranQuantum job = true := by
  rcases h.started job hjob hunfinished with
    ⟨hnone, hnot, hunset⟩ | ⟨-, -, hrun, -⟩ | ⟨hset, hquantum⟩
  · rw [noteReturn_of_none hnone]
    by_cases hjobret : returned = some job
    · exact Or.inr (Or.inl ⟨if_pos hjobret, hnot, hjobret, hunset⟩)
    · exact Or.inl ⟨if_neg hjobret, hnot, hunset⟩
  · exact absurd (hev.trans hrun) hne
  · exact Or.inr (Or.inr ⟨noteReturn_of_returned hset _ _, hquantum⟩)

/-- The call at the end of a quantum, or with no job when none is running. -/
theorem quantumExpired (h : d.Inv) {evicted : Option Job} (hev : evicted = d.sys.running)
    {time : ℚ} (hlast : d.last ≤ time)
    (hquantum : ∀ job, evicted = some job → time = d.now + 1) :
    (d.note { d.sys with
      sched := (d.sys.sched.schedulerQuantumExpired P evicted time).2
      running := (d.sys.sched.schedulerQuantumExpired P evicted time).1 }
      (.quantumExpired evicted time)).Inv := by
  obtain ⟨queue, hsched⟩ := d.sys.sched.schedulerQuantumExpired_eq P evicted time
  have htime : d.now ≤ time := h.now_le.trans hlast
  have hmem : ∀ job, (d.sys.sched.schedulerQuantumExpired P evicted time).1 = some job →
      job ∈ d.sys.arrived := by
    intro job hjob
    rcases d.sys.sched.schedulerQuantumExpired_mem P evicted time hjob with hqueued | hrun
    · exact h.queued job hqueued
    · exact (h.running job (hev ▸ hrun)).1
  have hqueue : ∀ job ∈ queue, job ∈ d.sys.arrived := by
    intro job hjob
    have hperm := d.sys.sched.schedulerQuantumExpired_pqueue_perm P evicted time
    rw [hsched] at hperm
    exact h.queued job (hperm.mem_iff.mp hjob)
  generalize (d.sys.sched.schedulerQuantumExpired P evicted time).1 = returned at hmem ⊢
  rw [hsched]
  constructor
  case accurate =>
    refine h.accurate.congr rfl rfl rfl rfl rfl (fun _ _ ↦ rfl) (fun _ _ ↦ rfl) (fun _ _ ↦ rfl) ?_
    intro job hjob
    obtain ⟨first, hfirst⟩ := Option.ne_none_iff_exists'.mp (h.accurate.returned job hjob).1
    exact (noteReturn_of_returned hfirst _ _).trans hfirst.symm
  case now_nonneg => exact h.now_nonneg.trans htime
  case now_le => exact le_rfl
  case last_le => simp [note]
  case finished => exact h.finished
  case queued => exact hqueue
  case running =>
    intro job hjob
    refine ⟨hmem job hjob, ?_⟩
    have hjob : returned = some job := hjob
    simp [note, noteReturn_apply, hjob]
  case arrival_le => exact fun job hjob ↦ (h.arrival_le job hjob).trans hlast
  case arrivalTime =>
    intro job hjob
    by_cases hjobev : evicted = some job
    · simpa [note, hjobev, Scheduler.chargeQuantum] using h.arrivalTime job hjob
    · simpa [note, hjobev] using h.arrivalTime job hjob
  case runTime =>
    intro job hjob
    by_cases hjobev : evicted = some job
    · simpa [note, hjobev, Scheduler.chargeQuantum] using h.runTime job hjob
    · simpa [note, hjobev] using h.runTime job hjob
  case returned => exact fun job first hfirst ↦ h.returned_noteReturn hmem hlast hfirst
  case ran =>
    intro job hran
    change d.noteQuantum evicted job = true at hran
    rw [noteQuantum_apply, Bool.or_eq_true, decide_eq_true_iff] at hran
    rcases hran with hjob | hran
    · exact (h.running job (hev ▸ hjob)).1
    · exact h.ran job hran
  case started =>
    intro job hjob hunfinished
    by_cases hjobev : evicted = some job
    · -- the quantum that ends here began when the job was returned
      have hfirst := h.startTime_chargeQuantum (hev ▸ hjobev) hunfinished
      rw [← hquantum job hjobev] at hfirst
      refine Or.inr (Or.inr ⟨?_, ?_⟩)
      · simp only [note, hjobev, if_true]
        exact noteReturn_of_returned hfirst _ _
      · simp [note, noteQuantum_apply, hjobev]
    · have hran : d.noteQuantum evicted job = d.ranQuantum job := by
        simp [noteQuantum_apply, hjobev]
      simp only [Started, note, hjobev, if_false, hran]
      exact h.started_of_not_evicted hev hjob hunfinished hjobev time

/-- A job that has been evicted before finishes with the start time of its first return. -/
theorem jobFinished (h : d.Inv) {job : Job} (hran : d.ranQuantum job = true)
    (hrun : d.sys.running = some job) (hnew : job ∉ d.sys.finished) {time : ℚ}
    (hlast : d.last ≤ time) : (d.afterFinish job time).Inv := by
  have harrived := (h.running job hrun).1
  have htime : d.now ≤ time := h.now_le.trans hlast
  constructor
  case accurate =>
    rcases h.started job harrived hnew with ⟨-, hnot, -⟩ | ⟨-, hnot, -⟩ | ⟨hset, -⟩
    · rw [hran] at hnot
      cases hnot
    · rw [hran] at hnot
      cases hnot
    · exact (accurate_afterFinish_iff h hrun hnew).mpr hset
  case now_nonneg => exact h.now_nonneg.trans htime
  case now_le => exact le_rfl
  case last_le => simp [afterFinish, note]
  case finished =>
    intro other hother
    rcases List.mem_cons.mp hother with rfl | hother
    · exact harrived
    · exact h.finished other hother
  case queued => exact fun other hother ↦ h.queued other (List.mem_of_mem_tail hother)
  case running => simp [afterFinish, note]
  case arrival_le => exact fun other hother ↦ (h.arrival_le other hother).trans hlast
  case arrivalTime => exact h.arrivalTime
  case runTime => exact h.runTime
  case returned => exact h.returned
  case ran => exact h.ran
  case started =>
    intro other hother hunfinished
    obtain ⟨hne, hunfinished⟩ : other ≠ job ∧ other ∉ d.sys.finished := by
      simpa [afterFinish, note] using hunfinished
    rcases h.started other hother hunfinished with hnone | ⟨-, -, hrun', -⟩ | hset
    · exact Or.inl hnone
    · exact absurd (Option.some.inj (hrun'.symm.trans hrun)) hne
    · exact Or.inr (Or.inr hset)

theorem step {c : Call Job} (h : d.Inv) (hok : d.RanQuantum c) (hcall : d.call P c = some d') :
    d'.Inv := by
  obtain ⟨htimely, sys, hsys, rfl⟩ := call_cases hcall
  rcases Sys.call_cases hsys with
    ⟨job, n, time, data, rfl, hfresh, rfl⟩ | ⟨evicted, time, rfl, hev, rfl⟩ |
      ⟨job, time, rfl, hrun, rfl⟩
  · exact h.newJob hfresh n data htimely.1 htimely.2
  · cases evicted with
    | none =>
        obtain ⟨hidle, -, hlast⟩ := htimely
        exact h.quantumExpired hidle.symm hlast fun job hjob ↦ by cases hjob
    | some job =>
        have hnow : time = d.now + 1 := htimely
        have hlast : d.last ≤ time := hnow ▸ h.last_le
        exact h.quantumExpired (hev.resolve_left (by simp)) hlast fun _ _ ↦ hnow
  · exact h.jobFinished hok hrun htimely.1 htimely.2.2

/-- A job that finishes before its first quantum has ended counts with a start time of `-1`. -/
theorem not_accurate_of_step {c : Call Job} (h : d.Inv) (hbad : ¬ d.RanQuantum c)
    (hcall : d.call P c = some d') : ¬ d'.Accurate := by
  obtain ⟨htimely, sys, hsys, rfl⟩ := call_cases hcall
  rcases Sys.call_cases hsys with
    ⟨job, n, time, data, rfl, -, -⟩ | ⟨evicted, time, rfl, -, -⟩ | ⟨job, time, rfl, hrun, rfl⟩
  · exact absurd trivial hbad
  · exact absurd trivial hbad
  intro hacc
  have hfirst := (accurate_afterFinish_iff h hrun htimely.1).mp hacc
  have hnonneg := (h.returned job _ hfirst).2.2
  rcases h.started job (h.running job hrun).1 htimely.1 with
    ⟨-, -, hunset⟩ | ⟨-, -, -, hunset⟩ | ⟨-, hran⟩
  · rw [hunset] at hnonneg
    norm_num at hnonneg
  · rw [hunset] at hnonneg
    norm_num at hnonneg
  · exact hbad hran

end Inv

/-! ## Runs -/

/-- In every run, under every scheme: the totals are those of the finished jobs after every call
if and only if every job has had a quantum that ended before it finishes. -/
theorem accurate_iff_ranQuantum (P : Priqueue Job) (scheme : Scheme) (metadata : Job → JobInfo)
    {time : ℚ} (htime : 0 ≤ time) (calls : List (Call Job)) (t : Driver Job)
    (hrun : Run (StepOf (Driver.call P)) (Driver.start scheme metadata time) calls t) :
    (∀ pre post u, calls = pre ++ post →
      Run (StepOf (Driver.call P)) (Driver.start scheme metadata time) pre u → u.Accurate) ↔
    Run (Guarded (StepOf (Driver.call P)) Driver.RanQuantum)
      (Driver.start scheme metadata time) calls t :=
  Run.forall_visited_iff_guarded (I := Driver.Inv) (fun _ h ↦ h.accurate)
    (fun _ _ _ h hok hcall ↦ h.step hok hcall)
    (fun _ _ _ h hbad hcall ↦ h.not_accurate_of_step hbad hcall)
    (Inv.start scheme metadata htime) hrun

/-- Under RR the two jobs take turns, and job 2 finishes at the end of its second quantum. -/
theorem accurate_iff_ranQuantum_rr : ∃ t : Driver ℕ, t.sys.finished = [2] ∧ t.Accurate ∧
    t.sys.sched.totalResponseTime = 0 ∧ t.sys.sched.totalWaitingTime = 1 := by
  let calls : List (Call ℕ) := [.newJob 1 1 0 ⟨10, 1⟩, .quantumExpired none 0,
    .newJob 2 2 1 ⟨2, 1⟩, .quantumExpired (some 1) 1, .quantumExpired (some 2) 2,
    .quantumExpired (some 1) 3, .jobFinished 2 4]
  have htotals : (execute (guarded (Driver.call (Priqueue.insertion ℕ)) Driver.RanQuantum)
      (Driver.start .RR (fun _ ↦ ⟨0, 0, 0, 0, 0, 0, 0⟩) 0) calls).map
        (fun t ↦ (t.sys.finished, t.sys.sched.totalResponseTime, t.sys.sched.totalWaitingTime)) =
      some ([2], 0, 1) := by decide +kernel
  obtain ⟨t, hexec, hfields⟩ := Option.map_eq_some_iff.mp htotals
  simp only [Prod.mk.injEq] at hfields
  obtain ⟨hfinished, hresponse, hwaiting⟩ := hfields
  have hguarded := Run.execute_guarded_eq_some_iff.mp hexec
  have haccurate := (accurate_iff_ranQuantum (Priqueue.insertion ℕ) .RR _ le_rfl calls t
    hguarded.of_guarded).mpr hguarded calls [] t (List.append_nil calls).symm hguarded.of_guarded
  exact ⟨t, hfinished, haccurate, hresponse, hwaiting⟩

/-- The only job finishes in its first quantum, and its response time counts as `-1`. -/
theorem first_quantum_response : ∃ t : Driver ℕ,
    Run (StepOf (Driver.call (Priqueue.insertion ℕ)))
      (Driver.start .FCFS (fun _ ↦ ⟨0, 0, 0, 0, 0, 0, 0⟩) 0)
      [.newJob 1 1 0 ⟨1, 1⟩, .quantumExpired none 0, .jobFinished 1 1] t ∧
    t.sys.finished = [1] ∧ t.response 1 = 0 ∧ t.sys.sched.totalResponseTime = -1 ∧
    ¬ t.Accurate := by
  have htotals : (execute (Driver.call (Priqueue.insertion ℕ))
      (Driver.start .FCFS (fun _ ↦ ⟨0, 0, 0, 0, 0, 0, 0⟩) 0)
      [.newJob 1 1 0 ⟨1, 1⟩, .quantumExpired none 0, .jobFinished 1 1]).map
        (fun t ↦ (t.sys.finished, t.response 1, t.sys.sched.totalResponseTime)) =
      some ([1], 0, -1) := by decide +kernel
  obtain ⟨t, hexec, hfields⟩ := Option.map_eq_some_iff.mp htotals
  simp only [Prod.mk.injEq] at hfields
  obtain ⟨hfinished, hresponse, htotal⟩ := hfields
  refine ⟨t, Run.execute_eq_some_iff.mp hexec, hfinished, hresponse, htotal, ?_⟩
  intro hacc
  have htrue := hacc.response
  rw [htotal, hfinished, List.map_singleton, List.sum_singleton, hresponse] at htrue
  norm_num at htrue

end Driver

end SystemProgramming.SavvyScheduler
