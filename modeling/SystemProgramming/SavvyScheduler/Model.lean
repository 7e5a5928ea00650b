import SystemProgramming.Lib.Runs

/-!
# The scheduler library

`libscheduler.c`: the six comparers, the ready queue and the three calls that the
thread library makes.  Jobs are pointers; the record behind `job->metadata` is
shared by every reference to the job, so a sort key may change while the job is
queued.  Times are exact rationals.
-/

namespace SystemProgramming.SavvyScheduler

/-- `scheme_t` -/
inductive Scheme
  | FCFS | PRI | PPRI | PSRTF | RR | SJF
  deriving DecidableEq, Repr

/-- `scheduler_info`, the data a new job comes with. -/
structure SchedulerInfo where
  runningTime : ℚ
  priority : ℚ
  deriving DecidableEq, Repr

/-- `job_info` -/
structure JobInfo where
  id : ℤ
  arrivalTime : ℚ
  priority : ℚ
  remainingTime : ℚ
  recentExecutionTime : ℚ
  runTime : ℚ
  startTime : ℚ
  deriving DecidableEq, Repr

/-! ## Comparers -/

def comparerFcfs (jobA jobB : JobInfo) : ℤ :=
  if jobA.arrivalTime < jobB.arrivalTime then -1
  else if jobA.arrivalTime > jobB.arrivalTime then 1
  else 0

def breakTie (a b : JobInfo) : ℤ := comparerFcfs a b

/-- The shape shared by the other comparers: one field decides, and ties go to
the job that arrived first. -/
def compareBy (key : JobInfo → ℚ) (jobA jobB : JobInfo) : ℤ :=
  if key jobA < key jobB then -1
  else if key jobA > key jobB then 1
  else breakTie jobA jobB

def comparerPri : JobInfo → JobInfo → ℤ := compareBy JobInfo.priority

def comparerPpri (a b : JobInfo) : ℤ := comparerPri a b

def comparerPsrtf : JobInfo → JobInfo → ℤ := compareBy JobInfo.remainingTime

def comparerRr : JobInfo → JobInfo → ℤ := compareBy JobInfo.recentExecutionTime

def comparerSjf : JobInfo → JobInfo → ℤ := compareBy JobInfo.remainingTime

/-- The assignment of `comparision_func` in `scheduler_start_up`. -/
def Scheme.comparisionFunc : Scheme → JobInfo → JobInfo → ℤ
  | .FCFS => comparerFcfs
  | .PRI => comparerPri
  | .PPRI => comparerPpri
  | .PSRTF => comparerPsrtf
  | .RR => comparerRr
  | .SJF => comparerSjf

/-- The schemes under which `scheduler_quantum_expired` rotates the queue. -/
def Scheme.preemptive : Scheme → Bool
  | .PPRI | .PSRTF | .RR => true
  | .FCFS | .PRI | .SJF => false

/-! ## The priority queue

`libpriqueue` is not part of the repository.  The scheduler relies on a list whose
head is peeked and polled, and on `offer` inserting before the first queued job
that compares greater than the offered one. -/

variable {Job : Type*}

structure Priqueue (Job : Type*) where
  offer : (Job → Job → ℤ) → List Job → Job → List Job
  offer_spec : ∀ cmp queue job, ∃ before after, queue = before ++ after ∧
    offer cmp queue job = before ++ job :: after ∧
      (∀ other ∈ before, 0 ≤ cmp job other) ∧
        ∀ other ∈ after.head?, cmp job other < 0

def priqueuePeek (queue : List Job) : Option Job := queue.head?

def priqueuePoll (queue : List Job) : Option Job × List Job := (queue.head?, queue.tail)

/-- The insertion loop as the library's interface describes it. -/
def insertBefore (cmp : Job → Job → ℤ) : List Job → Job → List Job
  | [], job => [job]
  | other :: queue, job =>
      if cmp job other < 0 then job :: other :: queue
      else other :: insertBefore cmp queue job

def Priqueue.insertion (Job : Type*) : Priqueue Job where
  offer := insertBefore
  offer_spec := by
    intro cmp queue job
    induction queue with
    | nil => exact ⟨[], [], rfl, rfl, by simp, by simp⟩
    | cons other queue ih =>
        by_cases hlt : cmp job other < 0
        · exact ⟨[], other :: queue, rfl, by simp [insertBefore, hlt], by simp, by simpa using hlt⟩
        · obtain ⟨before, after, hqueue, hoffer, hbefore, hafter⟩ := ih
          refine ⟨other :: before, after, by simp [hqueue], ?_, ?_, hafter⟩
          · simp [insertBefore, hlt, hoffer]
          · intro x hx
            rcases List.mem_cons.mp hx with rfl | hx
            · exact not_lt.mp hlt
            · exact hbefore x hx

/-! ## The library's globals and calls -/

structure Scheduler (Job : Type*) where
  pqueueScheme : Scheme
  pqueue : List Job
  metadata : Job → JobInfo
  totalTurnaroundTime : ℚ
  totalWaitingTime : ℚ
  totalResponseTime : ℚ
  numJob : ℕ

/-- `scheduler_start_up`; the jobs' metadata is not initialised by it. -/
def schedulerStartUp (s : Scheme) (metadata : Job → JobInfo) : Scheduler Job where
  pqueueScheme := s
  pqueue := []
  metadata := metadata
  totalTurnaroundTime := 0
  totalWaitingTime := 0
  totalResponseTime := 0
  numJob := 0

namespace Scheduler

/-- The comparer on job pointers, through the metadata they point to now. -/
def compare (s : Scheduler Job) (a b : Job) : ℤ :=
  s.pqueueScheme.comparisionFunc (s.metadata a) (s.metadata b)

variable [DecidableEq Job] (P : Priqueue Job)

def priqueueOffer (s : Scheduler Job) (job : Job) : Scheduler Job :=
  { s with pqueue := P.offer s.compare s.pqueue job }

def setMetadata (s : Scheduler Job) (job : Job) (info : JobInfo) : Scheduler Job :=
  { s with metadata := Function.update s.metadata job info }

@[simp] theorem setMetadata_pqueue (s : Scheduler Job) (job : Job) (info : JobInfo) :
    (s.setMetadata job info).pqueue = s.pqueue := rfl

@[simp] theorem setMetadata_pqueueScheme (s : Scheduler Job) (job : Job) (info : JobInfo) :
    (s.setMetadata job info).pqueueScheme = s.pqueueScheme := rfl

def schedulerNewJob (s : Scheduler Job) (newjob : Job) (jobNumber : ℤ) (time : ℚ)
    (schedData : SchedulerInfo) : Scheduler Job :=
  (s.setMetadata newjob
    { id := jobNumber
      arrivalTime := time
      priority := schedData.priority
      remainingTime := schedData.runningTime
      recentExecutionTime := -1
      runTime := schedData.runningTime
      startTime := -1 }).priqueueOffer P newjob

/-- The bookkeeping at the top of `scheduler_quantum_expired`. -/
def chargeQuantum (info : JobInfo) (time : ℚ) : JobInfo :=
  { info with
    startTime := if info.startTime < 0 then time - 1 else info.startTime
    recentExecutionTime := time
    remainingTime := info.remainingTime - 1 }

/-- The polled job is offered back.  A queue without a job to poll has none to
offer; the evicted job being queued, this does not occur. -/
def rotate (s : Scheduler Job) : Scheduler Job :=
  match priqueuePoll s.pqueue with
  | (some cur, rest) => { s with pqueue := rest }.priqueueOffer P cur
  | (none, rest) => { s with pqueue := rest }

def schedulerQuantumExpired (s : Scheduler Job) (jobEvicted : Option Job) (time : ℚ) :
    Option Job × Scheduler Job :=
  match jobEvicted with
  | none => (priqueuePeek s.pqueue, s)
  | some job =>
      let charged := s.setMetadata job (chargeQuantum (s.metadata job) time)
      if s.pqueueScheme.preemptive then
        let rotated := charged.rotate P
        (priqueuePeek rotated.pqueue, rotated)
      else (some job, charged)

def schedulerJobFinished (s : Scheduler Job) (jobDone : Job) (time : ℚ) : Scheduler Job :=
  let info := s.metadata jobDone
  { s with
    totalWaitingTime := s.totalWaitingTime + (time - info.arrivalTime - info.runTime)
    totalTurnaroundTime := s.totalTurnaroundTime + (time - info.arrivalTime)
    totalResponseTime := s.totalResponseTime + (info.startTime - info.arrivalTime)
    numJob := s.numJob + 1
    pqueue := (priqueuePoll s.pqueue).2 }

end Scheduler

/-! ## The thread library driving the scheduler -/

inductive Call (Job : Type*)
  | newJob (job : Job) (jobNumber : ℤ) (time : ℚ) (schedData : SchedulerInfo)
  | quantumExpired (jobEvicted : Option Job) (time : ℚ)
  | jobFinished (jobDone : Job) (time : ℚ)

/-- The scheduler with what its caller knows: the jobs that arrived, those that
finished, and the job last handed out and not finished since. -/
structure Sys (Job : Type*) where
  sched : Scheduler Job
  arrived : List Job
  finished : List Job
  running : Option Job

def Sys.start (s : Scheme) (metadata : Job → JobInfo) : Sys Job where
  sched := schedulerStartUp s metadata
  arrived := []
  finished := []
  running := none

variable [DecidableEq Job] (P : Priqueue Job)

/-- One call, with the conditions the caller keeps: every job arrives once, and
only the running job is evicted or finished. -/
def Sys.call (s : Sys Job) : Call Job → Option (Sys Job)
  | .newJob job jobNumber time schedData =>
      if job ∈ s.arrived then none
      else some { s with
        sched := s.sched.schedulerNewJob P job jobNumber time schedData
        arrived := job :: s.arrived }
  | .quantumExpired jobEvicted time =>
      if jobEvicted = none ∨ jobEvicted = s.running then
        let result := s.sched.schedulerQuantumExpired P jobEvicted time
        some { s with sched := result.2, running := result.1 }
      else none
  | .jobFinished jobDone time =>
      if s.running = some jobDone then
        some { s with
          sched := s.sched.schedulerJobFinished jobDone time
          finished := jobDone :: s.finished
          running := none }
      else none

end SystemProgramming.SavvyScheduler
