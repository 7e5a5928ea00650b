import SystemProgramming.Lib.Rotation
import SystemProgramming.SavvyScheduler.Statistics

/-!
# Round robin

Between two arrivals the ready queue of `RR` is a rotation: the evicted job has the latest
execution time, so it is offered behind all others.
-/

namespace SystemProgramming.SavvyScheduler

open Rotation

variable {Job : Type*}

namespace Call

def Arrives : Call Job → Prop
  | .newJob .. => True
  | _ => False

/-- The turn that a call ends. -/
def turn : Call Job → Option (Turn Job)
  | .newJob .. | .quantumExpired none _ => none
  | .quantumExpired (some job) _ => some (.back job)
  | .jobFinished job _ => some (.leave job)

end Call

variable [DecidableEq Job]

/-- The quanta that a job has been evicted from. -/
def quanta (job : Job) (calls : List (Call Job)) : ℕ :=
  calls.countP fun
    | .quantumExpired evicted _ => evicted = some job
    | _ => false

theorem quanta_eq_turnsOf (job : Job) (calls : List (Call Job)) :
    quanta job calls = turnsOf job (calls.filterMap Call.turn) := by
  induction calls with
  | nil => rfl
  | cons c calls ih =>
    rw [quanta] at ih ⊢
    rcases c with _ | ⟨_ | other, time⟩ | _ <;>
      simp [turnsOf, Call.turn, List.filterMap_cons, List.countP_cons, List.count_cons, ih]

namespace Driver

/-- What holds of the queue at all times: the jobs in it differ, and none has run later than
now. -/
structure InTime (d : Driver Job) : Prop where
  scheme : d.sys.sched.pqueueScheme = .RR
  nodup : d.sys.sched.pqueue.Nodup
  arrived : ∀ job ∈ d.sys.sched.pqueue, job ∈ d.sys.arrived
  recent_le : ∀ job ∈ d.sys.arrived, (d.sys.sched.metadata job).recentExecutionTime ≤ d.now
  now_nonneg : 0 ≤ d.now
  now_le : d.now ≤ d.last

/-- The job that runs is the head of the queue. -/
def AtHead (d : Driver Job) : Prop :=
  ∀ job, d.sys.running = some job → priqueuePeek d.sys.sched.pqueue = some job

variable {P : Priqueue Job} {d d' : Driver Job} {c : Call Job}

omit [DecidableEq Job] in
theorem InTime.start (metadata : Job → JobInfo) {time : ℚ} (htime : 0 ≤ time) :
    (Driver.start .RR metadata time).InTime where
  scheme := rfl
  nodup := List.nodup_nil
  arrived := by simp [Driver.start, Sys.start, schedulerStartUp]
  recent_le := by simp [Driver.start, Sys.start]
  now_nonneg := htime
  now_le := le_rfl

theorem InTime.newJob (h : d.InTime) {job : Job} {n : ℤ} {time : ℚ} {data : SchedulerInfo}
    (hfresh : job ∉ d.sys.arrived) (hlast : d.last ≤ time) :
    (d.note { d.sys with
      sched := d.sys.sched.schedulerNewJob P job n time data
      arrived := job :: d.sys.arrived } (.newJob job n time data)).InTime where
  scheme := h.scheme
  nodup := by
    have hperm := d.sys.sched.schedulerNewJob_pqueue_perm P job n time data
    apply hperm.nodup_iff.mpr
    exact h.nodup.cons fun hmem ↦ hfresh (h.arrived job hmem)
  arrived := by
    intro other hother
    have hperm := d.sys.sched.schedulerNewJob_pqueue_perm P job n time data
    rcases List.mem_cons.mp (hperm.mem_iff.mp hother) with rfl | hother
    · exact List.mem_cons_self
    · exact List.mem_cons_of_mem _ (h.arrived other hother)
  recent_le := by
    intro other hother
    have hnow := h.now_nonneg
    simp only [note, Scheduler.schedulerNewJob, Scheduler.priqueueOffer, Scheduler.setMetadata]
    rcases eq_or_ne other job with rfl | hne
    · simp only [Function.update_self]
      linarith
    · rw [Function.update_of_ne hne]
      exact h.recent_le other ((List.mem_cons.mp hother).resolve_left hne)
  now_nonneg := h.now_nonneg
  now_le := h.now_le.trans hlast

theorem InTime.quantumExpired (h : d.InTime) {evicted : Option Job} {time : ℚ}
    (hnow : d.now ≤ time) :
    (d.note { d.sys with
      sched := (d.sys.sched.schedulerQuantumExpired P evicted time).2
      running := (d.sys.sched.schedulerQuantumExpired P evicted time).1 }
        (.quantumExpired evicted time)).InTime where
  scheme := (Scheduler.quantumExpired_scheme P evicted time).trans h.scheme
  nodup :=
    (d.sys.sched.schedulerQuantumExpired_pqueue_perm P evicted time).nodup_iff.mpr h.nodup
  arrived := fun job hjob ↦ h.arrived job
    ((d.sys.sched.schedulerQuantumExpired_pqueue_perm P evicted time).mem_iff.mp hjob)
  recent_le := by
    intro job hjob
    obtain ⟨queue, heq⟩ := d.sys.sched.schedulerQuantumExpired_eq P evicted time
    simp only [note, heq]
    split
    · exact le_rfl
    · exact (h.recent_le job hjob).trans hnow
  now_nonneg := h.now_nonneg.trans hnow
  now_le := le_rfl

theorem InTime.jobFinished (h : d.InTime) {job : Job} {time : ℚ} (hnow : d.now ≤ time) :
    (d.note { d.sys with
      sched := d.sys.sched.schedulerJobFinished job time
      finished := job :: d.sys.finished
      running := none } (.jobFinished job time)).InTime where
  scheme := h.scheme
  nodup := h.nodup.sublist (List.tail_sublist _)
  arrived := fun other hother ↦ h.arrived other (List.mem_of_mem_tail hother)
  recent_le := fun other hother ↦ (h.recent_le other hother).trans hnow
  now_nonneg := h.now_nonneg.trans hnow
  now_le := le_rfl

theorem InTime.step (h : d.InTime) (hcall : d.call P c = some d') : d'.InTime := by
  obtain ⟨htimely, sys, hsys, rfl⟩ := call_cases hcall
  have hnow := h.now_le
  obtain ⟨job, n, time, data, rfl, hfresh, rfl⟩ | ⟨evicted, time, rfl, -, rfl⟩ |
    ⟨job, time, rfl, -, rfl⟩ := Sys.call_cases hsys
  · exact h.newJob hfresh htimely.1
  · apply h.quantumExpired
    cases evicted with
    | none => exact hnow.trans htimely.2.2
    | some job =>
      have htime : time = d.now + 1 := htimely
      linarith
  · exact h.jobFinished (hnow.trans htimely.2.2)

/-- A job that has run at `time`, after all others, is offered to the back. -/
theorem InTime.offer_charged (h : d.InTime) {job : Job} {rest : List Job} {time : ℚ}
    (hqueue : d.sys.sched.pqueue = job :: rest) (htime : d.now < time) :
    P.offer (d.sys.sched.charge job time).compare rest job = rest ++ [job] := by
  apply Priqueue.offer_eq_append
  intro other hother
  have hne : other ≠ job := by
    rintro rfl
    have hnodup := h.nodup
    rw [hqueue] at hnodup
    exact hnodup.notMem hother
  have hrecent : (d.sys.sched.metadata other).recentExecutionTime < time := by
    have hmem : other ∈ d.sys.sched.pqueue := by
      rw [hqueue]
      exact List.mem_cons_of_mem _ hother
    exact (h.recent_le other (h.arrived other hmem)).trans_lt htime
  have hlater : ¬ time < (d.sys.sched.metadata other).recentExecutionTime := hrecent.not_gt
  simp [Scheduler.compare, Scheduler.charge, Scheduler.setMetadata, h.scheme,
    Scheme.comparisionFunc, comparerRr, compareBy, Scheduler.chargeQuantum, hne, hlater, hrecent]

omit [DecidableEq Job] in
theorem priqueuePeek_eq_some {queue : List Job} {job : Job} (h : priqueuePeek queue = some job) :
    ∃ rest, queue = job :: rest :=
  ⟨queue.tail, (List.cons_head?_tail h).symm⟩

/-- A call that brings no job gives the head its turn. -/
theorem InTime.turn_step (h : d.InTime) (hhead : d.AtHead) (hcall : d.call P c = some d')
    (harrives : ¬ c.Arrives) :
    d'.AtHead ∧ ((c.turn = none ∧ d'.sys.sched.pqueue = d.sys.sched.pqueue) ∨
      ∃ turn, c.turn = some turn ∧ Rotation.Step d.sys.sched.pqueue turn d'.sys.sched.pqueue) := by
  obtain ⟨htimely, sys, hsys, rfl⟩ := call_cases hcall
  obtain ⟨job, n, time, data, rfl, -, -⟩ | ⟨evicted, time, rfl, hev, rfl⟩ |
    ⟨job, time, rfl, hrun, rfl⟩ := Sys.call_cases hsys
  · exact absurd trivial harrives
  · cases evicted with
    | none => exact ⟨fun job hjob ↦ hjob, .inl ⟨rfl, rfl⟩⟩
    | some job =>
      have hrunning : d.sys.running = some job := by
        simpa [eq_comm] using hev
      obtain ⟨rest, hqueue⟩ := priqueuePeek_eq_some (hhead job hrunning)
      have hpre : d.sys.sched.pqueueScheme.preemptive = true := by
        rw [h.scheme]
        rfl
      have htime : time = d.now + 1 := htimely
      have hrotate : (d.sys.sched.schedulerQuantumExpired P (some job) time).2.pqueue =
          rest ++ [job] := by
        rw [← h.offer_charged hqueue (by linarith : d.now < time)]
        simp only [Scheduler.schedulerQuantumExpired, hpre, if_true, Scheduler.rotate, priqueuePoll,
          Scheduler.setMetadata_pqueue, hqueue]
        rfl
      refine ⟨?_, .inr ⟨.back job, rfl, ?_⟩⟩
      · intro next hnext
        simpa only [note, Scheduler.schedulerQuantumExpired, hpre, if_true] using hnext
      · simp only [note, hrotate, hqueue]
        exact .back job rest
  · obtain ⟨rest, hqueue⟩ := priqueuePeek_eq_some (hhead job hrun)
    refine ⟨?_, .inr ⟨.leave job, rfl, ?_⟩⟩
    · rintro next ⟨⟩
    · simp only [note, Scheduler.schedulerJobFinished, priqueuePoll, hqueue, List.tail_cons]
      exact .leave job rest

/-- A stretch without arrivals is a run of the rotation. -/
theorem InTime.rotates {calls : List (Call Job)} (h : d.InTime) (hhead : d.AtHead)
    (hrun : Run (StepOf (Driver.call P)) d calls d') (harrives : ∀ c ∈ calls, ¬ c.Arrives) :
    d'.InTime ∧ d'.AtHead ∧
      Run Rotation.Step d.sys.sched.pqueue (calls.filterMap Call.turn) d'.sys.sched.pqueue := by
  induction hrun with
  | nil => exact ⟨h, hhead, .nil⟩
  | @snoc d₁ d₂ calls c _ hlast ih =>
    obtain ⟨h₁, hhead₁, hturns⟩ := ih fun c' hc' ↦ harrives c' (List.mem_append_left _ hc')
    have hnot : ¬ c.Arrives := harrives c (by simp)
    refine ⟨h₁.step hlast, ?_⟩
    rw [List.filterMap_append]
    obtain ⟨hhead₂, ⟨hnone, hqueue⟩ | ⟨turn, hsome, hstep⟩⟩ := h₁.turn_step hhead₁ hlast hnot
    · refine ⟨hhead₂, ?_⟩
      rw [hqueue]
      simpa [hnone] using hturns
    · refine ⟨hhead₂, ?_⟩
      simpa [hsome] using hturns.snoc hstep

/-- A preemptive quantum hands out the head. -/
theorem atHead_quantumExpired {evicted : Option Job} {time : ℚ} (h : d.InTime)
    (hcall : d.call P (.quantumExpired evicted time) = some d') : d'.AtHead := by
  obtain ⟨-, sys, hsys, rfl⟩ := call_cases hcall
  obtain ⟨job, n, time', data, heq, -⟩ | ⟨evicted', time', heq, -, rfl⟩ |
    ⟨job, time', heq, -⟩ := Sys.call_cases hsys
  · cases heq
  · have hpre : d.sys.sched.pqueueScheme.preemptive = true := by
      rw [h.scheme]
      rfl
    intro job hjob
    cases evicted' with
    | none => exact hjob
    | some old => simpa only [note, Scheduler.schedulerQuantumExpired, hpre, if_true] using hjob
  · cases heq

/-- Round robin is fair: from a quantum up to the next arrival, the jobs take their turns in the
order of the queue, and no queued job gets more than one quantum more than another. -/
theorem roundRobin_fair (P : Priqueue Job) (metadata : Job → JobInfo) {time expired : ℚ}
    {evicted : Option Job} {before calls : List (Call Job)} (htime : 0 ≤ time)
    (hbefore : Run (StepOf (Driver.call P)) (Driver.start .RR metadata time)
      (before ++ [.quantumExpired evicted expired]) d)
    (hrun : Run (StepOf (Driver.call P)) d calls d') (harrives : ∀ c ∈ calls, ¬ c.Arrives) :
    Run Rotation.Step d.sys.sched.pqueue (calls.filterMap Call.turn) d'.sys.sched.pqueue ∧
      (∀ a ∈ d'.sys.sched.pqueue, ∀ b ∈ d'.sys.sched.pqueue, quanta a calls ≤ quanta b calls + 1) ∧
      ((calls.filterMap Call.turn).length ≤ d.sys.sched.pqueue.length →
        (calls.filterMap Call.turn).map Turn.who =
          d.sys.sched.pqueue.take (calls.filterMap Call.turn).length) := by
  obtain ⟨d₀, hrun₀, hlast⟩ := Run.snoc_iff.mp hbefore
  have h₀ : d₀.InTime := hrun₀.invariant (fun _ _ _ h hcall ↦ h.step hcall)
    (InTime.start metadata htime)
  have h : d.InTime := h₀.step hlast
  obtain ⟨-, -, hturns⟩ := h.rotates (atHead_quantumExpired h₀ hlast) hrun harrives
  refine ⟨hturns, ?_, ?_⟩
  · intro a ha b hb
    rw [quanta_eq_turnsOf, quanta_eq_turnsOf]
    exact turnsOf_le h.nodup hturns ha hb
  · intro hlength
    obtain ⟨-, -, hserved⟩ := exists_append_of_length_le hturns hlength
    exact hserved

/-- Job 1 runs before job 2 and finishes in its second quantum. -/
theorem roundRobin_fair_two : ∃ d d' : Driver ℕ, d.sys.sched.pqueue = [1, 2] ∧
    d'.sys.sched.pqueue = [2] ∧ Run Rotation.Step d.sys.sched.pqueue
      [.back 1, .back 2, .leave 1] d'.sys.sched.pqueue := by
  let before : List (Call ℕ) := [.newJob 1 1 0 ⟨10, 1⟩, .newJob 2 2 0 ⟨10, 1⟩]
  let calls : List (Call ℕ) := [.quantumExpired (some 1) 1, .quantumExpired (some 2) 2,
    .jobFinished 1 3]
  let start : Driver ℕ := .start .RR (fun _ ↦ ⟨0, 0, 0, 0, 0, 0, 0⟩) 0
  let f := Driver.call (Priqueue.insertion ℕ)
  have hqueues : (execute f start (before ++ [.quantumExpired none 0])).bind (fun d ↦
      (execute f d calls).map fun d' ↦ (d.sys.sched.pqueue, d'.sys.sched.pqueue)) =
      some ([1, 2], [2]) := by decide +kernel
  obtain ⟨d, hbefore, hqueues⟩ := Option.bind_eq_some_iff.mp hqueues
  obtain ⟨d', hrun, hqueues⟩ := Option.map_eq_some_iff.mp hqueues
  obtain ⟨hqueue, hqueue'⟩ := Prod.mk.inj hqueues
  obtain ⟨hturns, -⟩ := roundRobin_fair (Priqueue.insertion ℕ) _ le_rfl
    (Run.execute_eq_some_iff.mp hbefore) (Run.execute_eq_some_iff.mp hrun)
    (by simp [calls, Call.Arrives])
  exact ⟨d, d', hqueue, hqueue', hturns⟩

end Driver

end SystemProgramming.SavvyScheduler
