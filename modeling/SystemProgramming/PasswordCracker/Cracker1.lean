import SystemProgramming.Lib.WorkerPool
import SystemProgramming.PasswordCracker.Utils

/-!
# The first cracker

Every worker takes a whole task from a queue. The lines of the input are pushed in front of a
single `NULL`, which each worker passes on before it leaves.
-/

namespace SystemProgramming.PasswordCracker.Cracker1

open WorkerPool (Phase Done Blocked)

/-- What the processing of a line ends with. `success` is counted for it if `counts` is set. -/
structure Outcome where
  username : Str
  password : Str
  hashCount : ℕ
  result : ℕ
  counts : Bool
deriving DecidableEq

/-- The loop over the candidates, at iteration `i` with `n` iterations left. Neither `i` nor
`hash_count` can go beyond `intMax`. -/
def crackLoop (u : Utils) (task : Task) : ℕ → ℕ → Str → Option Outcome
  | 0, i, pre => some ⟨task.username, pre, i, 1, false⟩
  | n + 1, i, pre =>
      if intMax ≤ i then none
      else if u.crypt pre = task.hash then some ⟨task.username, pre, i + 1, 0, true⟩
      else crackLoop u task n (i + 1) (u.incrementString pre)

def crack (u : Utils) (task : Task) : Option Outcome :=
  let prefixLen := u.getPrefixLength task.pre
  let totalLen := task.pre.length
  if prefixLen = totalLen then some ⟨task.username, task.pre, 0, 0, false⟩
  else
    crackLoop u task (26 ^ (totalLen - prefixLen)) 0
      (task.pre.take prefixLen ++ u.setStringPosition (task.pre.drop prefixLen) 0)

def process (u : Utils) (line : Str) : Option Outcome := (sscanf line).bind (crack u)

/-- What `v1_print_thread_result` is called with, for the task with number `task`. -/
structure Report where
  threadId : ℕ
  task : ℕ
  outcome : Outcome
deriving DecidableEq

/-- A task is a pointer to its line, and the pointer is the number of the line. `counted` tells
which workers have counted the task that they hold. -/
structure State where
  pool : WorkerPool.State ℕ
  counted : ℕ → Bool
  success : ℕ
  reports : List Report

inductive Event
  | pull (i : ℕ)
  | count (i : ℕ)
  | report (i : ℕ)
  | push (i : ℕ)
deriving DecidableEq

/-- All lines have been read, as `fgets` gives them, and the workers are created. -/
def init (lines : List Str) : State :=
  ⟨WorkerPool.init (List.range lines.length), fun _ ↦ false, 0, []⟩

section

variable (processLine : Str → Option Outcome) (lines : List Str) (threadCount : ℕ)

def outcome (task : ℕ) : Option Outcome := lines[task]?.bind processLine

/-- `success` is incremented, with the mutex held. -/
def count (s : State) (i : ℕ) : Option State :=
  match s.pool.worker i with
  | .holding task =>
      (outcome processLine lines task).bind fun o ↦
        if o.counts ∧ s.counted i = false then
          some { s with success := s.success + 1, counted := Function.update s.counted i true }
        else none
  | _ => none

def report (s : State) (i : ℕ) : Option State :=
  match s.pool.worker i with
  | .holding task =>
      (outcome processLine lines task).bind fun o ↦
        if o.counts = s.counted i then
          (WorkerPool.step threadCount s.pool (.finish i)).map fun pool ↦
            { s with
              pool := pool
              counted := Function.update s.counted i false
              reports := s.reports ++ [⟨i + 1, task, o⟩] }
        else none
  | _ => none

def step (s : State) : Event → Option State
  | .pull i => (WorkerPool.step threadCount s.pool (.pull i)).map fun pool ↦ { s with pool := pool }
  | .count i => if i < threadCount then count processLine lines s i else none
  | .report i => report processLine lines threadCount s i
  | .push i => (WorkerPool.step threadCount s.pool (.push i)).map fun pool ↦ { s with pool := pool }

/-- The numbers that are given to `v1_print_summary`. A larger number of tasks has overflowed. -/
def summary (s : State) : Option (ℤ × ℤ) :=
  if lines.length ≤ intMax then some (s.success, (lines.length : ℤ) - s.success) else none

end

variable {processLine : Str → Option Outcome} {lines : List Str} {threadCount : ℕ} {s t : State}
  {e : Event} {es : List Event}

/-- Everything that a step can do: the workers move as in a pool, apart from the counting. -/
theorem step_cases (h : step processLine lines threadCount s e = some t) :
    (∃ e' pool, (∀ i, e' ≠ .finish i) ∧ WorkerPool.step threadCount s.pool e' = some pool ∧
        t = { s with pool := pool }) ∨
      (∃ i task o, i < threadCount ∧ s.pool.worker i = .holding task ∧
        outcome processLine lines task = some o ∧ o.counts = true ∧ s.counted i = false ∧
        t = { s with success := s.success + 1, counted := Function.update s.counted i true }) ∨
      ∃ i task o pool, i < threadCount ∧ s.pool.worker i = .holding task ∧
        outcome processLine lines task = some o ∧ o.counts = s.counted i ∧
        WorkerPool.step threadCount s.pool (.finish i) = some pool ∧
        t = { s with
          pool := pool
          counted := Function.update s.counted i false
          reports := s.reports ++ [⟨i + 1, task, o⟩] } := by
  cases e with
  | pull i =>
      obtain ⟨pool, hpool, rfl⟩ := Option.map_eq_some_iff.mp h
      exact .inl ⟨.pull i, pool, by simp, hpool, rfl⟩
  | push i =>
      obtain ⟨pool, hpool, rfl⟩ := Option.map_eq_some_iff.mp h
      exact .inl ⟨.push i, pool, by simp, hpool, rfl⟩
  | count i =>
      rw [step, Option.ite_none_right_eq_some] at h
      obtain ⟨hi, h⟩ := h
      unfold count at h
      split at h
      · next task hholding =>
        obtain ⟨o, ho, hif⟩ := Option.bind_eq_some_iff.mp h
        rw [Option.ite_none_right_eq_some] at hif
        obtain ⟨⟨hcounts, hcounted⟩, ht⟩ := hif
        exact .inr (.inl ⟨i, task, o, hi, hholding, ho, hcounts, hcounted,
          (Option.some.inj ht).symm⟩)
      · exact absurd h (by simp)
  | report i =>
      rw [step] at h
      unfold report at h
      split at h
      · next task hholding =>
        obtain ⟨o, ho, hif⟩ := Option.bind_eq_some_iff.mp h
        rw [Option.ite_none_right_eq_some] at hif
        obtain ⟨hcounts, hmap⟩ := hif
        obtain ⟨pool, hpool, rfl⟩ := Option.map_eq_some_iff.mp hmap
        have hi : i < threadCount := (Option.ite_none_right_eq_some.mp hpool).1
        exact .inr (.inr ⟨i, task, o, pool, hi, hholding, ho, hcounts, hpool, rfl⟩)
      · exact absurd h (by simp)

/-- The relation between the reports, the counter and the workers. -/
structure Inv (processLine : Str → Option Outcome) (lines : List Str) (threadCount : ℕ)
    (s : State) : Prop where
  pool : WorkerPool.Inv threadCount (List.range lines.length) s.pool
  finished_eq : s.reports.map (fun r ↦ (r.threadId, r.task)) =
    s.pool.finished.map fun p ↦ (p.1 + 1, p.2)
  outcome_eq : ∀ r ∈ s.reports, outcome processLine lines r.task = some r.outcome
  counted_spec : ∀ i, s.counted i = true → ∃ task o,
    s.pool.worker i = .holding task ∧ outcome processLine lines task = some o ∧ o.counts = true
  success_eq : s.success = s.reports.countP (·.outcome.counts) +
    ∑ i ∈ Finset.range threadCount, (s.counted i).toNat

theorem inv_init : Inv processLine lines threadCount (init lines) := by
  refine ⟨WorkerPool.inv_init, ?_, ?_, ?_, ?_⟩ <;> simp [init, WorkerPool.init]

theorem Inv.step (h : Inv processLine lines threadCount s)
    (hstep : Cracker1.step processLine lines threadCount s e = some t) :
    Inv processLine lines threadCount t := by
  obtain ⟨e', pool, hne, hpool, rfl⟩ | ⟨i, task, o, hi, hholding, ho, hcounts, hcounted, rfl⟩ |
    ⟨i, task, o, pool, hi, hholding, ho, hcounts, hpool, rfl⟩ := step_cases hstep
  · refine ⟨h.pool.step hpool, ?_, h.outcome_eq, ?_, h.success_eq⟩
    · rw [WorkerPool.finished_of_step hpool hne]
      exact h.finished_eq
    · intro i hi
      obtain ⟨task, o, hholding, ho⟩ := h.counted_spec i hi
      exact ⟨task, o, WorkerPool.holding_of_step hpool hne hholding, ho⟩
  · refine ⟨h.pool, h.finished_eq, h.outcome_eq, ?_, ?_⟩
    · intro j hj
      rcases eq_or_ne j i with rfl | hji
      · exact ⟨task, o, hholding, ho, hcounts⟩
      · exact h.counted_spec j (by simpa [hji] using hj)
    · have hsum := WorkerPool.sum_update (fun _ ↦ Bool.toNat) s.counted hi true
      simp only [hcounted, Bool.toNat_false, Bool.toNat_true, add_zero] at hsum
      rw [hsum, h.success_eq, add_assoc]
  · have hpool' := h.pool.step hpool
    rw [WorkerPool.step_finish hi hholding] at hpool
    obtain rfl := Option.some.inj hpool
    refine ⟨hpool', ?_, ?_, ?_, ?_⟩
    · rw [List.map_append, List.map_append, h.finished_eq]
      rfl
    · intro r hr
      rcases List.mem_append.mp hr with hr | hr
      · exact h.outcome_eq r hr
      · obtain rfl := List.mem_singleton.mp hr
        exact ho
    · intro j hj
      rcases eq_or_ne j i with rfl | hji
      · simp at hj
      · obtain ⟨task', o', hholding', ho'⟩ := h.counted_spec j (by simpa [hji] using hj)
        exact ⟨task', o', by simpa [hji] using hholding', ho'⟩
    · have hsum := WorkerPool.sum_update (fun _ ↦ Bool.toNat) s.counted hi false
      simp only [← hcounts, Bool.toNat_false, add_zero] at hsum
      simp only [List.countP_append, List.countP_singleton, h.success_eq, ← hsum]
      cases o.counts <;> simp
      omega

theorem inv_of_run (hrun : Run (StepOf (step processLine lines threadCount)) (init lines) es s) :
    Inv processLine lines threadCount s :=
  hrun.invariant (fun _ _ _ h hstep ↦ h.step hstep) inv_init

/-! ## The end -/

def remaining (threadCount : ℕ) (s : State) : ℕ :=
  2 * WorkerPool.remaining threadCount s.pool +
    ∑ i ∈ Finset.range threadCount, (!s.counted i).toNat

theorem remaining_init : remaining threadCount (init lines) =
    4 * lines.length + 5 * threadCount := by
  rw [remaining, init, WorkerPool.remaining_init]
  simp
  omega

theorem remaining_lt (h : step processLine lines threadCount s e = some t) :
    remaining threadCount t < remaining threadCount s := by
  obtain ⟨e', pool, -, hpool, rfl⟩ | ⟨i, task, o, hi, -, -, -, hcounted, rfl⟩ |
    ⟨i, task, o, pool, hi, -, -, -, hpool, rfl⟩ := step_cases h
  · have hlt := WorkerPool.remaining_lt hpool
    simp only [remaining]
    omega
  · have hsum := WorkerPool.sum_update (fun _ b ↦ (!b).toNat) s.counted hi true
    simp only [hcounted, Bool.not_false, Bool.not_true, Bool.toNat_false, Bool.toNat_true] at hsum
    simp only [remaining]
    omega
  · have hlt := WorkerPool.remaining_lt hpool
    have hsum := WorkerPool.sum_update (fun _ b ↦ (!b).toNat) s.counted hi false
    simp only [Bool.not_false, Bool.toNat_true] at hsum
    simp only [remaining]
    omega

/-- As long as a worker has not left, a worker can take a step. -/
theorem exists_step (hends : ∀ line ∈ lines, (processLine line).isSome)
    (h : Inv processLine lines threadCount s) (hdone : ¬ Done threadCount s.pool) :
    ∃ e t, step processLine lines threadCount s e = some t := by
  obtain ⟨i, hi, ⟨task, hholding⟩ | hpassing | ⟨hpulling, hqueue⟩⟩ := h.pool.exists_event hdone
  · obtain ⟨o, ho⟩ : ∃ o, outcome processLine lines task = some o := by
      have hlt := List.mem_range.mp (h.pool.holding_mem hi hholding)
      apply Option.isSome_iff_exists.mp
      simpa [outcome, hlt] using hends lines[task] (List.getElem_mem hlt)
    by_cases hcount : o.counts = s.counted i
    · refine ⟨.report i, ?_⟩
      simp [step, report, hholding, ho, hcount, WorkerPool.step_finish hi hholding]
    · have hcounted : s.counted i = false := by
        by_contra htrue
        obtain ⟨task', o', hholding', ho', hcounts⟩ := h.counted_spec i (by simpa using htrue)
        obtain rfl : task = task' := by simpa [hholding] using hholding'
        obtain rfl : o = o' := Option.some.inj (ho.symm.trans ho')
        simp [hcounts] at hcount
        simp [hcount] at htrue
      refine ⟨.count i, ?_⟩
      have hcounts : o.counts = true := by simpa [hcounted] using hcount
      simp [step, count, hi, hholding, ho, hcounts, hcounted]
  · obtain ⟨pool, hpool⟩ := WorkerPool.step_push hi hpassing
    refine ⟨.push i, ?_⟩
    simp [step, hpool]
  · obtain ⟨pool, hpool⟩ := WorkerPool.step_pull hi hpulling hqueue
    refine ⟨.pull i, ?_⟩
    simp [step, hpool]

/-- If every task ends, then so does every schedule. -/
theorem exists_done (hends : ∀ line ∈ lines, (processLine line).isSome)
    (hrun : Run (StepOf (step processLine lines threadCount)) (init lines) es s) :
    ∃ es' t, Run (StepOf (step processLine lines threadCount)) s es' t ∧
      Done threadCount t.pool := by
  have hI : ∀ s e t, Inv processLine lines threadCount s →
      StepOf (step processLine lines threadCount) s e t → Inv processLine lines threadCount t :=
    fun _ _ _ h hstep ↦ h.step hstep
  have hdec : ∀ s e t, Inv processLine lines threadCount s →
      StepOf (step processLine lines threadCount) s e t →
        remaining threadCount t < remaining threadCount s := fun _ _ _ _ hstep ↦ remaining_lt hstep
  apply Run.exists_final hI hdec _ (inv_of_run hrun)
  exact fun s h hdone ↦ exists_step hends h hdone

theorem length_le (hrun : Run (StepOf (step processLine lines threadCount)) (init lines) es s) :
    es.length ≤ 4 * lines.length + 5 * threadCount := by
  have hI : ∀ s e t, Inv processLine lines threadCount s →
      StepOf (step processLine lines threadCount) s e t → Inv processLine lines threadCount t :=
    fun _ _ _ h hstep ↦ h.step hstep
  have hdec : ∀ s e t, Inv processLine lines threadCount s →
      StepOf (step processLine lines threadCount) s e t →
        remaining threadCount t < remaining threadCount s := fun _ _ _ _ hstep ↦ remaining_lt hstep
  have hlength := hrun.length_le hI hdec inv_init
  rw [remaining_init] at hlength
  exact Nat.le_of_add_right_le hlength

/-- Each task is reported by the worker that took it, and the sentinel is back on the queue. -/
theorem Inv.of_done (h : Inv processLine lines threadCount s) (hcount : 1 ≤ threadCount)
    (hdone : Done threadCount s.pool) :
    s.pool.taken.map Prod.snd = List.range lines.length ∧
      (s.pool.taken.map fun p ↦ (p.1 + 1, p.2)).Perm
        (s.reports.map fun r ↦ (r.threadId, r.task)) ∧ s.pool.queue = [none] := by
  obtain ⟨htaken, hperm, hqueue⟩ := h.pool.of_done hcount hdone
  refine ⟨htaken, ?_, hqueue⟩
  rw [h.finished_eq]
  exact hperm.map _

/-- Tasks are taken one after the other, each by one worker, no state has only blocked workers
left, and every schedule ends with every task reported by the worker that took it, all workers
out of their loops and one sentinel on the queue. -/
theorem each_task_once (processLine : Str → Option Outcome) (lines : List Str) {threadCount : ℕ}
    (hcount : 1 ≤ threadCount) (hends : ∀ line ∈ lines, (processLine line).isSome) :
    ∀ es s, Run (StepOf (step processLine lines threadCount)) (init lines) es s →
      s.pool.taken.map Prod.snd <+: List.range lines.length ∧
        ¬ Blocked threadCount s.pool ∧
        es.length ≤ 4 * lines.length + 5 * threadCount ∧
        (∃ es' t, Run (StepOf (step processLine lines threadCount)) s es' t ∧
          Done threadCount t.pool) ∧
        (Done threadCount s.pool →
          s.pool.taken.map Prod.snd = List.range lines.length ∧
            (s.pool.taken.map fun p ↦ (p.1 + 1, p.2)).Perm
              (s.reports.map fun r ↦ (r.threadId, r.task)) ∧ s.pool.queue = [none]) := by
  intro es s hrun
  have h := inv_of_run hrun
  exact ⟨h.pool.taken_prefix, h.pool.not_blocked, length_le hrun, exists_done hends hrun,
    h.of_done hcount⟩

/-- Two workers and one task, of which the only letter is not known. -/
theorem each_task_once_two :
    process (base26 cryptOfA) "user xxKKTqMtVyyHI .".toList =
        some ⟨"user".toList, ['a'], 1, 0, true⟩ ∧
      ∀ es s, Run (StepOf (step (process (base26 cryptOfA)) ["user xxKKTqMtVyyHI .".toList] 2))
          (init ["user xxKKTqMtVyyHI .".toList]) es s →
        es.length ≤ 14 ∧ (Done 2 s.pool → s.pool.queue = [none]) := by
  have hprocess : process (base26 cryptOfA) "user xxKKTqMtVyyHI .".toList =
      some ⟨"user".toList, ['a'], 1, 0, true⟩ := by decide
  refine ⟨hprocess, fun es s hrun ↦ ?_⟩
  have hends : ∀ line ∈ ["user xxKKTqMtVyyHI .".toList],
      (process (base26 cryptOfA) line).isSome := by
    intro line hline
    rw [List.mem_singleton.mp hline, hprocess]
    rfl
  obtain ⟨-, -, hlength, -, hdone⟩ := each_task_once _ _ (by decide) hends es s hrun
  exact ⟨hlength, fun h ↦ (hdone h).2.2⟩

end SystemProgramming.PasswordCracker.Cracker1
