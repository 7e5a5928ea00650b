import SystemProgramming.Lib.Termination

/-!
# A pool of workers on a queue with one sentinel

Workers pull tasks from a first-in first-out queue, on which a pull blocks while it is empty.
Behind the tasks there is a single sentinel. The worker that pulls it puts it back and leaves.
-/

namespace SystemProgramming.WorkerPool

variable {τ : Type*}

inductive Phase (τ : Type*)
  | pulling
  | holding (task : τ)
  | passing
  | left
deriving DecidableEq

/-- `none` is the sentinel. `taken` and `finished` record which worker took and finished what. -/
structure State (τ : Type*) where
  queue : List (Option τ)
  worker : ℕ → Phase τ
  taken : List (ℕ × τ)
  finished : List (ℕ × τ)

inductive Event
  | pull (i : ℕ)
  | finish (i : ℕ)
  | push (i : ℕ)
deriving DecidableEq

def init (tasks : List τ) : State τ :=
  ⟨tasks.map some ++ [none], fun _ ↦ .pulling, [], []⟩

def State.setWorker (s : State τ) (i : ℕ) (phase : Phase τ) : State τ :=
  { s with worker := Function.update s.worker i phase }

def pull (s : State τ) (i : ℕ) : Option (State τ) :=
  match s.worker i, s.queue with
  | .pulling, some task :: queue =>
      some { s.setWorker i (.holding task) with queue := queue, taken := s.taken ++ [(i, task)] }
  | .pulling, none :: queue => some { s.setWorker i .passing with queue := queue }
  | _, _ => none

def finish (s : State τ) (i : ℕ) : Option (State τ) :=
  match s.worker i with
  | .holding task => some { s.setWorker i .pulling with finished := s.finished ++ [(i, task)] }
  | _ => none

def push (s : State τ) (i : ℕ) : Option (State τ) :=
  match s.worker i with
  | .passing => some { s.setWorker i .left with queue := s.queue ++ [none] }
  | _ => none

def step (workers : ℕ) (s : State τ) : Event → Option (State τ)
  | .pull i => if i < workers then pull s i else none
  | .finish i => if i < workers then finish s i else none
  | .push i => if i < workers then push s i else none

/-- Every worker has left. -/
def Done (workers : ℕ) (s : State τ) : Prop := ∀ i < workers, s.worker i = .left

/-- Workers that have not left are all blocked in a pull. -/
def Blocked (workers : ℕ) (s : State τ) : Prop :=
  s.queue = [] ∧ (∃ i < workers, s.worker i = .pulling) ∧
    ∀ i < workers, s.worker i = .pulling ∨ s.worker i = .left

variable {workers : ℕ} {tasks : List τ} {s t : State τ} {e : Event} {es : List Event}

/-- Everything that a step can do. -/
theorem step_cases (h : step workers s e = some t) :
    (∃ i task queue, e = .pull i ∧ i < workers ∧ s.worker i = .pulling ∧
        s.queue = some task :: queue ∧
        t = ⟨queue, Function.update s.worker i (.holding task), s.taken ++ [(i, task)],
          s.finished⟩) ∨
      (∃ i queue, e = .pull i ∧ i < workers ∧ s.worker i = .pulling ∧ s.queue = none :: queue ∧
        t = ⟨queue, Function.update s.worker i .passing, s.taken, s.finished⟩) ∨
      (∃ i task, e = .finish i ∧ i < workers ∧ s.worker i = .holding task ∧
        t = ⟨s.queue, Function.update s.worker i .pulling, s.taken, s.finished ++ [(i, task)]⟩) ∨
      ∃ i, e = .push i ∧ i < workers ∧ s.worker i = .passing ∧
        t = ⟨s.queue ++ [none], Function.update s.worker i .left, s.taken, s.finished⟩ := by
  cases e with
  | pull i =>
      rw [step, Option.ite_none_right_eq_some] at h
      obtain ⟨hi, h⟩ := h
      unfold pull at h
      split at h
      · next hpulling hqueue =>
        exact .inl ⟨i, _, _, rfl, hi, hpulling, hqueue, (Option.some.inj h).symm⟩
      · next hpulling hqueue =>
        exact .inr (.inl ⟨i, _, rfl, hi, hpulling, hqueue, (Option.some.inj h).symm⟩)
      · exact absurd h (by simp)
  | finish i =>
      rw [step, Option.ite_none_right_eq_some] at h
      obtain ⟨hi, h⟩ := h
      unfold finish at h
      split at h
      · next hholding =>
        exact .inr (.inr (.inl ⟨i, _, rfl, hi, hholding, (Option.some.inj h).symm⟩))
      · exact absurd h (by simp)
  | push i =>
      rw [step, Option.ite_none_right_eq_some] at h
      obtain ⟨hi, h⟩ := h
      unfold push at h
      split at h
      · next hpassing =>
        exact .inr (.inr (.inr ⟨i, rfl, hi, hpassing, (Option.some.inj h).symm⟩))
      · exact absurd h (by simp)

theorem step_finish {i : ℕ} {task : τ} (hi : i < workers) (h : s.worker i = .holding task) :
    step workers s (.finish i) = some
      ⟨s.queue, Function.update s.worker i .pulling, s.taken, s.finished ++ [(i, task)]⟩ := by
  simp [step, hi, finish, h, State.setWorker]

theorem step_push {i : ℕ} (hi : i < workers) (h : s.worker i = .passing) :
    ∃ t, step workers s (.push i) = some t := by
  simp [step, hi, push, h]

theorem step_pull {i : ℕ} (hi : i < workers) (h : s.worker i = .pulling) (hqueue : s.queue ≠ []) :
    ∃ t, step workers s (.pull i) = some t := by
  obtain ⟨task, queue, hcons⟩ := List.exists_cons_of_ne_nil hqueue
  cases task with
  | none => simp [step, hi, pull, h, hcons]
  | some task => simp [step, hi, pull, h, hcons]

/-- A worker keeps its task until it finishes it. -/
theorem holding_of_step (h : step workers s e = some t) (hne : ∀ i, e ≠ .finish i) {i : ℕ} {task : τ}
    (hi : s.worker i = .holding task) : t.worker i = .holding task := by
  obtain ⟨j, task', queue, rfl, -, hphase, -, rfl⟩ | ⟨j, queue, rfl, -, hphase, -, rfl⟩ |
    ⟨j, task', rfl, -, -, rfl⟩ | ⟨j, rfl, -, hphase, rfl⟩ := step_cases h
  · have hij : i ≠ j := fun hij ↦ by simp [← hij, hi] at hphase
    simpa [hij] using hi
  · have hij : i ≠ j := fun hij ↦ by simp [← hij, hi] at hphase
    simpa [hij] using hi
  · exact absurd rfl (hne j)
  · have hij : i ≠ j := fun hij ↦ by simp [← hij, hi] at hphase
    simpa [hij] using hi

theorem finished_of_step (h : step workers s e = some t) (hne : ∀ i, e ≠ .finish i) :
    t.finished = s.finished := by
  obtain ⟨j, task', queue, rfl, -, -, -, rfl⟩ | ⟨j, queue, rfl, -, -, -, rfl⟩ |
    ⟨j, task', rfl, -, -, rfl⟩ | ⟨j, rfl, -, -, rfl⟩ := step_cases h
  · rfl
  · rfl
  · exact absurd rfl (hne j)
  · rfl

/-! ## Sums over the workers -/

theorem sum_update {β M : Type*} [AddCommMonoid M] (weight : ℕ → β → M) (f : ℕ → β) {i : ℕ}
    (hi : i < workers) (b : β) :
    (∑ j ∈ Finset.range workers, weight j (Function.update f i b j)) + weight i (f i) =
      (∑ j ∈ Finset.range workers, weight j (f j)) + weight i b := by
  have hmem := Finset.mem_range.mpr hi
  have hrest : ∑ j ∈ (Finset.range workers).erase i, weight j (Function.update f i b j) =
      ∑ j ∈ (Finset.range workers).erase i, weight j (f j) := by
    apply Finset.sum_congr rfl
    intro j hj
    rw [Function.update_of_ne (Finset.ne_of_mem_erase hj)]
  rw [← Finset.add_sum_erase _ _ hmem, ← Finset.add_sum_erase _ (fun j ↦ weight j (f j)) hmem,
    hrest, Function.update_self]
  abel

/-- What worker `i` holds. -/
def held (i : ℕ) : Phase τ → Multiset (ℕ × τ)
  | .holding task => {(i, task)}
  | .pulling => 0
  | .passing => 0
  | .left => 0

/-! ## The invariant -/

/-- The sentinel is behind the tasks that are left, or one worker has it and there are none. -/
structure Inv (workers : ℕ) (tasks : List τ) (s : State τ) : Prop where
  queue_eq : ∃ rest, tasks = s.taken.map Prod.snd ++ rest ∧
    ((s.queue = rest.map some ++ [none] ∧ ∀ i < workers, s.worker i ≠ .passing) ∨
      (s.queue = [] ∧ rest = [] ∧
        ∃ i < workers, s.worker i = .passing ∧ ∀ j < workers, s.worker j = .passing → j = i))
  all_taken : ∀ i < workers, s.worker i = .left → tasks = s.taken.map Prod.snd
  taken_eq : (s.taken : Multiset (ℕ × τ)) =
    s.finished + ∑ i ∈ Finset.range workers, held i (s.worker i)

theorem inv_init : Inv workers tasks (init tasks) := by
  refine ⟨⟨tasks, by simp [init], .inl ⟨rfl, by simp [init]⟩⟩, by simp [init], ?_⟩
  simp [init, held]

theorem update_ne_passing {worker : ℕ → Phase τ} {i : ℕ} {phase : Phase τ}
    (hphase : phase ≠ .passing) (h : ∀ j < workers, worker j ≠ .passing) :
    ∀ j < workers, Function.update worker i phase j ≠ .passing := by
  intro j hj
  rcases eq_or_ne j i with rfl | hne
  · rwa [Function.update_self]
  · rw [Function.update_of_ne hne]
    exact h j hj

/-- Another worker has the sentinel, and that is not changed. -/
theorem unique_passing_update {worker : ℕ → Phase τ} {i : ℕ} {phase : Phase τ}
    (hphase : phase ≠ .passing) (hi : worker i ≠ .passing)
    (h : ∃ k < workers, worker k = .passing ∧ ∀ j < workers, worker j = .passing → j = k) :
    ∃ k < workers, Function.update worker i phase k = .passing ∧
      ∀ j < workers, Function.update worker i phase j = .passing → j = k := by
  obtain ⟨k, hk, hpassing, hunique⟩ := h
  have hne : k ≠ i := by
    rintro rfl
    exact hi hpassing
  refine ⟨k, hk, by rwa [Function.update_of_ne hne], fun j hj hupdate ↦ ?_⟩
  apply hunique j hj
  rcases eq_or_ne j i with rfl | hji
  · rw [Function.update_self] at hupdate
    exact absurd hupdate hphase
  · rwa [Function.update_of_ne hji] at hupdate

theorem Inv.step (h : Inv workers tasks s) (hstep : WorkerPool.step workers s e = some t) :
    Inv workers tasks t := by
  obtain ⟨rest, htasks, hqueue⟩ := h.queue_eq
  obtain ⟨i, task, queue, rfl, hi, hpulling, hhead, rfl⟩ |
    ⟨i, queue, rfl, hi, hpulling, hhead, rfl⟩ | ⟨i, task, rfl, hi, hholding, rfl⟩ |
    ⟨i, rfl, hi, hpassing, rfl⟩ := step_cases hstep
  · -- a task is pulled, so there was one left
    obtain ⟨hqueue, hnone⟩ | ⟨hqueue, -⟩ := hqueue
    swap
    · simp [hhead] at hqueue
    cases rest with
    | nil => simp [hhead] at hqueue
    | cons task' rest =>
        obtain ⟨rfl, rfl⟩ : task = task' ∧ queue = rest.map some ++ [none] := by
          simpa [hhead] using hqueue
        refine ⟨⟨rest, by simpa using htasks, .inl ⟨rfl, ?_⟩⟩, ?_, ?_⟩
        · exact update_ne_passing (by simp) hnone
        · intro j hj hleft
          rcases eq_or_ne j i with rfl | hne
          · simp at hleft
          · have hall := h.all_taken j hj (by simpa [hne] using hleft)
            simp [hall] at htasks
        · have hsum := sum_update held s.worker hi (.holding task)
          rw [hpulling, held, held, add_zero] at hsum
          simp only [hsum, ← Multiset.coe_add, h.taken_eq, Multiset.coe_singleton]
          abel
  · -- the sentinel is pulled, so nothing was left
    obtain ⟨hqueue, hnone⟩ | ⟨hqueue, -⟩ := hqueue
    swap
    · simp [hhead] at hqueue
    cases rest with
    | cons task' rest => simp [hhead] at hqueue
    | nil =>
        obtain rfl : queue = [] := by simpa [hhead] using hqueue
        refine ⟨⟨[], htasks, .inr ⟨rfl, rfl, i, hi, by simp, ?_⟩⟩, ?_, ?_⟩
        · intro j hj hupdate
          by_contra hne
          exact hnone j hj (by simpa [hne] using hupdate)
        · intro j hj _
          simpa using htasks
        · have hsum := sum_update held s.worker hi .passing
          rw [hpulling, held, held, add_zero, add_zero] at hsum
          simp only [hsum, h.taken_eq]
  · refine ⟨⟨rest, htasks, ?_⟩, ?_, ?_⟩
    · obtain ⟨hqueue, hnone⟩ | ⟨hqueue, hrest, hpass⟩ := hqueue
      · exact .inl ⟨hqueue, update_ne_passing (by simp) hnone⟩
      · exact .inr ⟨hqueue, hrest, unique_passing_update (by simp) (by simp [hholding]) hpass⟩
    · intro j hj hleft
      rcases eq_or_ne j i with rfl | hne
      · simp at hleft
      · exact h.all_taken j hj (by simpa [hne] using hleft)
    · have hsum := sum_update held s.worker hi .pulling
      rw [hholding, held, held, add_zero] at hsum
      rw [h.taken_eq, ← hsum, ← Multiset.coe_add, Multiset.coe_singleton]
      abel
  · -- the sentinel is put back
    obtain ⟨hqueue, hnone⟩ | ⟨hqueue, rfl, k, hk, -, hunique⟩ := hqueue
    · exact absurd hpassing (hnone i hi)
    obtain rfl := hunique i hi hpassing
    refine ⟨⟨[], htasks, .inl ⟨by simp [hqueue], ?_⟩⟩, ?_, ?_⟩
    · intro j hj hupdate
      rcases eq_or_ne j i with rfl | hne
      · simp at hupdate
      · exact hne (hunique j hj (by simpa [hne] using hupdate))
    · intro j hj _
      simpa using htasks
    · have hsum := sum_update held s.worker hi .left
      rw [hpassing, held, held, add_zero, add_zero] at hsum
      simp only [hsum, h.taken_eq]

/-! ## Results -/

/-- Tasks are handed out in their order, each to one worker. -/
theorem Inv.taken_prefix (h : Inv workers tasks s) : s.taken.map Prod.snd <+: tasks := by
  obtain ⟨rest, htasks, -⟩ := h.queue_eq
  exact ⟨rest, htasks.symm⟩

theorem Inv.holding_mem (h : Inv workers tasks s) {i : ℕ} {task : τ} (hi : i < workers)
    (hholding : s.worker i = .holding task) : task ∈ tasks := by
  have hle : held i (s.worker i) ≤ (s.taken : Multiset (ℕ × τ)) := by
    rw [h.taken_eq]
    apply le_add_left
    exact Finset.single_le_sum (f := fun j ↦ held j (s.worker j)) (fun _ _ ↦ Multiset.zero_le _)
      (Finset.mem_range.mpr hi)
  have hmem : (i, task) ∈ s.taken := by
    apply Multiset.mem_coe.mp
    apply Multiset.mem_of_le hle
    rw [hholding]
    exact Multiset.mem_singleton_self _
  exact h.taken_prefix.subset (List.mem_map_of_mem hmem)

theorem Inv.not_blocked (h : Inv workers tasks s) : ¬ Blocked workers s := by
  rintro ⟨hempty, -, hall⟩
  obtain ⟨rest, -, ⟨hqueue, -⟩ | ⟨-, -, i, hi, hpassing, -⟩⟩ := h.queue_eq
  · simp [hempty] at hqueue
  · rcases hall i hi with hpulling | hleft
    · simp [hpassing] at hpulling
    · simp [hpassing] at hleft

/-- When all workers have left, every task is finished and the sentinel is back. -/
theorem Inv.of_done (h : Inv workers tasks s) (hworkers : 1 ≤ workers) (hdone : Done workers s) :
    s.taken.map Prod.snd = tasks ∧ s.taken.Perm s.finished ∧ s.queue = [none] := by
  have htaken := h.all_taken 0 hworkers (hdone 0 hworkers)
  refine ⟨htaken.symm, ?_, ?_⟩
  · have hheld : ∑ i ∈ Finset.range workers, held i (s.worker i) = 0 := by
      apply Finset.sum_eq_zero
      intro i hi
      rw [hdone i (Finset.mem_range.mp hi), held]
    apply Multiset.coe_eq_coe.mp
    rw [h.taken_eq, hheld, add_zero]
  · obtain ⟨rest, htasks, ⟨hqueue, -⟩ | ⟨-, -, i, hi, hpassing, -⟩⟩ := h.queue_eq
    · obtain rfl : rest = [] := by simpa [← htaken] using htasks
      simpa using hqueue
    · simp [hdone i hi] at hpassing

/-- A worker that has not left can go on, unless it waits for a task. -/
theorem Inv.exists_event (h : Inv workers tasks s) (hdone : ¬ Done workers s) :
    ∃ i < workers, (∃ task, s.worker i = .holding task) ∨ s.worker i = .passing ∨
      (s.worker i = .pulling ∧ s.queue ≠ []) := by
  unfold Done at hdone
  push Not at hdone
  obtain ⟨i, hi, hleft⟩ := hdone
  cases hphase : s.worker i with
  | left => exact absurd hphase hleft
  | holding task => exact ⟨i, hi, .inl ⟨task, hphase⟩⟩
  | passing => exact ⟨i, hi, .inr (.inl hphase)⟩
  | pulling =>
      obtain ⟨rest, -, ⟨hqueue, -⟩ | ⟨-, -, k, hk, hpassing, -⟩⟩ := h.queue_eq
      · exact ⟨i, hi, .inr (.inr ⟨hphase, by simp [hqueue]⟩)⟩
      · exact ⟨k, hk, .inr (.inl hpassing)⟩

/-- How many steps a worker has before it, not counting the tasks that it may still pull. -/
def Phase.weight : Phase τ → ℕ
  | .pulling => 2
  | .holding _ => 3
  | .passing => 1
  | .left => 0

def remaining (workers : ℕ) (s : State τ) : ℕ :=
  2 * s.queue.reduceOption.length + ∑ i ∈ Finset.range workers, (s.worker i).weight

theorem remaining_init : remaining workers (init tasks) = 2 * tasks.length + 2 * workers := by
  have hqueue : (tasks.map some ++ [none]).reduceOption = tasks := by
    simp [List.reduceOption]
  simp only [remaining, init, hqueue, Phase.weight, Finset.sum_const, Finset.card_range,
    smul_eq_mul]
  omega

theorem sum_weight_update {worker : ℕ → Phase τ} {i : ℕ} (hi : i < workers) {old : Phase τ}
    (hold : worker i = old) (phase : Phase τ) :
    (∑ j ∈ Finset.range workers, (Function.update worker i phase j).weight) + old.weight =
      (∑ j ∈ Finset.range workers, (worker j).weight) + phase.weight := by
  rw [← hold]
  exact sum_update (fun _ ↦ Phase.weight) worker hi phase

theorem remaining_lt (hstep : step workers s e = some t) :
    remaining workers t < remaining workers s := by
  obtain ⟨i, task, queue, rfl, hi, hphase, hhead, rfl⟩ |
    ⟨i, queue, rfl, hi, hphase, hhead, rfl⟩ | ⟨i, task, rfl, hi, hphase, rfl⟩ |
    ⟨i, rfl, hi, hphase, rfl⟩ := step_cases hstep
  · have hsum : _ + 2 = _ + 3 := sum_weight_update hi hphase (.holding task)
    simp only [remaining, hhead, List.reduceOption_cons_of_some, List.length_cons]
    omega
  · have hsum : _ + 2 = _ + 1 := sum_weight_update hi hphase .passing
    simp only [remaining, hhead, List.reduceOption_cons_of_none]
    omega
  · have hsum : _ + 3 = _ + 2 := sum_weight_update hi hphase .pulling
    simp only [remaining]
    omega
  · have hsum : _ + 1 = _ + 0 := sum_weight_update hi hphase .left
    simp only [remaining, List.reduceOption_append]
    have hnone : ([none] : List (Option τ)).reduceOption = [] := rfl
    rw [hnone, List.append_nil]
    omega

end SystemProgramming.WorkerPool
