import SystemProgramming.Lib.Termination
import SystemProgramming.PasswordCracker.Rounds

/-!
# The end of the second cracker

Nobody waits forever at a barrier, and every round ends. So the program comes to its end, with a
summary for every line, whatever the lines are and whichever of its threads goes on next.
-/

namespace SystemProgramming.PasswordCracker.Cracker2

variable {u : Utils} {getSubrange : ℕ → ℕ → ℕ → ℕ × ℕ} {threadCount total : ℕ} {s t : State}
  {e : Event} {i : ℕ} {es : List Event} {lines : List Str}

/-! ## What a step does -/

/-- How a worker goes on. -/
inductive Goes (count : ℕ) (working : Bool) : Phase → Phase → Prop
  | begin (curPrefix : Str) : working = true → Goes count working .started
      (.checking ⟨curPrefix, count, 0⟩)
  | leave : working = false → Goes count working .started .left
  | check (w : Search) : w.i < w.count → Goes count working (.checking w) (.hashing w)
  | stop (w : Search) (result : ℕ) : Goes count working (.checking w) (.printing result)
  | hit (w : Search) : Goes count working (.hashing w) (.printing 0)
  | miss (w : Search) (curPrefix : Str) : Goes count working (.hashing w)
      (.checking ⟨curPrefix, w.count, w.i + 1⟩)
  | print (result : ℕ) : Goes count working (.printing result) .atEnd

/-- A step of worker `i`: the main thread and its variables stay as they are. -/
structure WorkerStep (u : Utils) (getSubrange : ℕ → ℕ → ℕ → ℕ × ℕ) (threadCount : ℕ)
    (s t : State) (i : ℕ) : Prop where
  main_eq : t.main = s.main
  lines_eq : t.lines = s.lines
  task_eq : t.task = s.task
  working_eq : t.working = s.working
  round_eq : t.round = s.round
  moved : ∃ phase, t.worker = Function.update s.worker i phase ∧
    Goes (subrange u getSubrange threadCount s.task i).2 s.working (s.worker i) phase

theorem WorkerStep.goes (h : WorkerStep u getSubrange threadCount s t i) :
    Goes (subrange u getSubrange threadCount s.task i).2 s.working (s.worker i) (t.worker i) := by
  obtain ⟨phase, hworker, hgoes⟩ := h.moved
  rwa [hworker, Function.update_self]

theorem WorkerStep.others (h : WorkerStep u getSubrange threadCount s t i) {j : ℕ} (hne : j ≠ i) :
    t.worker j = s.worker j := by
  obtain ⟨phase, hworker, -⟩ := h.moved
  rw [hworker, Function.update_of_ne hne]

theorem worker_of_begin (h : begin u getSubrange threadCount s i = some t) :
    WorkerStep u getSubrange threadCount s t i := by
  unfold begin at h
  rw [Option.ite_none_right_eq_some] at h
  obtain ⟨hstarted, h⟩ := h
  cases hworking : s.working with
  | true =>
      simp only [hworking, if_true, Option.some.injEq] at h
      subst h
      refine ⟨rfl, rfl, rfl, rfl, rfl, _, rfl, ?_⟩
      rw [hstarted]
      exact .begin _ hworking
  | false =>
      simp only [hworking, Bool.false_eq_true, if_false, Option.some.injEq] at h
      subst h
      refine ⟨rfl, rfl, rfl, rfl, rfl, _, rfl, ?_⟩
      rw [hstarted]
      exact .leave hworking

theorem worker_of_check (h : check s i = some t) :
    WorkerStep u getSubrange threadCount s t i := by
  unfold check at h
  cases hphase : s.worker i <;> simp only [hphase, reduceCtorEq] at h
  case checking w =>
    obtain ⟨phase, rfl, hgoes⟩ : ∃ phase, t = s.setWorker i phase ∧
        Goes (subrange u getSubrange threadCount s.task i).2 s.working (.checking w) phase := by
      split_ifs at h with hlt hanswer
      · exact ⟨_, (Option.some.inj h).symm, .stop w 1⟩
      · exact ⟨_, (Option.some.inj h).symm, .check w hlt⟩
      · exact ⟨_, (Option.some.inj h).symm, .stop w 2⟩
    exact ⟨rfl, rfl, rfl, rfl, rfl, phase, rfl, hphase ▸ hgoes⟩

theorem worker_of_hash (h : hash u s i = some t) :
    t = { s with undefined := true } ∨ WorkerStep u getSubrange threadCount s t i := by
  unfold hash at h
  cases hphase : s.worker i <;> simp only [hphase, reduceCtorEq] at h
  case hashing w =>
    split_ifs at h with hlt hfound
    · obtain rfl := Option.some.inj h
      exact .inr ⟨rfl, rfl, rfl, rfl, rfl, _, rfl, hphase ▸ .hit w⟩
    · obtain rfl := Option.some.inj h
      exact .inr ⟨rfl, rfl, rfl, rfl, rfl, _, rfl, hphase ▸ .miss w _⟩
    · exact .inl (Option.some.inj h).symm

theorem worker_of_print (h : print s i = some t) :
    WorkerStep u getSubrange threadCount s t i := by
  unfold print at h
  cases hphase : s.worker i <;> simp only [hphase, reduceCtorEq] at h
  case printing result =>
    obtain rfl := Option.some.inj h
    exact ⟨rfl, rfl, rfl, rfl, rfl, _, rfl, hphase ▸ .print result⟩

/-- A step of the main thread. At a barrier all threads go on. -/
inductive MainStep (threadCount : ℕ) (s : State) : State → Prop
  | task (line : Str) (rest : List Str) (task : Task) : s.main = .reading →
      s.lines = line :: rest → sscanf line = some task → MainStep threadCount s
        { s with lines := rest, task := task, working := true, answer := none, main := .atStart }
  | last : s.main = .reading → s.lines = [] →
      MainStep threadCount s { s with working := false, main := .lastStart }
  | start : s.main = .atStart →
      MainStep threadCount s { s with main := .atEnd, worker := fun _ ↦ .started }
  | lastStart : s.main = .lastStart →
      MainStep threadCount s { s with main := .joining, worker := fun _ ↦ .started }
  | stop : s.main = .atEnd → (∀ i < threadCount, s.worker i = .atEnd) →
      MainStep threadCount s { s with main := .summing, worker := fun _ ↦ .atStart }
  | summarize (sm : Summary) : s.main = .summing →
      MainStep threadCount s { s with main := .reading, summaries := s.summaries ++ [sm] }

theorem main_of_read (h : read s = some t) :
    t = { s with undefined := true } ∨ MainStep threadCount s t := by
  unfold read at h
  rw [Option.ite_none_right_eq_some] at h
  obtain ⟨hmain, h⟩ := h
  cases hlines : s.lines with
  | nil =>
      simp only [hlines, Option.some.injEq] at h
      subst h
      exact .inr (by simpa only [hlines] using MainStep.last hmain hlines)
  | cons line rest =>
      cases htask : sscanf line with
      | none =>
          simp only [hlines, htask, Option.some.injEq] at h
          exact .inl h.symm
      | some task =>
          simp only [hlines, htask, Option.some.injEq] at h
          subst h
          exact .inr (.task line rest task hmain hlines htask)

theorem main_of_startBarrier (h : startBarrier threadCount s = some t) :
    MainStep threadCount s t := by
  unfold startBarrier at h
  rw [Option.ite_none_right_eq_some] at h
  obtain ⟨-, h⟩ := h
  cases hmain : s.main <;> simp only [hmain, reduceCtorEq, Option.some.injEq] at h
  case atStart => exact h ▸ .start hmain
  case lastStart => exact h ▸ .lastStart hmain

theorem main_of_endBarrier (h : endBarrier threadCount s = some t) : MainStep threadCount s t := by
  unfold endBarrier at h
  rw [Option.ite_none_right_eq_some] at h
  obtain ⟨⟨hmain, hall⟩, h⟩ := h
  exact Option.some.inj h ▸ .stop hmain hall

theorem main_of_summarize (h : summarize threadCount s = some t) :
    t = { s with undefined := true } ∨ MainStep threadCount s t := by
  unfold summarize at h
  rw [Option.ite_none_right_eq_some] at h
  obtain ⟨hmain, h⟩ := h
  by_cases hsum : s.total threadCount ≤ intMax
  · rw [if_pos hsum] at h
    exact .inr (Option.some.inj h ▸ .summarize _ hmain)
  · rw [if_neg hsum] at h
    exact .inl (Option.some.inj h).symm

theorem step_cases (h : step u getSubrange threadCount s e = some t) : s.undefined = false ∧
    (t = { s with undefined := true } ∨ MainStep threadCount s t ∨
      ∃ i < threadCount, WorkerStep u getSubrange threadCount s t i) := by
  unfold step at h
  rw [Option.ite_none_left_eq_some, Bool.not_eq_true] at h
  obtain ⟨hdefined, h⟩ := h
  refine ⟨hdefined, ?_⟩
  cases e with
  | read => exact (main_of_read h).imp_right .inl
  | startBarrier => exact .inr (.inl (main_of_startBarrier h))
  | endBarrier => exact .inr (.inl (main_of_endBarrier h))
  | summarize => exact (main_of_summarize h).imp_right .inl
  | begin i =>
      obtain ⟨hi, h⟩ := Option.ite_none_right_eq_some.mp h
      exact .inr (.inr ⟨i, hi, worker_of_begin h⟩)
  | check i =>
      obtain ⟨hi, h⟩ := Option.ite_none_right_eq_some.mp h
      exact .inr (.inr ⟨i, hi, worker_of_check h⟩)
  | hash i =>
      obtain ⟨hi, h⟩ := Option.ite_none_right_eq_some.mp h
      exact (worker_of_hash h).imp_right fun hworker ↦ .inr ⟨i, hi, hworker⟩
  | print i =>
      obtain ⟨hi, h⟩ := Option.ite_none_right_eq_some.mp h
      exact .inr (.inr ⟨i, hi, worker_of_print h⟩)

/-! ## Where the threads are -/

/-- Between the barriers of a round. -/
def Phase.InRound (phase : Phase) : Prop := phase ≠ .atStart ∧ phase ≠ .left

theorem Phase.inRound_started : Phase.started.InRound := by
  simp [Phase.InRound]

theorem Goes.inRound {count : ℕ} {p q : Phase} (h : Goes count true p q) : q.InRound := by
  cases h <;> simp_all [Phase.InRound]

theorem Goes.left {count : ℕ} {p q : Phase} (h : Goes count false p q)
    (hp : p = .started ∨ p = .left) : p = .started ∧ q = .left := by
  cases h <;> simp_all

theorem Goes.ne_atStart {count : ℕ} {working : Bool} {q : Phase} :
    ¬ Goes count working .atStart q := by
  intro h
  cases h

/-- The places of the threads, and the lines behind and before them. -/
def Placed (threadCount total : ℕ) (s : State) : Prop :=
  match s.main with
  | .reading => (∀ i < threadCount, s.worker i = .atStart) ∧ s.round + s.lines.length = total
  | .atStart => (∀ i < threadCount, s.worker i = .atStart) ∧ s.working = true ∧
      s.round + s.lines.length + 1 = total
  | .atEnd => (∀ i < threadCount, (s.worker i).InRound) ∧ s.working = true ∧
      s.round + s.lines.length + 1 = total
  | .summing => (∀ i < threadCount, s.worker i = .atStart) ∧
      s.round + s.lines.length + 1 = total
  | .lastStart => (∀ i < threadCount, s.worker i = .atStart) ∧ s.working = false ∧
      s.round = total
  | .joining => (∀ i < threadCount, s.worker i = .started ∨ s.worker i = .left) ∧
      s.working = false ∧ s.round = total

theorem placed_init : Placed threadCount lines.length (init lines) :=
  ⟨fun _ _ ↦ rfl, Nat.zero_add _⟩

theorem Placed.mainStep (h : Placed threadCount total s) (hstep : MainStep threadCount s t) :
    Placed threadCount total t := by
  cases hstep with
  | task line rest task hmain hlines htask =>
      simp only [Placed, hmain, hlines, List.length_cons] at h
      exact ⟨h.1, rfl, by simpa only [State.round, Nat.add_assoc] using h.2⟩
  | last hmain hlines =>
      simp only [Placed, hmain, hlines, List.length_nil] at h
      exact ⟨h.1, rfl, h.2⟩
  | start hmain =>
      simp only [Placed, hmain] at h
      exact ⟨fun _ _ ↦ Phase.inRound_started, h.2.1, h.2.2⟩
  | lastStart hmain =>
      simp only [Placed, hmain] at h
      exact ⟨fun _ _ ↦ .inl rfl, h.2.1, h.2.2⟩
  | stop hmain =>
      simp only [Placed, hmain] at h
      exact ⟨fun _ _ ↦ rfl, h.2.2⟩
  | summarize sm hmain =>
      simp only [Placed, hmain] at h
      refine ⟨h.1, ?_⟩
      have hcount := h.2
      simp only [State.round, List.length_append, List.length_singleton] at hcount ⊢
      omega

/-- A worker goes on only in a round, or to leave at the end. -/
theorem WorkerStep.main_cases (h : WorkerStep u getSubrange threadCount s t i)
    (hplaced : Placed threadCount total s) (hi : i < threadCount) :
    (s.main = .atEnd ∧ s.working = true) ∨ (s.main = .joining ∧ s.working = false) := by
  have hgoes := h.goes
  cases hmain : s.main <;> simp only [Placed, hmain] at hplaced
  case atEnd => exact .inl ⟨rfl, hplaced.2.1⟩
  case joining => exact .inr ⟨rfl, hplaced.2.1⟩
  all_goals
    rw [hplaced.1 i hi] at hgoes
    exact absurd hgoes Goes.ne_atStart

theorem Placed.workerStep (hplaced : Placed threadCount total s)
    (h : WorkerStep u getSubrange threadCount s t i) (hi : i < threadCount) :
    Placed threadCount total t := by
  have hgoes := h.goes
  obtain ⟨hmain, hworking⟩ | ⟨hmain, hworking⟩ := h.main_cases hplaced hi
  · simp only [Placed, h.main_eq, hmain, h.working_eq, h.round_eq, h.lines_eq] at hplaced ⊢
    refine ⟨fun j hj ↦ ?_, hplaced.2⟩
    rcases eq_or_ne j i with rfl | hne
    · rw [hworking] at hgoes
      exact hgoes.inRound
    · rw [h.others hne]
      exact hplaced.1 j hj
  · simp only [Placed, h.main_eq, hmain, h.working_eq, h.round_eq] at hplaced ⊢
    refine ⟨fun j hj ↦ ?_, hplaced.2⟩
    rcases eq_or_ne j i with rfl | hne
    · rw [hworking] at hgoes
      exact .inr (hgoes.left (hplaced.1 j hj)).2
    · rw [h.others hne]
      exact hplaced.1 j hj

theorem Placed.step (h : Placed threadCount total s)
    (hstep : Cracker2.step u getSubrange threadCount s e = some t) :
    Placed threadCount total t := by
  obtain ⟨-, rfl | hmain | ⟨i, hi, hworker⟩⟩ := step_cases hstep
  · exact h
  · exact h.mainStep hmain
  · exact h.workerStep hworker hi

/-! ## Progress -/

/-- The main thread has joined all workers. -/
def State.Joined (threadCount : ℕ) (s : State) : Prop :=
  s.main = .joining ∧ ∀ i < threadCount, s.worker i = .left

theorem exists_worker_step (hdefined : s.undefined = false) (hi : i < threadCount)
    (hround : (s.worker i).InRound) (hend : s.worker i ≠ .atEnd) :
    ∃ e t, Cracker2.step u getSubrange threadCount s e = some t := by
  cases hphase : s.worker i with
  | atStart => exact absurd hphase hround.1
  | left => exact absurd hphase hround.2
  | atEnd => exact absurd hphase hend
  | started =>
      refine ⟨.begin i, ?_⟩
      cases hworking : s.working <;>
        simp [Cracker2.step, hdefined, dispatch, hi, begin, hphase, hworking]
  | checking w =>
      refine ⟨.check i, ?_⟩
      by_cases hlt : w.i < w.count <;> by_cases hanswer : s.answer.isSome <;>
        simp [Cracker2.step, hdefined, dispatch, hi, check, hphase, hlt, hanswer]
  | hashing w =>
      refine ⟨.hash i, ?_⟩
      by_cases hlt : s.hashCount i < intMax <;>
        by_cases hfound : u.crypt w.curPrefix = s.task.hash <;>
          simp [Cracker2.step, hdefined, dispatch, hi, hash, hphase, hlt, hfound]
  | printing result =>
      exact ⟨.print i, by simp [Cracker2.step, hdefined, dispatch, hi, print, hphase]⟩

theorem Placed.exists_step (h : Placed threadCount total s) (hdefined : s.undefined = false)
    (hnot : ¬ s.Joined threadCount) :
    ∃ e t, Cracker2.step u getSubrange threadCount s e = some t := by
  cases hmain : s.main <;> simp only [Placed, hmain] at h
  case reading =>
    refine ⟨.read, ?_⟩
    cases hlines : s.lines with
    | nil => simp [Cracker2.step, hdefined, dispatch, read, hmain, hlines]
    | cons line rest =>
        cases htask : sscanf line <;>
          simp [Cracker2.step, hdefined, dispatch, read, hmain, hlines, htask]
  case atStart =>
    refine ⟨.startBarrier, ?_⟩
    simp only [Cracker2.step, hdefined, dispatch, startBarrier, hmain, if_pos h.1]
    simp
  case atEnd =>
    by_cases hall : ∀ i < threadCount, s.worker i = .atEnd
    · refine ⟨.endBarrier, ?_⟩
      simp only [Cracker2.step, hdefined, dispatch, endBarrier, if_pos (And.intro hmain hall)]
      simp
    · push Not at hall
      obtain ⟨i, hi, hne⟩ := hall
      exact exists_worker_step hdefined hi (h.1 i hi) hne
  case summing =>
    refine ⟨.summarize, ?_⟩
    by_cases hsum : s.total threadCount ≤ intMax <;>
      simp [Cracker2.step, hdefined, dispatch, summarize, hmain, hsum]
  case lastStart =>
    refine ⟨.startBarrier, ?_⟩
    simp only [Cracker2.step, hdefined, dispatch, startBarrier, hmain, if_pos h.1]
    simp
  case joining =>
    have hsome : ¬ ∀ i < threadCount, s.worker i = .left := fun hall ↦ hnot ⟨hmain, hall⟩
    push Not at hsome
    obtain ⟨i, hi, hne⟩ := hsome
    have hstarted := (h.1 i hi).resolve_right hne
    exact exists_worker_step hdefined hi (hstarted ▸ Phase.inRound_started) (by simp [hstarted])

/-! ## The work that is left -/

/-- The steps of a worker before the end of the round, if there are `count` candidates for it. -/
def Phase.work (count : ℕ) : Phase → ℕ
  | .started => 2 * count + 4
  | .checking w => 2 * (w.count - w.i) + 3
  | .hashing w => 2 * (w.count - (w.i + 1)) + 4
  | .printing _ => 2
  | .atEnd => 1
  | .atStart => 0
  | .left => 0

theorem Goes.work_lt {count : ℕ} {working : Bool} {p q : Phase} (h : Goes count working p q) :
    q.work count < p.work count := by
  cases h with
  | miss w => exact Nat.lt_succ_self _
  | _ => simp only [Phase.work]; omega

section

variable (u : Utils) (getSubrange : ℕ → ℕ → ℕ → ℕ × ℕ) (threadCount : ℕ)

/-- The steps of all workers, from phases that may depend on the worker. -/
def workersWork (task : Task) (worker : ℕ → Phase) : ℕ :=
  ∑ i ∈ Finset.range threadCount,
    (worker i).work (subrange u getSubrange threadCount task i).2

/-- The steps of a round: those of the workers, and four of the main thread. -/
def roundWork (task : Task) : ℕ :=
  workersWork u getSubrange threadCount task (fun _ ↦ .started) + 4

def lineWork (line : Str) : ℕ :=
  ((sscanf line).map (roundWork u getSubrange threadCount)).getD 0

/-- What is left of the round, and the end. -/
def State.mainWork (s : State) : ℕ :=
  match s.main with
  | .reading => threadCount + 3
  | .atStart => threadCount + 3 + roundWork u getSubrange threadCount s.task - 1
  | .atEnd => threadCount + 3 + workersWork u getSubrange threadCount s.task s.worker + 2
  | .summing => threadCount + 3 + 1
  | .lastStart => threadCount + 2
  | .joining => ((Finset.range threadCount).filter fun i ↦ s.worker i = .started).card + 1

def State.workLeft (s : State) : ℕ :=
  if s.undefined then 0
  else (s.lines.map (lineWork u getSubrange threadCount)).sum +
    s.mainWork u getSubrange threadCount

end

theorem mainWork_pos : 0 < s.mainWork u getSubrange threadCount := by
  unfold State.mainWork
  split <;> omega

theorem mainStep_lt (hdefined : s.undefined = false) (h : MainStep threadCount s t) :
    t.workLeft u getSubrange threadCount < s.workLeft u getSubrange threadCount := by
  cases h with
  | task line rest task hmain hlines htask =>
      simp [State.workLeft, State.mainWork, hdefined, hmain, hlines, lineWork, htask, roundWork]
      omega
  | last hmain hlines => simp [State.workLeft, State.mainWork, hdefined, hmain]
  | start hmain =>
      simp [State.workLeft, State.mainWork, hdefined, hmain, roundWork]
      omega
  | lastStart hmain => simp [State.workLeft, State.mainWork, hdefined, hmain]
  | stop hmain hall => simp [State.workLeft, State.mainWork, hdefined, hmain]
  | summarize sm hmain => simp [State.workLeft, State.mainWork, hdefined, hmain]

theorem WorkerStep.lt (h : WorkerStep u getSubrange threadCount s t i)
    (hplaced : Placed threadCount total s) (hi : i < threadCount) :
    t.mainWork u getSubrange threadCount < s.mainWork u getSubrange threadCount := by
  have hgoes := h.goes
  obtain ⟨hmain, hworking⟩ | ⟨hmain, hworking⟩ := h.main_cases hplaced hi
  · have hlt : workersWork u getSubrange threadCount s.task t.worker <
        workersWork u getSubrange threadCount s.task s.worker := by
      refine Finset.sum_lt_sum (fun j _ ↦ ?_) ⟨i, Finset.mem_range.mpr hi, hgoes.work_lt⟩
      rcases eq_or_ne j i with rfl | hne
      · exact hgoes.work_lt.le
      · rw [h.others hne]
    simp only [State.mainWork, h.main_eq, hmain, h.task_eq]
    omega
  · simp only [Placed, hmain] at hplaced
    rw [hworking] at hgoes
    obtain ⟨hstarted, hleft⟩ := hgoes.left (hplaced.1 i hi)
    simp only [State.mainWork, h.main_eq, hmain]
    apply Nat.succ_lt_succ
    apply Finset.card_lt_card
    refine Finset.ssubset_iff_of_subset (fun j hj ↦ ?_) |>.mpr ⟨i, ?_, ?_⟩
    · rw [Finset.mem_filter] at hj ⊢
      rcases eq_or_ne j i with rfl | hne
      · exact ⟨hj.1, hstarted⟩
      · exact ⟨hj.1, h.others hne ▸ hj.2⟩
    · exact Finset.mem_filter.mpr ⟨Finset.mem_range.mpr hi, hstarted⟩
    · simp [hleft]

theorem Placed.workLeft_lt (h : Placed threadCount total s)
    (hstep : Cracker2.step u getSubrange threadCount s e = some t) :
    t.workLeft u getSubrange threadCount < s.workLeft u getSubrange threadCount := by
  obtain ⟨hdefined, rfl | hmain | ⟨i, hi, hworker⟩⟩ := step_cases hstep
  · have hpos : 0 < s.mainWork u getSubrange threadCount := mainWork_pos
    simp only [State.workLeft, hdefined]
    simp
    omega
  · exact mainStep_lt hdefined hmain
  · have hlt := hworker.lt h hi
    simp only [State.workLeft, hdefined, hworker.lines_eq, Bool.false_eq_true, if_false]
    split_ifs <;> omega

/-- Under every schedule the program goes on until its workers have been joined, or a counter
has overflowed or a string was no task. It takes a bounded number of steps, and in the end every
string that `fgets` gave has a summary. These are the lines exactly if each of them fits into the
buffer. -/
theorem cracker_completes {input : Str}
    (hrun : Run (StepOf (Cracker2.step u getSubrange threadCount)) (init (bufs input)) es s) :
    es.length ≤ ((bufs input).map (lineWork u getSubrange threadCount)).sum + (threadCount + 3) ∧
      (s.undefined = false → ¬ s.Joined threadCount →
        ∃ e t, Cracker2.step u getSubrange threadCount s e = some t) ∧
      (s.Joined threadCount → s.summaries.length = (bufs input).length ∧
        (s.summaries.length = (inputLines input).length ↔ Fits input)) := by
  have hstep : ∀ s e t, Placed threadCount (bufs input).length s →
      StepOf (Cracker2.step u getSubrange threadCount) s e t →
        Placed threadCount (bufs input).length t := fun _ _ _ h hstep ↦ h.step hstep
  have hplaced := hrun.invariant hstep placed_init
  refine ⟨?_, hplaced.exists_step, fun ⟨hmain, _⟩ ↦ ?_⟩
  · have hlength := Run.length_le hstep (μ := State.workLeft u getSubrange threadCount)
      (fun _ _ _ h hstep ↦ h.workLeft_lt hstep) hrun placed_init
    exact (Nat.le_add_right _ _).trans hlength
  · simp only [Placed, hmain] at hplaced
    have hcount : s.summaries.length = (bufs input).length := hplaced.2.2
    exact ⟨hcount, by rw [hcount, length_bufs_eq_iff]⟩

/-- One worker and one task. -/
theorem cracker_completes_one : ∃ s, Run (StepOf (Cracker2.step (base26 cryptOfA) balanced 1))
      (init (bufs "user xxKKTqMtVyyHI .\n".toList)) [.read, .startBarrier, .begin 0, .check 0,
        .hash 0, .print 0, .endBarrier, .summarize, .read, .startBarrier, .begin 0] s ∧
    s.Joined 1 ∧ s.summaries.length = (inputLines "user xxKKTqMtVyyHI .\n".toList).length := by
  have hexec : (execute (Cracker2.step (base26 cryptOfA) balanced 1)
      (init (bufs "user xxKKTqMtVyyHI .\n".toList)) [.read, .startBarrier, .begin 0, .check 0,
        .hash 0, .print 0, .endBarrier, .summarize, .read, .startBarrier, .begin 0]).map
        (fun s ↦ (s.main, s.worker 0)) = some (.joining, .left) := by decide +kernel
  obtain ⟨s, hs, hphases⟩ := Option.map_eq_some_iff.mp hexec
  obtain ⟨hmain, hworker⟩ := Prod.mk.inj hphases
  have hjoined : s.Joined 1 := ⟨hmain, fun i hi ↦ by rwa [Nat.lt_one_iff.mp hi]⟩
  have hrun := Run.execute_eq_some_iff.mp hs
  exact ⟨s, hrun, hjoined, ((cracker_completes hrun).2.2 hjoined).2.mpr (by decide)⟩

end SystemProgramming.PasswordCracker.Cracker2
