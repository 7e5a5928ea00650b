import SystemProgramming.Lib.Runs
import SystemProgramming.PasswordCracker.Utils

/-!
# The second cracker

All workers search for the password of one user at a time. The main thread gives out the task in
front of one barrier and collects the answer behind another.
-/

namespace SystemProgramming.PasswordCracker.Cracker2

/-- The local variables of a search. -/
structure Search where
  curPrefix : Str
  count : ℕ
  i : ℕ
deriving DecidableEq

/-- `atStart` and `atEnd` are the barriers. A worker checks `answer` before each hash. -/
inductive Phase
  | atStart
  | started
  | checking (w : Search)
  | hashing (w : Search)
  | printing (result : ℕ)
  | atEnd
  | left
deriving DecidableEq

/-- The main thread reads a line, is at a barrier, or sums up. At the end it is at the first
barrier once more and joins the workers. -/
inductive MainPhase
  | reading
  | atStart
  | atEnd
  | summing
  | lastStart
  | joining
deriving DecidableEq

/-- What `v2_print_thread_start` prints. Rounds are numbered by the summaries printed before. -/
structure Start where
  round : ℕ
  threadId : ℕ
  username : Str
  startIndex : ℕ
  curPrefix : Str
deriving DecidableEq

/-- A call of `crypt_r`, and what its result is compared with. -/
structure Call where
  round : ℕ
  threadId : ℕ
  password : Str
  hash : Str
deriving DecidableEq

/-- What `v2_print_thread_result` prints. -/
structure ThreadResult where
  threadId : ℕ
  hashCount : ℕ
  result : ℕ
deriving DecidableEq

/-- What `v2_print_summary` prints. -/
structure Summary where
  username : Str
  password : Option Str
  hashCount : ℕ
  result : ℕ
deriving DecidableEq

/-- `lines` are the strings that `fgets` will leave in `buf`, the `bufs` of the input. `task` is in
`username`, `hash` and `prefix`. The other lists record what has been printed, and the
calls of `crypt_r`. After an overflow of a counter the state is `undefined`. -/
structure State where
  lines : List Str
  task : Task
  working : Bool
  answer : Option Str
  main : MainPhase
  worker : ℕ → Phase
  hashCount : ℕ → ℕ
  starts : List Start
  calls : List Call
  results : List ThreadResult
  summaries : List Summary
  undefined : Bool

def init (lines : List Str) : State where
  lines := lines
  task := ⟨[], [], []⟩
  working := false
  answer := none
  main := .reading
  worker := fun _ ↦ .atStart
  hashCount := fun _ ↦ 0
  starts := []
  calls := []
  results := []
  summaries := []
  undefined := false

def State.setWorker (s : State) (i : ℕ) (phase : Phase) : State :=
  { s with worker := Function.update s.worker i phase }

def State.round (s : State) : ℕ := s.summaries.length

inductive Event
  | read
  | startBarrier
  | begin (i : ℕ)
  | check (i : ℕ)
  | hash (i : ℕ)
  | print (i : ℕ)
  | endBarrier
  | summarize
deriving DecidableEq

section

variable (u : Utils) (getSubrange : ℕ → ℕ → ℕ → ℕ × ℕ) (threadCount : ℕ)

/-- The next line is read, or there is none. The globals are only partly known after a line that
is not a task. -/
def read (s : State) : Option State :=
  if s.main = .reading then
    match s.lines with
    | line :: lines =>
        match sscanf line with
        | some task => some
            { s with lines := lines, task := task, working := true, answer := none,
                     main := .atStart }
        | none => some { s with undefined := true }
    | [] => some { s with working := false, main := .lastStart }
  else none

/-- Everyone has come to the first barrier. -/
def startBarrier (s : State) : Option State :=
  if ∀ i < threadCount, s.worker i = .atStart then
    match s.main with
    | .atStart => some { s with main := .atEnd, worker := fun _ ↦ .started }
    | .lastStart => some { s with main := .joining, worker := fun _ ↦ .started }
    | _ => none
  else none

def begin (s : State) (i : ℕ) : Option State :=
  if s.worker i = .started then
    if s.working then
      let prefixLen := u.getPrefixLength s.task.pre
      let suffixLen := s.task.pre.length - prefixLen
      let range := getSubrange suffixLen threadCount (i + 1)
      let curPrefix :=
        s.task.pre.take prefixLen ++ u.setStringPosition (s.task.pre.drop prefixLen) range.1
      let start : Start := ⟨s.round, i + 1, s.task.username, range.1, curPrefix⟩
      some { s.setWorker i (.checking ⟨curPrefix, range.2, 0⟩) with starts := s.starts ++ [start] }
    else some (s.setWorker i .left)
  else none

/-- The test of the loop, and the test whether another worker has found the password. -/
def check (s : State) (i : ℕ) : Option State :=
  match s.worker i with
  | .checking w =>
      if w.i < w.count then
        if s.answer.isSome then some (s.setWorker i (.printing 1))
        else some (s.setWorker i (.hashing w))
      else some (s.setWorker i (.printing 2))
  | _ => none

def hash (s : State) (i : ℕ) : Option State :=
  match s.worker i with
  | .hashing w =>
      if s.hashCount i < intMax then
        let t : State :=
          { s with
            hashCount := Function.update s.hashCount i (s.hashCount i + 1)
            calls := s.calls ++ [⟨s.round, i + 1, w.curPrefix, s.task.hash⟩] }
        if u.crypt w.curPrefix = s.task.hash then
          some { t.setWorker i (.printing 0) with answer := some w.curPrefix }
        else some (t.setWorker i (.checking ⟨u.incrementString w.curPrefix, w.count, w.i + 1⟩))
      else some { s with undefined := true }
  | _ => none

def print (s : State) (i : ℕ) : Option State :=
  match s.worker i with
  | .printing result => some
      { s.setWorker i .atEnd with results := s.results ++ [⟨i + 1, s.hashCount i, result⟩] }
  | _ => none

def endBarrier (s : State) : Option State :=
  if s.main = .atEnd ∧ ∀ i < threadCount, s.worker i = .atEnd then
    some { s with main := .summing, worker := fun _ ↦ .atStart }
  else none

/-- The sum of the counters of the workers. -/
def State.total (s : State) : ℕ := ∑ i ∈ Finset.range threadCount, s.hashCount i

def summarize (s : State) : Option State :=
  if s.main = .summing then
    if s.total threadCount ≤ intMax then some
      { s with
        main := .reading
        summaries := s.summaries ++
          [{ username := s.task.username
             password := s.answer
             hashCount := s.total threadCount
             result := if s.answer.isSome then 0 else 1 }] }
    else some { s with undefined := true }
  else none

def dispatch (s : State) : Event → Option State
  | .read => read s
  | .startBarrier => startBarrier threadCount s
  | .begin i => if i < threadCount then begin u getSubrange threadCount s i else none
  | .check i => if i < threadCount then check s i else none
  | .hash i => if i < threadCount then hash u s i else none
  | .print i => if i < threadCount then print s i else none
  | .endBarrier => endBarrier threadCount s
  | .summarize => summarize threadCount s

/-- Nothing is said about what follows an overflow. -/
def step (s : State) (e : Event) : Option State :=
  if s.undefined then none else dispatch u getSubrange threadCount s e

end

/-- The workers' ranges are disjoint and cover the suffixes. -/
structure Splits (getSubrange : ℕ → ℕ → ℕ → ℕ × ℕ) : Prop where
  bounded : ∀ suffixLen numThreads id, 1 ≤ id → id ≤ numThreads →
    ∀ p, (getSubrange suffixLen numThreads id).1 ≤ p →
      p < (getSubrange suffixLen numThreads id).1 + (getSubrange suffixLen numThreads id).2 →
        p < 26 ^ suffixLen
  covers : ∀ suffixLen numThreads, 1 ≤ numThreads → ∀ p < 26 ^ suffixLen,
    ∃! id, 1 ≤ id ∧ id ≤ numThreads ∧ (getSubrange suffixLen numThreads id).1 ≤ p ∧
      p < (getSubrange suffixLen numThreads id).1 + (getSubrange suffixLen numThreads id).2

variable {u : Utils} {nth : ℕ → ℕ → Str} {getSubrange : ℕ → ℕ → ℕ → ℕ × ℕ} {tasks : List Task}
  {threadCount : ℕ} {s t : State} {e : Event} {i : ℕ}

/-! ## What a worker has done -/

def State.callsIn (s : State) (round : ℕ) : ℕ := s.calls.countP (·.round = round)

/-- Worker `i` has started to work in a round. -/
def State.Begun (s : State) (round i : ℕ) : Prop :=
  ∃ st ∈ s.starts, st.round = round ∧ st.threadId = i + 1

/-- The range of worker `i` for the current task. -/
def subrange (u : Utils) (getSubrange : ℕ → ℕ → ℕ → ℕ × ℕ) (threadCount : ℕ) (task : Task) (i : ℕ) :
    ℕ × ℕ := getSubrange (task.suffixLen u) threadCount (i + 1)

/-- The candidate with number `j` in the range of worker `i` does not have the hash. -/
def Fails (u : Utils) (nth : ℕ → ℕ → Str) (getSubrange : ℕ → ℕ → ℕ → ℕ × ℕ) (threadCount : ℕ)
    (task : Task) (i j : ℕ) : Prop :=
  u.crypt (task.candidate u nth ((subrange u getSubrange threadCount task i).1 + j)) ≠ task.hash

/-- A search of worker `i` that is not finished. -/
structure Work (u : Utils) (nth : ℕ → ℕ → Str) (getSubrange : ℕ → ℕ → ℕ → ℕ × ℕ)
    (threadCount : ℕ) (s : State) (i : ℕ) (w : Search) : Prop where
  count_eq : w.count = (subrange u getSubrange threadCount s.task i).2
  le : w.i ≤ w.count
  curPrefix_eq : w.i < w.count →
    w.curPrefix = s.task.candidate u nth ((subrange u getSubrange threadCount s.task i).1 + w.i)
  fails : ∀ j < w.i, Fails u nth getSubrange threadCount s.task i j
  called : 0 < w.i → 0 < s.callsIn s.round

/-- Worker `i` has searched its range, or there is an answer. -/
def Finished (u : Utils) (nth : ℕ → ℕ → Str) (getSubrange : ℕ → ℕ → ℕ → ℕ × ℕ) (threadCount : ℕ)
    (s : State) (i : ℕ) : Prop :=
  (s.answer.isSome ∨ ∀ j < (subrange u getSubrange threadCount s.task i).2,
      Fails u nth getSubrange threadCount s.task i j) ∧
    (0 < (subrange u getSubrange threadCount s.task i).2 → 0 < s.callsIn s.round)

/-- What is known of a worker between the two barriers. -/
def WorkerInv (u : Utils) (nth : ℕ → ℕ → Str) (getSubrange : ℕ → ℕ → ℕ → ℕ × ℕ)
    (threadCount : ℕ) (s : State) (i : ℕ) : Phase → Prop
  | .started => True
  | .checking w => s.Begun s.round i ∧ Work u nth getSubrange threadCount s i w
  | .hashing w => s.Begun s.round i ∧ Work u nth getSubrange threadCount s i w ∧ w.i < w.count
  | .printing _ => s.Begun s.round i ∧ Finished u nth getSubrange threadCount s i
  | .atEnd => s.Begun s.round i ∧ Finished u nth getSubrange threadCount s i
  | .atStart => False
  | .left => False

/-- What other workers do between the barriers. -/
structure Later (s t : State) : Prop where
  task_eq : t.task = s.task
  round_eq : t.round = s.round
  answer : s.answer.isSome → t.answer.isSome
  calls : 0 < s.callsIn s.round → 0 < t.callsIn t.round
  starts : ∀ st ∈ s.starts, st ∈ t.starts

theorem Later.begun (h : Later s t) (hbegun : s.Begun s.round i) : t.Begun t.round i := by
  obtain ⟨st, hst, hround⟩ := hbegun
  exact ⟨st, h.starts st hst, h.round_eq ▸ hround⟩

theorem Later.work (h : Later s t) {w : Search}
    (hwork : Work u nth getSubrange threadCount s i w) :
    Work u nth getSubrange threadCount t i w := by
  refine ⟨?_, hwork.le, ?_, ?_, fun hi ↦ h.calls (hwork.called hi)⟩ <;> rw [h.task_eq]
  · exact hwork.count_eq
  · exact hwork.curPrefix_eq
  · exact hwork.fails

theorem Later.finished (h : Later s t) (hfinished : Finished u nth getSubrange threadCount s i) :
    Finished u nth getSubrange threadCount t i := by
  unfold Finished
  rw [h.task_eq]
  exact ⟨hfinished.1.imp_left h.answer, fun hi ↦ h.calls (hfinished.2 hi)⟩

theorem Later.workerInv (h : Later s t) {phase : Phase}
    (hworker : WorkerInv u nth getSubrange threadCount s i phase) :
    WorkerInv u nth getSubrange threadCount t i phase := by
  cases phase with
  | started => trivial
  | checking w => exact ⟨h.begun hworker.1, h.work hworker.2⟩
  | hashing w => exact ⟨h.begun hworker.1, h.work hworker.2.1, hworker.2.2⟩
  | printing result => exact ⟨h.begun hworker.1, h.finished hworker.2⟩
  | atEnd => exact ⟨h.begun hworker.1, h.finished hworker.2⟩
  | atStart => exact hworker.elim
  | left => exact hworker.elim

/-! ## The invariant -/

/-- The task of the round has been given out. -/
def Given (tasks : List Task) (s : State) : Prop :=
  s.working = true ∧ tasks[s.round]? = some s.task

/-- An answer is a password for the task, and was found by hashing. -/
def AnswerInv (u : Utils) (s : State) : Prop :=
  ∀ w, s.answer = some w →
    s.task.Completion u w ∧ u.crypt w = s.task.hash ∧ 0 < s.callsIn s.round

/-- Where the main thread and the workers are. -/
def RoundInv (u : Utils) (nth : ℕ → ℕ → Str) (getSubrange : ℕ → ℕ → ℕ → ℕ × ℕ)
    (tasks : List Task) (threadCount : ℕ) (s : State) : Prop :=
  match s.main with
  | .reading => ∀ i < threadCount, s.worker i = .atStart
  | .atStart => (∀ i < threadCount, s.worker i = .atStart) ∧ Given tasks s ∧ s.answer = none
  | .atEnd => (∀ i < threadCount, WorkerInv u nth getSubrange threadCount s i (s.worker i)) ∧
      Given tasks s ∧ AnswerInv u s
  | .summing => (∀ i < threadCount, s.worker i = .atStart) ∧ Given tasks s ∧ AnswerInv u s ∧
      (s.answer = none → ∀ w, s.task.Completion u w → u.crypt w ≠ s.task.hash) ∧
      0 < s.callsIn s.round ∧ ∀ i < threadCount, s.Begun s.round i
  | .lastStart => (∀ i < threadCount, s.worker i = .atStart) ∧ s.working = false
  | .joining => (∀ i < threadCount, s.worker i = .started ∨ s.worker i = .left) ∧
      s.working = false

/-- The number of lines that have been read. -/
def State.linesRead (s : State) : ℕ :=
  match s.main with
  | .atStart => s.round + 1
  | .atEnd => s.round + 1
  | .summing => s.round + 1
  | _ => s.round

/-- The password part of a summary. -/
def Summary.PasswordCorrect (u : Utils) (task : Task) (sm : Summary) : Prop :=
  sm.username = task.username ∧
    (sm.password.isSome ↔ ∃ w, task.Completion u w ∧ u.crypt w = task.hash) ∧
    (∀ w, sm.password = some w → task.Completion u w ∧ u.crypt w = task.hash) ∧
    sm.result = if sm.password.isSome then 0 else 1

/-- What has been recorded. -/
structure History (u : Utils) (tasks : List Task) (threadCount : ℕ) (s : State) : Prop where
  defined : s.undefined = false
  lines_eq : s.lines.map sscanf = (tasks.drop s.linesRead).map some
  starts : ∀ st ∈ s.starts, ∃ task, tasks[st.round]? = some task ∧
    st.username = task.username ∧ task.known u <+: st.curPrefix
  calls : ∀ c ∈ s.calls, ∃ task, tasks[c.round]? = some task ∧ c.hash = task.hash ∧
    task.Completion u c.password
  calls_le : ∀ c ∈ s.calls, c.round ≤ s.round
  total_eq : s.total threadCount = s.calls.length
  rounds : ∀ round < s.round, 0 < s.callsIn round ∧ ∀ i < threadCount, s.Begun round i
  passwords : ∀ (round : ℕ) sm, s.summaries[round]? = some sm → ∃ task,
    tasks[round]? = some task ∧ sm.PasswordCorrect u task
  hashCounts : ∀ (round : ℕ) sm, s.summaries[round]? = some sm →
    sm.hashCount = s.calls.countP (·.round ≤ round)

structure Inv (u : Utils) (nth : ℕ → ℕ → Str) (getSubrange : ℕ → ℕ → ℕ → ℕ × ℕ)
    (tasks : List Task) (threadCount : ℕ) (s : State) : Prop where
  round : RoundInv u nth getSubrange tasks threadCount s
  history : History u tasks threadCount s

theorem inv_init {lines : List Str} (hlines : lines.map sscanf = tasks.map some) :
    Inv u nth getSubrange tasks threadCount (init lines) := by
  refine ⟨fun i _ ↦ rfl, ?_⟩
  refine ⟨rfl, by simpa [init, State.linesRead, State.round] using hlines, ?_, ?_, ?_, ?_, ?_, ?_,
    ?_⟩ <;> simp [init, State.round, State.total]

end SystemProgramming.PasswordCracker.Cracker2
