import SystemProgramming.DeepfriedDd.Copying
import SystemProgramming.Lib.Runs

/-!
# Reports on request

`SIGUSR1` sets a flag at any time.  The loop of `main` answers it with a report when the next block
has been read, and `main` ends with a report of its own.
-/

namespace SystemProgramming.DeepfriedDd

/-- The arguments of `print_status_report`, without the time. -/
structure Counts where
  fullBlocksIn : ℕ
  partialBlocksIn : ℕ
  fullBlocksOut : ℕ
  partialBlocksOut : ℕ
  totalBytesCopied : ℕ
deriving DecidableEq

def State.counts (s : State) : Counts :=
  ⟨s.fullBlocksIn, s.partialBlocksIn, s.fullBlocksOut, s.partialBlocksOut, s.totalBytesCopied⟩

/-- Where `main` stands: at `fread`, before the flag is tested, before `fwrite`, or behind the
loop. -/
inductive Phase
  | read
  | check (buf : List Byte)
  | write (buf : List Byte)
  | finish
  | done
deriving DecidableEq

structure Process where
  copying : State
  flag : Bool
  phase : Phase
  reports : List Counts
deriving DecidableEq

inductive Event
  | signal
  | step
deriving DecidableEq

namespace Process

/-- `signal_handler` -/
def signalHandler (p : Process) : Process := { p with flag := true }

def printReport (p : Process) : Process :=
  { p with reports := p.reports ++ [p.copying.counts], flag := false }

/-- The rest of a round behind the test of the flag, and where it leads. -/
def write (blockSize : ℕ) (copyBlock : ℤ) (buf : List Byte) (s : State) :
    Option (State × Phase) :=
  (copyRound blockSize copyBlock buf s).map fun (s, stops) ↦
    (s, if stops then .finish else .read)

/-- One step of `main`, or a signal before it returns. -/
def next (blockSize : ℕ) (copyBlock : ℤ) (p : Process) : Event → Option Process
  | .signal => if p.phase = .done then none else some p.signalHandler
  | .step =>
    match p.phase with
    | .read =>
      let (buf, input) := p.copying.input.fread blockSize
      let p := { p with copying := { p.copying with input := input } }
      some { p with phase := if buf.length = 0 then .finish else .check buf }
    | .check buf => some { (if p.flag then p.printReport else p) with phase := .write buf }
    | .write buf => do
      let (copying, phase) ← write blockSize copyBlock buf p.copying
      pure { p with copying := copying, phase := phase }
    | .finish => some { p.printReport with phase := .done }
    | .done => none

def start (s : State) : Process := ⟨s, false, .read, []⟩

/-! ## The copy -/

variable {b N fuel : ℕ} {c : ℤ} {p p' : Process} {s₀ : State} {es : List Event} {e : Event}

/-- What the loop goes on to when no signal is considered. -/
def resume (b : ℕ) (c : ℤ) (fuel : ℕ) (s : State) : Phase → Option State
  | .read => copyLoop b c fuel s
  | .check buf | .write buf =>
    (copyRound b c buf s).bind fun (s, stops) ↦ if stops then some s else copyLoop b c fuel s
  | .finish | .done => some s

theorem copyLoop_succ (s : State) : copyLoop b c (fuel + 1) s =
    resume b c fuel { s with input := (s.input.fread b).2 }
      (if (s.input.fread b).1.length = 0 then .finish else .check (s.input.fread b).1) := by
  rw [copyLoop]
  simp only
  split <;> rfl

/-- A read that gets something leaves less. -/
theorem length_rest_fread (s : State) :
    State.rest { s with input := (s.input.fread b).2 } =
      s.rest.drop (s.input.fread b).1.length := by
  simp [State.rest, FILE.fread]

/-- A round ends the loop, or it counts a full block. -/
theorem write_cases {buf : List Byte} {s s' : State} {phase : Phase}
    (h : write b c buf s = some (s', phase)) : s'.input = s.input ∧
      (phase = .finish ∨ phase = .read ∧ s'.counts =
        ⟨s.fullBlocksIn + 1, s.partialBlocksIn, s.fullBlocksOut + 1, s.partialBlocksOut,
          s.totalBytesCopied + b⟩) := by
  obtain ⟨⟨t, stops⟩, hround, hphase⟩ := Option.map_eq_some_iff.mp h
  obtain ⟨rfl, rfl⟩ := Prod.mk.inj hphase
  simp only [copyRound, Option.bind_eq_bind, Option.bind_eq_some_iff] at hround
  obtain ⟨n, -, hround⟩ := hround
  split at hround
  · obtain ⟨rfl, rfl⟩ := Prod.mk.inj (Option.some.inj hround)
    exact ⟨rfl, .inl rfl⟩
  · split at hround
    · obtain ⟨rfl, rfl⟩ := Prod.mk.inj (Option.some.inj hround)
      exact ⟨rfl, .inl rfl⟩
    · next hlength =>
      obtain ⟨rfl, rfl⟩ := Prod.mk.inj (Option.some.inj hround)
      exact ⟨rfl, .inr ⟨rfl, by simp [State.counts, not_not.mp hlength]⟩⟩

/-- Some rounds are left for what is to be read, and they do what the loop without signals does. -/
def Follows (b : ℕ) (c : ℤ) (N : ℕ) (s₀ : State) (p : Process) : Prop :=
  ∃ fuel, p.copying.rest.length < fuel ∧
    copyLoop b c N s₀ = resume b c fuel p.copying p.phase

theorem Follows.step (h : Follows b c N s₀ p) (hstep : p.next b c e = some p') :
    Follows b c N s₀ p' := by
  obtain ⟨fuel, hfuel, hloop⟩ := h
  cases e with
  | signal =>
    simp only [next] at hstep
    split at hstep
    · cases hstep
    · obtain rfl := Option.some.inj hstep
      exact ⟨fuel, hfuel, hloop⟩
  | step =>
    cases hphase : p.phase with
    | read =>
      simp only [next, hphase] at hstep
      obtain rfl := Option.some.inj hstep
      rw [hphase] at hloop
      obtain ⟨k, rfl⟩ := Nat.exists_eq_add_of_lt hfuel
      have hrest := length_rest_fread (b := b) p.copying
      simp only [resume, copyLoop_succ] at hloop
      by_cases hempty : (p.copying.input.fread b).1.length = 0
      · rw [if_pos hempty] at hloop
        refine ⟨p.copying.rest.length + k + 1, ?_, ?_⟩
        · simp only [hrest, List.length_drop]
          omega
        · simpa only [if_pos hempty, resume] using hloop
      · rw [if_neg hempty] at hloop
        refine ⟨p.copying.rest.length + k, ?_, ?_⟩
        · have hle : (p.copying.input.fread b).1.length ≤ p.copying.rest.length := by
            simp [FILE.fread, State.rest]
          simp only [hrest, List.length_drop]
          omega
        · simpa only [if_neg hempty, resume] using hloop
    | check buf =>
      simp only [next, hphase] at hstep
      obtain rfl := Option.some.inj hstep
      rw [hphase] at hloop
      have hcopying : (if p.flag then p.printReport else p).copying = p.copying := by
        split <;> rfl
      exact ⟨fuel, by rw [hcopying]; exact hfuel, by rw [hcopying]; exact hloop⟩
    | write buf =>
      simp only [next, hphase, Option.bind_eq_bind, Option.pure_def, Option.bind_eq_some_iff] at hstep
      obtain ⟨⟨s, phase⟩, hwrite, hp'⟩ := hstep
      obtain rfl := Option.some.inj hp'
      rw [hphase] at hloop
      obtain ⟨hinput, -⟩ := write_cases hwrite
      have hrest : s.rest = p.copying.rest := by rw [State.rest, hinput, State.rest]
      refine ⟨fuel, hrest ▸ hfuel, ?_⟩
      obtain ⟨⟨t, stops⟩, hround, hphase'⟩ := Option.map_eq_some_iff.mp hwrite
      obtain ⟨rfl, rfl⟩ := Prod.mk.inj hphase'
      rw [hloop, resume, hround]
      cases stops <;> rfl
    | finish =>
      simp only [next, hphase] at hstep
      obtain rfl := Option.some.inj hstep
      rw [hphase] at hloop
      exact ⟨fuel, hfuel, hloop⟩
    | done => simp [next, hphase] at hstep

/-! ## The reports -/

/-- The counts after `k` full blocks. -/
def fullCounts (b k : ℕ) : Counts := ⟨k, 0, k, 0, k * b⟩

/-- The reports but the last one, each after a number of full blocks. -/
structure Reports (b : ℕ) (es : List Event) (p : Process) (ks : List ℕ) : Prop where
  before : p.phase ≠ .done → p.reports = ks.map (fullCounts b)
  after : p.phase = .done → p.reports = ks.map (fullCounts b) ++ [p.copying.counts] ∧
    p.flag = false
  increasing : ks.Pairwise (· < ·)
  signals : ks.length + p.flag.toNat ≤ es.count .signal
  counts : p.phase ≠ .finish → p.phase ≠ .done →
    p.copying.counts = fullCounts b p.copying.fullBlocksIn
  le : p.phase ≠ .finish → p.phase ≠ .done → ∀ k ∈ ks, k ≤ p.copying.fullBlocksIn
  lt : p.phase = .read ∨ (∃ buf, p.phase = .check buf) → ∀ k ∈ ks, k < p.copying.fullBlocksIn

theorem Reports.init (h : s₀.counts = fullCounts b 0) : Reports b [] (start s₀) [] where
  before _ := rfl
  after hdone := by cases hdone
  increasing := .nil
  signals := le_rfl
  counts _ _ := by
    have hfull : s₀.fullBlocksIn = 0 := congrArg Counts.fullBlocksIn h
    simpa [start, hfull] using h
  le _ _ _ hk := by cases hk
  lt _ _ hk := by cases hk

theorem Reports.signal {ks : List ℕ} (h : Reports b es p ks) (hdone : p.phase ≠ .done) :
    Reports b (es ++ [.signal]) p.signalHandler ks where
  before := h.before
  after hd := absurd hd hdone
  increasing := h.increasing
  signals := by
    have hsignals := h.signals
    simp only [signalHandler, List.count_append, List.count_singleton_self, Bool.toNat_true]
    omega
  counts := h.counts
  le := h.le
  lt := h.lt

theorem count_step (es : List Event) : (es ++ [Event.step]).count .signal = es.count .signal := by
  simp

theorem Reports.read {ks : List ℕ} {s : State} {phase : Phase} (h : Reports b es p ks)
    (hread : p.phase = .read) (hcounts : s.counts = p.copying.counts) (hdone : phase ≠ .done) :
    Reports b (es ++ [.step]) { p with copying := s, phase := phase } ks := by
  have hfull : s.fullBlocksIn = p.copying.fullBlocksIn := congrArg Counts.fullBlocksIn hcounts
  have hlt := h.lt (.inl hread)
  refine ⟨fun _ ↦ h.before (by simp [hread]), fun hd ↦ absurd hd hdone, h.increasing, ?_, ?_,
    ?_, ?_⟩
  · rw [count_step]
    exact h.signals
  · intro _ _
    rw [hcounts, hfull]
    exact h.counts (by simp [hread]) (by simp [hread])
  · intro _ _ k hk
    rw [hfull]
    exact (hlt k hk).le
  · intro _ k hk
    rw [hfull]
    exact hlt k hk

/-- The test of the flag. -/
theorem Reports.check {ks : List ℕ} {buf : List Byte} (h : Reports b es p ks)
    (hcheck : p.phase = .check buf) :
    ∃ ks', Reports b (es ++ [.step])
      { (if p.flag then p.printReport else p) with phase := .write buf } ks' := by
  have hcounts := h.counts (by simp [hcheck]) (by simp [hcheck])
  have hlt := h.lt (.inr ⟨buf, hcheck⟩)
  have hbefore := h.before (by simp [hcheck])
  have hsignals := h.signals
  cases hflag : p.flag with
  | false =>
    refine ⟨ks, fun _ ↦ hbefore, by simp, h.increasing, ?_, fun _ _ ↦ hcounts,
      fun _ _ k hk ↦ (hlt k hk).le, by simp⟩
    rw [count_step]
    exact hsignals
  | true =>
    refine ⟨ks ++ [p.copying.fullBlocksIn], fun _ ↦ ?_, by simp, ?_, ?_, fun _ _ ↦ hcounts, ?_,
      by simp⟩
    · rw [List.map_append, ← hbefore, List.map_singleton, ← hcounts]
      rfl
    · apply List.pairwise_append.mpr
      exact ⟨h.increasing, List.pairwise_singleton _ _, by simpa using hlt⟩
    · rw [count_step, List.length_append, List.length_singleton]
      simpa [printReport, hflag] using hsignals
    · intro _ _ k hk
      rcases List.mem_append.mp hk with hk | hk
      · exact (hlt k hk).le
      · exact (List.mem_singleton.mp hk).le

theorem Reports.write {ks : List ℕ} {buf : List Byte} {s : State} {phase : Phase}
    (h : Reports b es p ks) (hphase : p.phase = .write buf)
    (hwrite : Process.write b c buf p.copying = some (s, phase)) :
    Reports b (es ++ [.step]) { p with copying := s, phase := phase } ks := by
  have hbefore := h.before (by simp [hphase])
  have hcounts := h.counts (by simp [hphase]) (by simp [hphase])
  have hle := h.le (by simp [hphase]) (by simp [hphase])
  obtain ⟨-, rfl | ⟨rfl, hnext⟩⟩ := write_cases hwrite
  · refine ⟨fun _ ↦ hbefore, by simp, h.increasing, ?_, by simp, by simp, by simp⟩
    rw [count_step]
    exact h.signals
  · have hfull : s.fullBlocksIn = p.copying.fullBlocksIn + 1 := congrArg Counts.fullBlocksIn hnext
    have hlt : ∀ k ∈ ks, k < s.fullBlocksIn := by
      intro k hk
      rw [hfull]
      exact Nat.lt_succ_of_le (hle k hk)
    refine ⟨fun _ ↦ hbefore, by simp, h.increasing, ?_, fun _ _ ↦ ?_,
      fun _ _ k hk ↦ (hlt k hk).le, fun _ ↦ hlt⟩
    · rw [count_step]
      exact h.signals
    · simp only [State.counts, fullCounts, Counts.mk.injEq] at hcounts hnext ⊢
      obtain ⟨-, hpartial, hout, hpartialOut, htotal⟩ := hcounts
      obtain ⟨-, hpartial', hout', hpartialOut', htotal'⟩ := hnext
      refine ⟨trivial, hpartial'.trans hpartial, ?_, hpartialOut'.trans hpartialOut, ?_⟩
      · rw [hout', hout, hfull]
      · rw [htotal', htotal, hfull, Nat.succ_mul]

theorem Reports.finish {ks : List ℕ} (h : Reports b es p ks) (hphase : p.phase = .finish) :
    Reports b (es ++ [.step]) { p.printReport with phase := .done } ks where
  before hne := absurd rfl hne
  after _ := by
    have hbefore := h.before (by simp [hphase])
    exact ⟨by rw [← hbefore]; rfl, rfl⟩
  increasing := h.increasing
  signals := by
    rw [count_step]
    exact (Nat.le_add_right _ _).trans h.signals
  counts _ hne := absurd rfl hne
  le _ hne := absurd rfl hne
  lt := by simp

theorem Reports.step {ks : List ℕ} (h : Reports b es p ks) (hstep : p.next b c e = some p') :
    ∃ ks', Reports b (es ++ [e]) p' ks' := by
  cases e with
  | signal =>
    simp only [next] at hstep
    split at hstep
    · cases hstep
    · obtain rfl := Option.some.inj hstep
      exact ⟨ks, h.signal ‹_›⟩
  | step =>
    cases hphase : p.phase with
    | read =>
      simp only [next, hphase] at hstep
      obtain rfl := Option.some.inj hstep
      refine ⟨ks, h.read hphase rfl ?_⟩
      split <;> simp
    | check buf =>
      simp only [next, hphase] at hstep
      obtain rfl := Option.some.inj hstep
      exact h.check hphase
    | write buf =>
      simp only [next, hphase, Option.bind_eq_bind, Option.pure_def, Option.bind_eq_some_iff] at hstep
      obtain ⟨⟨s, phase⟩, hwrite, hp'⟩ := hstep
      obtain rfl := Option.some.inj hp'
      exact ⟨ks, h.write hphase hwrite⟩
    | finish =>
      simp only [next, hphase] at hstep
      obtain rfl := Option.some.inj hstep
      exact ⟨ks, h.finish hphase⟩
    | done => simp [next, hphase] at hstep

theorem length_rest_start (settings : Settings) (input : List Byte) :
    (settings.start input).rest.length < input.length + 1 := by
  apply Nat.lt_succ_of_le
  simp only [Settings.start, State.rest]
  split <;> simp [FILE.fseek]

/-- Signals at any time leave the copy alone.  Each is answered, at most once, by a report on full
blocks that were copied since the report before, and the last report is that of the copy. -/
theorem reports_consistent {settings : Settings} {input : List Byte}
    (hrun : Run (StepOf (next settings.blockSize settings.copyBlock))
      (start (settings.start input)) es p) :
    (p.phase = .done → copyLoop settings.blockSize settings.copyBlock (input.length + 1)
      (settings.start input) = some p.copying) ∧
    ∃ ks : List ℕ, ks.Pairwise (· < ·) ∧ ks.length ≤ es.count .signal ∧
      (p.phase ≠ .done → p.reports = ks.map (fullCounts settings.blockSize)) ∧
      (p.phase = .done → p.flag = false ∧
        p.reports = ks.map (fullCounts settings.blockSize) ++ [p.copying.counts]) := by
  constructor
  · intro hdone
    have hfollows : Follows settings.blockSize settings.copyBlock (input.length + 1)
        (settings.start input) p := hrun.invariant (fun _ _ _ h hstep ↦ h.step hstep)
      ⟨input.length + 1, length_rest_start settings input, rfl⟩
    obtain ⟨fuel, -, hloop⟩ := hfollows
    rw [hdone] at hloop
    exact hloop
  · have hreports : ∃ ks, Reports settings.blockSize es p ks := by
      induction hrun with
      | nil => exact ⟨[], .init (by simp [State.counts, Settings.start, fullCounts])⟩
      | snoc _ hlast ih =>
        obtain ⟨ks, h⟩ := ih
        exact h.step hlast
    obtain ⟨ks, h⟩ := hreports
    exact ⟨ks, h.increasing, (Nat.le_add_right _ _).trans h.signals, h.before,
      fun hdone ↦ (h.after hdone).symm⟩

/-- Two signals in a copy of two blocks give one report before the last. -/
theorem reports_consistent_two_blocks : ∃ p : Process,
    Run (StepOf (next 2 (-1))) (start (Settings.start ⟨-1, 2, 0, 0⟩ [1, 2, 3]))
      [.step, .step, .step, .signal, .signal, .step, .step, .step, .step] p ∧
    p.phase = .done ∧ p.flag = false ∧ p.reports = [⟨1, 0, 1, 0, 2⟩, ⟨1, 1, 1, 1, 3⟩] ∧
    copyLoop 2 (-1) 4 (Settings.start ⟨-1, 2, 0, 0⟩ [1, 2, 3]) = some p.copying := by
  let settings : Settings := ⟨-1, 2, 0, 0⟩
  have hexec : (execute (next 2 (-1)) (start (settings.start [1, 2, 3]))
      [.step, .step, .step, .signal, .signal, .step, .step, .step, .step]).map
        (fun p ↦ (p.phase, p.reports)) =
      some (.done, [⟨1, 0, 1, 0, 2⟩, ⟨1, 1, 1, 1, 3⟩]) := by decide +kernel
  obtain ⟨p, hp, hfields⟩ := Option.map_eq_some_iff.mp hexec
  obtain ⟨hdone, hreports⟩ := Prod.mk.inj hfields
  have hrun : Run (StepOf (next settings.blockSize settings.copyBlock))
      (start (settings.start [1, 2, 3])) _ p := Run.execute_eq_some_iff.mp hp
  obtain ⟨hcopy, ks, -, -, -, hend⟩ := reports_consistent hrun
  exact ⟨p, hrun, hdone, (hend hdone).1, hreports, hcopy hdone⟩

end Process

end SystemProgramming.DeepfriedDd
