import SystemProgramming.Lib.Runs

/-!
# Processes that are connected by pipes

A process reads one pipe and writes another.  A reader waits at an empty pipe as long as a process
that is left holds a write end, and a writer waits at a full one.
-/

namespace SystemProgramming.PipeNetwork

variable {ι π β σ : Type*}

/-- What a process does next. -/
inductive Action (β σ : Type*)
  | read (next : Option β → σ)
  | write (b : β) (next : σ)
  | compute (next : σ)
  | exit

/-- How the processes are connected, and their programs.  A process whose output is no pipe
writes a file, and one whose input is no pipe reads the end of a file. -/
structure Network (ι π β σ : Type*) where
  input : ι → Option π
  output : ι → Option π
  Holds : ι → π → Prop
  capacity : ℕ
  program : ι → σ → Action β σ

/-- What is in a pipe is marked with its writer. -/
structure State (ι π β σ : Type*) where
  memory : ι → σ
  living : ι → Bool
  contents : π → List (ι × β)

inductive Event (ι π β : Type*)
  | read (i : ι) (pipe : π) (b : ι × β)
  | endOfFile (i : ι)
  | write (i : ι) (pipe : π) (b : β)
  | writeFile (i : ι) (b : β)
  | compute (i : ι)
  | exit (i : ι)

namespace Event

def process : Event ι π β → ι
  | read i _ _ | endOfFile i | write i _ _ | writeFile i _ | compute i | exit i => i

end Event

variable [DecidableEq ι] [DecidableEq π]

namespace State

def setMemory (s : State ι π β σ) (i : ι) (memory : σ) : State ι π β σ :=
  { s with memory := Function.update s.memory i memory }

def setContents (s : State ι π β σ) (pipe : π) (contents : List (ι × β)) : State ι π β σ :=
  { s with contents := Function.update s.contents pipe contents }

end State

/-- The input of `i` has come to its end. -/
def AtEnd (N : Network ι π β σ) (s : State ι π β σ) (i : ι) : Prop :=
  ∀ pipe, N.input i = some pipe → s.contents pipe = [] ∧
    ∀ j, s.living j = true → ¬ N.Holds j pipe

inductive Step (N : Network ι π β σ) : State ι π β σ → Event ι π β → State ι π β σ → Prop
  | read {s : State ι π β σ} {i : ι} {next : Option β → σ} {pipe : π} {b : ι × β}
      {rest : List (ι × β)} : s.living i = true → N.program i (s.memory i) = .read next →
      N.input i = some pipe → s.contents pipe = b :: rest →
      Step N s (.read i pipe b) ((s.setContents pipe rest).setMemory i (next (some b.2)))
  | endOfFile {s : State ι π β σ} {i : ι} {next : Option β → σ} : s.living i = true →
      N.program i (s.memory i) = .read next → AtEnd N s i →
      Step N s (.endOfFile i) (s.setMemory i (next none))
  | write {s : State ι π β σ} {i : ι} {next : σ} {pipe : π} {b : β} : s.living i = true →
      N.program i (s.memory i) = .write b next → N.output i = some pipe →
      (s.contents pipe).length < N.capacity →
      Step N s (.write i pipe b)
        ((s.setContents pipe (s.contents pipe ++ [(i, b)])).setMemory i next)
  | writeFile {s : State ι π β σ} {i : ι} {next : σ} {b : β} : s.living i = true →
      N.program i (s.memory i) = .write b next → N.output i = none →
      Step N s (.writeFile i b) (s.setMemory i next)
  | compute {s : State ι π β σ} {i : ι} {next : σ} : s.living i = true →
      N.program i (s.memory i) = .compute next → Step N s (.compute i) (s.setMemory i next)
  | exit {s : State ι π β σ} {i : ι} : s.living i = true → N.program i (s.memory i) = .exit →
      Step N s (.exit i) { s with living := Function.update s.living i false }

/-! ## Nothing is lost -/

/-- What has been read from a pipe, with the writers. -/
def readFrom (pipe : π) (es : List (Event ι π β)) : List (ι × β) :=
  es.filterMap fun
    | .read _ p b => if p = pipe then some b else none
    | _ => none

def writtenTo (pipe : π) (es : List (Event ι π β)) : List (ι × β) :=
  es.filterMap fun
    | .write i p b => if p = pipe then some (i, b) else none
    | _ => none

variable {N : Network ι π β σ} {s s' : State ι π β σ} {es : List (Event ι π β)}
  {e : Event ι π β} {i j : ι} {pipe : π}

omit [DecidableEq ι] in
theorem readFrom_snoc (e : Event ι π β) :
    readFrom pipe (es ++ [e]) = readFrom pipe es ++ readFrom pipe [e] := List.filterMap_append

omit [DecidableEq ι] in
theorem writtenTo_snoc (e : Event ι π β) :
    writtenTo pipe (es ++ [e]) = writtenTo pipe es ++ writtenTo pipe [e] := List.filterMap_append

theorem Step.contents (h : Step N s e s') (pipe : π) :
    readFrom pipe [e] ++ s'.contents pipe = s.contents pipe ++ writtenTo pipe [e] := by
  cases h with
  | @read i next p b rest _ _ _ hcontents =>
    rcases eq_or_ne pipe p with rfl | hne
    · simp [readFrom, writtenTo, State.setMemory, State.setContents, hcontents]
    · simp [readFrom, writtenTo, State.setMemory, State.setContents, hne, hne.symm]
  | @write i next p b _ _ _ _ =>
    rcases eq_or_ne pipe p with rfl | hne
    · simp [readFrom, writtenTo, State.setMemory, State.setContents]
    · simp [readFrom, writtenTo, State.setMemory, State.setContents, hne, hne.symm]
  | _ => simp [readFrom, writtenTo, State.setMemory]

/-- What has been written to a pipe has been read from it or is still in it, in this order. -/
theorem readFrom_append_contents (hrun : Run (Step N) s es s') (hs : s.contents pipe = []) :
    readFrom pipe es ++ s'.contents pipe = writtenTo pipe es := by
  induction hrun with
  | nil => simpa [readFrom, writtenTo] using hs
  | snoc _ hlast ih =>
    rw [readFrom_snoc, writtenTo_snoc, List.append_assoc, hlast.contents, ← List.append_assoc, ih]

/-- What a process has written to pipes. -/
def writtenBy (i : ι) (es : List (Event ι π β)) : List β :=
  es.filterMap fun
    | .write j _ b => if j = i then some b else none
    | _ => none

omit [DecidableEq π] in
theorem writtenBy_snoc (e : Event ι π β) :
    writtenBy i (es ++ [e]) = writtenBy i es ++ writtenBy i [e] := List.filterMap_append

/-- The writers of a pipe are the processes whose output it is. -/
theorem output_of_mem_writtenTo (hrun : Run (Step N) s es s') {b : ι × β}
    (hb : b ∈ writtenTo pipe es) : N.output b.1 = some pipe := by
  induction hrun with
  | nil => cases hb
  | snoc _ hlast ih =>
    rw [writtenTo_snoc] at hb
    rcases List.mem_append.mp hb with hb | hb
    · exact ih hb
    · cases hlast with
      | @write k next p c _ _ houtput _ =>
        rcases eq_or_ne p pipe with rfl | hne
        · obtain rfl : b = (k, c) := by simpa [writtenTo] using hb
          exact houtput
        · simp [writtenTo, hne] at hb
      | _ => simp [writtenTo] at hb

/-- A process writes to the pipe that is its output. -/
theorem writtenBy_eq (hrun : Run (Step N) s es s') (houtput : N.output i = some pipe) :
    writtenBy i es = ((writtenTo pipe es).filter fun b ↦ b.1 = i).map Prod.snd := by
  induction hrun with
  | nil => rfl
  | snoc _ hlast ih =>
    rw [writtenBy_snoc, writtenTo_snoc, List.filter_append, List.map_append, ih]
    congr 1
    cases hlast with
    | @write k next p c _ _ houtput' _ =>
      rcases eq_or_ne k i with rfl | hne
      · obtain rfl : p = pipe := Option.some.inj (houtput'.symm.trans houtput)
        simp [writtenBy, writtenTo]
      · by_cases hp : p = pipe <;> simp [writtenBy, writtenTo, hne, hp]
    | _ => rfl

/-! ## Programs that read their input to the end -/

/-- `Ended` are the memories behind the end of the input, and no process exits before it has come
to one of them. -/
structure ReadsToEnd (N : Network ι π β σ) (Ended : ι → σ → Prop) : Prop where
  exit : ∀ i m, N.program i m = .exit → Ended i m
  compute : ∀ i m next, N.program i m = .compute next → Ended i next → Ended i m
  write : ∀ i m b next, N.program i m = .write b next → Ended i next → Ended i m
  read : ∀ i m next b, N.program i m = .read next → Ended i (next (some b)) → Ended i m

/-- Who has come behind the end of the input, or has exited, has found it. -/
structure Inv (N : Network ι π β σ) (Ended : ι → σ → Prop) (s : State ι π β σ) : Prop where
  ended : ∀ i, Ended i (s.memory i) → AtEnd N s i
  exited : ∀ i, s.living i = false → AtEnd N s i

/-- The end of an input is final, if the writers hold write ends. -/
theorem AtEnd.step (hholds : ∀ j pipe, N.output j = some pipe → N.Holds j pipe)
    (h : AtEnd N s i) (hstep : Step N s e s') : AtEnd N s' i := by
  intro pipe hpipe
  obtain ⟨hempty, hnobody⟩ := h pipe hpipe
  cases hstep with
  | @read k next p b rest _ _ _ hcontents =>
    have hne : pipe ≠ p := by
      rintro rfl
      rw [hempty] at hcontents
      cases hcontents
    exact ⟨by simpa [State.setMemory, State.setContents, hne] using hempty, hnobody⟩
  | endOfFile => exact ⟨hempty, hnobody⟩
  | @write k next p b hliving _ houtput _ =>
    have hne : pipe ≠ p := by
      rintro rfl
      exact hnobody k hliving (hholds k pipe houtput)
    exact ⟨by simpa [State.setMemory, State.setContents, hne] using hempty, hnobody⟩
  | writeFile => exact ⟨hempty, hnobody⟩
  | compute => exact ⟨hempty, hnobody⟩
  | @exit k _ _ =>
    refine ⟨hempty, fun j hj ↦ hnobody j ?_⟩
    rcases eq_or_ne j k with rfl | hne
    · simp at hj
    · simpa [hne] using hj

variable {Ended : ι → σ → Prop}

theorem Inv.of_memory {memory : σ} (h : Inv N Ended s)
    (hholds : ∀ j pipe, N.output j = some pipe → N.Holds j pipe) (hstep : Step N s e s')
    (hmemory : s'.memory = Function.update s.memory i memory) (hliving : s'.living = s.living)
    (hended : Ended i memory → AtEnd N s i) : Inv N Ended s' where
  ended := by
    intro j hj
    rw [hmemory] at hj
    rcases eq_or_ne j i with rfl | hne
    · rw [Function.update_self] at hj
      exact (hended hj).step hholds hstep
    · rw [Function.update_of_ne hne] at hj
      exact (h.ended j hj).step hholds hstep
  exited := by
    intro j hj
    rw [hliving] at hj
    exact (h.exited j hj).step hholds hstep

theorem Inv.step (hholds : ∀ j pipe, N.output j = some pipe → N.Holds j pipe)
    (hends : ReadsToEnd N Ended) (h : Inv N Ended s) (hstep : Step N s e s') :
    Inv N Ended s' := by
  have hstep' := hstep
  cases hstep with
  | @read i next p b rest _ hprogram _ _ =>
    exact h.of_memory hholds hstep' rfl rfl fun hended ↦
      h.ended i (hends.read i _ next b.2 hprogram hended)
  | endOfFile _ _ hend => exact h.of_memory hholds hstep' rfl rfl fun _ ↦ hend
  | @write i next p b _ hprogram _ _ =>
    exact h.of_memory hholds hstep' rfl rfl fun hended ↦
      h.ended i (hends.write i _ b next hprogram hended)
  | @writeFile i next b _ hprogram _ =>
    exact h.of_memory hholds hstep' rfl rfl fun hended ↦
      h.ended i (hends.write i _ b next hprogram hended)
  | @compute i next _ hprogram =>
    exact h.of_memory hholds hstep' rfl rfl fun hended ↦
      h.ended i (hends.compute i _ next hprogram hended)
  | @exit i _ hprogram =>
    have hend : AtEnd N s i := h.ended i (hends.exit i _ hprogram)
    refine ⟨fun j hj ↦ (h.ended j hj).step hholds hstep', fun j hj ↦ ?_⟩
    rcases eq_or_ne j i with rfl | hne
    · exact hend.step hholds hstep'
    · exact (h.exited j (by simpa [hne] using hj)).step hholds hstep'

/-! ## No deadlock -/

/-- A process that cannot go on waits at its pipes. -/
theorem blocked_cases (hi : s.living i = true)
    (hblocked : ∀ e s', e.process = i → ¬ Step N s e s') :
    (∃ pipe, N.input i = some pipe ∧ s.contents pipe = [] ∧
      ∃ j, s.living j = true ∧ N.Holds j pipe) ∨
    ∃ pipe, N.output i = some pipe ∧ N.capacity ≤ (s.contents pipe).length := by
  cases hprogram : N.program i (s.memory i) with
  | exit => exact absurd (.exit hi hprogram) (hblocked _ _ rfl)
  | compute next => exact absurd (.compute hi hprogram) (hblocked _ _ rfl)
  | write b next =>
    right
    cases houtput : N.output i with
    | none => exact absurd (.writeFile hi hprogram houtput) (hblocked _ _ rfl)
    | some pipe =>
      refine ⟨pipe, rfl, ?_⟩
      by_contra hlt
      exact hblocked _ _ rfl (.write hi hprogram houtput (lt_of_not_ge hlt))
  | read next =>
    left
    have hnot : ¬ AtEnd N s i := fun hend ↦ hblocked _ _ rfl (.endOfFile hi hprogram hend)
    simp only [AtEnd] at hnot
    push Not at hnot
    obtain ⟨pipe, hinput, hpipe⟩ := hnot
    cases hcontents : s.contents pipe with
    | nil => exact ⟨pipe, hinput, hcontents, hpipe hcontents⟩
    | cons b rest => exact absurd (.read hi hprogram hinput hcontents) (hblocked _ _ rfl)

/-- Along the pipes the processes are ranked, every pipe that is written is read, and there is room
in it.  Then some process can go on as long as one is left: a writer waits for a reader of
higher rank, which does not wait for its input, and a reader for a writer of lower rank. -/
theorem exists_step (rank : ι → ℕ) (hcapacity : 0 < N.capacity)
    (hholds : ∀ j pipe, N.output j = some pipe → N.Holds j pipe)
    (hrank : ∀ i j pipe, N.input i = some pipe → N.Holds j pipe → rank j < rank i)
    (hreader : ∀ j pipe, N.output j = some pipe → ∃ i, N.input i = some pipe)
    (hbounded : ∃ bound, ∀ i, s.living i = true → rank i < bound)
    (h : Inv N Ended s) (hi : s.living i = true) : ∃ e s', Step N s e s' := by
  by_contra hnone
  push Not at hnone
  have hblocked {i : ι} (hi : s.living i = true) := blocked_cases hi fun e s' _ ↦ hnone e s'
  -- nobody waits at a full pipe, from the highest rank downwards
  have hwrites : ∀ n i, s.living i = true → (∀ j, s.living j = true → rank j < rank i + n) →
      ∀ pipe, N.output i = some pipe → (s.contents pipe).length < N.capacity := by
    intro n
    induction n with
    | zero =>
      intro i hi hmax
      exact absurd (hmax i hi) (lt_irrefl _)
    | succ n ih =>
      intro i hi hmax pipe houtput
      by_contra hfull
      rw [not_lt] at hfull
      obtain ⟨k, hk⟩ := hreader i pipe houtput
      have hlt : rank i < rank k := hrank k i pipe hk (hholds i pipe houtput)
      have hliving : s.living k = true := by
        by_contra hdead
        have hend := h.exited k (by simpa using hdead) pipe hk
        exact hend.2 i hi (hholds i pipe houtput)
      rcases hblocked hliving with ⟨pipe', hinput, hempty, -⟩ | ⟨pipe', houtput', hfull'⟩
      · obtain rfl : pipe = pipe' := Option.some.inj (hk.symm.trans hinput)
        rw [hempty, List.length_nil] at hfull
        omega
      · have hroom := ih k hliving (fun j hj ↦ by have := hmax j hj; omega) pipe' houtput'
        omega
  obtain ⟨bound, hbound⟩ := hbounded
  have hreads : ∀ n i, s.living i = true → rank i ≠ n := by
    intro n
    induction n using Nat.strong_induction_on with
    | _ n ih =>
      rintro i hi rfl
      rcases hblocked hi with ⟨pipe, hinput, -, j, hj, hhold⟩ | ⟨pipe, houtput, hfull⟩
      · exact ih (rank j) (hrank i j pipe hinput hhold) j hj rfl
      · have hroom := hwrites bound i hi (fun j hj ↦ (hbound j hj).trans_le (Nat.le_add_left _ _))
          pipe houtput
        omega
  exact hreads (rank i) i hi rfl

/-- When a reader has exited, what has been written to its pipe has been read. -/
theorem readFrom_eq_writtenTo {s₀ : State ι π β σ} (hrun : Run (Step N) s₀ es s)
    (hempty : s₀.contents pipe = []) (h : Inv N Ended s) (hinput : N.input i = some pipe)
    (hexited : s.living i = false) : readFrom pipe es = writtenTo pipe es := by
  have hcontents := readFrom_append_contents hrun hempty
  rwa [(h.exited i hexited pipe hinput).1, List.append_nil] at hcontents

end SystemProgramming.PipeNetwork
