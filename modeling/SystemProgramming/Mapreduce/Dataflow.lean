import SystemProgramming.Lib.PipeNetwork
import SystemProgramming.Mapreduce.Pipes

/-!
# The data through the pipes

The splitters, the mappers and the reducer at work, connected as `main` has left their descriptors.
The programs are any ones; the mappers and the reducer read their input to the end.
-/

namespace SystemProgramming.Mapreduce

open PipeNetwork

variable {F β σ : Type*}

/-- The pipe behind the standard input. -/
def stdin (t : FdTable (File F)) : Option Pipe :=
  match t.lookup 0 with
  | some (.readEnd pipe) => some pipe
  | _ => none

/-- The pipe behind the standard output. -/
def stdout (t : FdTable (File F)) : Option Pipe :=
  match t.lookup 1 with
  | some (.writeEnd pipe) => some pipe
  | _ => none

def network (started : FdTable F) (mapperCount capacity : ℕ)
    (program : Process → σ → PipeNetwork.Action β σ) : Network Process Pipe β σ where
  input
    | .parent | .splitter _ => none
    | p => (startUp started mapperCount p).bind stdin
  output p := (startUp started mapperCount p).bind stdout
  Holds := HoldsWriteEnd started mapperCount
  capacity := capacity
  program := program

/-- The parent only waits for the others.  A process that is not started yet has not moved: the
writers of a pipe are started before its reader. -/
def launch (mapperCount : ℕ) (memory : Process → σ) : State Process Pipe β σ where
  memory := memory
  living
    | .parent => false
    | .splitter i | .mapper i => decide (i < mapperCount)
    | .reducer => true
  contents _ := []

variable {started : FdTable F} {n capacity i : ℕ}
  {program : Process → σ → PipeNetwork.Action β σ} {p : Process} {pipe : Pipe}

theorem stdin_eq_some_iff {t : FdTable (File F)} :
    stdin t = some pipe ↔ t.lookup 0 = some (.readEnd pipe) := by
  rw [stdin]
  split <;> simp_all

theorem stdout_eq_some_iff {t : FdTable (File F)} :
    stdout t = some pipe ↔ t.lookup 1 = some (.writeEnd pipe) := by
  rw [stdout]
  split <;> simp_all

theorem input_eq_some_iff : (network started n capacity program).input p = some pipe ↔
    Reads started n p pipe := by
  cases p with
  | parent => simp [network, Reads]
  | splitter i => simp [network, Reads]
  | mapper i => simp [network, Reads, Option.bind_eq_some_iff, stdin_eq_some_iff]
  | reducer => simp [network, Reads, Option.bind_eq_some_iff, stdin_eq_some_iff]

theorem holds_of_output (h : (network started n capacity program).output p = some pipe) :
    HoldsWriteEnd started n p pipe := by
  obtain ⟨t, ht, hout⟩ := Option.bind_eq_some_iff.mp h
  exact ⟨t, ht, 1, stdout_eq_some_iff.mp hout⟩

theorem output_splitter (hi : i < n) :
    (network started n capacity program).output (.splitter i) = some (.mapper i) := by
  have h := openAll_spec started n
  have ht : startUp started n (.splitter i) = some ((openAll (started.map .inherited) n).1.splitter
      (openAll (started.map .inherited) n).2 i) := by
    simp [startUp, hi]
  refine Option.bind_eq_some_iff.mpr ⟨_, ht, stdout_eq_some_iff.mpr ?_⟩
  rw [Descriptors.splitter, FdTable.lookup_dup2_self, FdTable.lookup_close_iff]
  refine ⟨fun heq ↦ ?_, (h.mapperWrite _ i).mpr ⟨hi, rfl⟩⟩
  have hread := h.mapperRead i hi
  rw [← heq, (h.mapperWrite _ i).mpr ⟨hi, rfl⟩] at hread
  cases hread

/-- With a mapper, the descriptors 0 and 1 are open before the pipe of the reducer. -/
theorem reducerPipe_ne (hn : 0 < n) :
    (openAll (started.map File.inherited) n).1.reducerPipe.1 ≠ 1 ∧
      (openAll (started.map File.inherited) n).1.reducerPipe.2 ≠ 0 := by
  obtain ⟨k, rfl⟩ := Nat.exists_eq_succ_of_ne_zero hn.ne'
  set t := (openMapperPipes (started.map File.inherited) (k + 1)).2 with ht
  have hone : t.lookup 1 ≠ none := FdTable.lookup_openFile_openFile_one
  constructor
  · intro heq
    have hlowest : t.lookup t.lowest = none := FdTable.lookup_lowest
    exact hone (heq ▸ hlowest)
  · intro heq
    have hlowest : (t.openFile (.readEnd .reducer)).2.lookup
        (t.openFile (.readEnd .reducer)).2.lowest = none := FdTable.lookup_lowest
    have hzero : (t.openFile (.readEnd .reducer)).2.lowest = 0 := heq
    rw [hzero] at hlowest
    exact FdTable.lookup_openFile_zero hlowest

theorem output_mapper (hi : i < n) :
    (network started n capacity program).output (.mapper i) = some .reducer := by
  have h := openAll_spec started n
  obtain ⟨hread, hwrite⟩ := reducerPipe_ne (F := F) (by omega : 0 < n)
  have ht : startUp started n (.mapper i) = some ((openAll (started.map .inherited) n).1.mapper
      (openAll (started.map .inherited) n).2 i) := by
    simp [startUp, hi]
  refine Option.bind_eq_some_iff.mpr ⟨_, ht, stdout_eq_some_iff.mpr ?_⟩
  rw [Descriptors.mapper, FdTable.lookup_close_iff, FdTable.lookup_dup2_self,
    FdTable.lookup_dup2_of_ne hwrite, lookup_closeMapperPipes_iff]
  refine ⟨hread.symm, (h.reducerWrite _).mpr rfl, fun j hj heq ↦ ?_⟩
  have hmapper := (h.mapperWrite _ j).mpr ⟨by omega, heq⟩
  rw [(h.reducerWrite _).mpr rfl] at hmapper
  cases hmapper

theorem HoldsWriteEnd.lt (h : HoldsWriteEnd started n p (.mapper i)) : i < n := by
  have hopened := openAll_spec started n
  obtain ⟨t, ht, hold⟩ := h
  unfold startUp at ht
  cases p with
  | parent =>
    cases ht
    exact absurd hold hopened.not_holds_parent
  | reducer =>
    cases ht
    exact absurd hold hopened.not_holds_reducer
  | splitter j =>
    obtain ⟨-, heq⟩ := Option.ite_none_right_eq_some.mp ht
    cases heq
    obtain ⟨fd, hfd⟩ := hold.of_dup2.of_close
    exact ((hopened.mapperWrite fd i).mp hfd).1
  | mapper j =>
    obtain ⟨-, heq⟩ := Option.ite_none_right_eq_some.mp ht
    cases heq
    exact (hopened.holds_closeMapperPipes hold.of_close.of_dup2.of_dup2).2

/-- Every pipe that is written has its reader. -/
theorem exists_reader (h : (network started n capacity program).output p = some pipe) :
    ∃ q, (network started n capacity program).input q = some pipe := by
  cases pipe with
  | mapper i =>
    have hi := (holds_of_output h).lt
    exact ⟨.mapper i, input_eq_some_iff.mpr (reads_iff.mpr (.inl ⟨i, hi, rfl, rfl⟩))⟩
  | reducer => exact ⟨.reducer, input_eq_some_iff.mpr (reads_iff.mpr (.inr ⟨rfl, rfl⟩))⟩

section

variable {memory : Process → σ} {Ended : Process → σ → Prop}
  {es : List (Event Process Pipe β)} {s : State Process Pipe β σ}

theorem inv_of_run (hends : ReadsToEnd (network started n capacity program) Ended)
    (hmappers : ∀ i, ¬ Ended (.mapper i) (memory (.mapper i)))
    (hreducer : ¬ Ended .reducer (memory .reducer))
    (hrun : Run (Step (network started n capacity program)) (launch n memory) es s) :
    Inv (network started n capacity program) Ended s := by
  refine hrun.invariant (I := Inv _ Ended)
    (fun _ _ _ h hstep ↦ h.step (fun _ _ ↦ holds_of_output) hends hstep) ⟨?_, ?_⟩
  · intro p hp pipe hpipe
    rcases reads_iff.mp (input_eq_some_iff.mp hpipe) with ⟨j, -, rfl, -⟩ | ⟨rfl, -⟩
    · exact absurd hp (hmappers j)
    · exact absurd hp hreducer
  · intro p hp pipe hpipe
    rcases reads_iff.mp (input_eq_some_iff.mp hpipe) with ⟨j, hj, rfl, -⟩ | ⟨rfl, -⟩
    · simp [launch, hj] at hp
    · simp [launch] at hp

theorem living_launch
    (hrun : Run (Step (network started n capacity program)) (launch n memory) es s)
    (hp : s.living p = true) : (launch n memory : State Process Pipe β σ).living p = true := by
  induction hrun with
  | nil => exact hp
  | snoc _ hlast ih =>
    apply ih
    cases hlast with
    | @exit q _ _ =>
      rcases eq_or_ne p q with rfl | hne
      · simp at hp
      · simpa [hne] using hp
    | _ => exact hp

theorem rank_lt_of_living
    (hrun : Run (Step (network started n capacity program)) (launch n memory) es s)
    (hp : s.living p = true) : rank n p < n + 2 := by
  have hlaunch := living_launch hrun hp
  cases p with
  | mapper i =>
    have hi : i < n := by simpa [launch] using hlaunch
    simp only [rank]
    omega
  | _ => simp [rank]

theorem eq_splitter_of_output
    (h : (network started n capacity program).output p = some (.mapper i)) : p = .splitter i := by
  rcases (holds_of_output h).process with ⟨k, hk, rfl⟩ | ⟨k, hk, rfl, -⟩
  · rw [output_splitter hk] at h
    obtain rfl : k = i := by simpa using h
    rfl
  · rw [output_mapper hk] at h
    cases h

/-- Whatever the programs do and however little fits into a pipe, if the mappers and the reducer
read their input to the end: the processes never block each other, each mapper reads what its
splitter has written, and the reducer what the mappers have, each in its order.  The reducer
is the last one to exit. -/
theorem mapreduce_delivers (hcapacity : 0 < capacity)
    (hends : ReadsToEnd (network started n capacity program) Ended)
    (hmappers : ∀ i, ¬ Ended (.mapper i) (memory (.mapper i)))
    (hreducer : ¬ Ended .reducer (memory .reducer))
    (hrun : Run (Step (network started n capacity program)) (launch n memory) es s) :
    ((∃ p, s.living p = true) → ∃ e s', Step (network started n capacity program) s e s') ∧
    (∀ i < n, s.living (.mapper i) = false →
      (readFrom (.mapper i) es).map Prod.snd = writtenBy (.splitter i) es) ∧
    (s.living .reducer = false → (∀ p, s.living p = false) ∧ ∀ i < n,
      ((readFrom .reducer es).filter fun b ↦ b.1 = .mapper i).map Prod.snd =
        writtenBy (.mapper i) es) := by
  have h := inv_of_run hends hmappers hreducer hrun
  refine ⟨?_, ?_, ?_⟩
  · rintro ⟨p, hp⟩
    refine exists_step (rank n) hcapacity (fun _ _ ↦ holds_of_output) ?_
      (fun _ _ ↦ exists_reader) ⟨n + 2, fun q hq ↦ rank_lt_of_living hrun hq⟩ h hp
    intro q r pipe hinput hhold
    exact WaitsFor.rank_lt ⟨pipe, input_eq_some_iff.mp hinput, hhold⟩
  · intro i hi hexited
    have hinput : (network started n capacity program).input (.mapper i) = some (.mapper i) :=
      input_eq_some_iff.mpr (reads_iff.mpr (.inl ⟨i, hi, rfl, rfl⟩))
    rw [readFrom_eq_writtenTo hrun rfl h hinput hexited, writtenBy_eq hrun (output_splitter hi),
      List.filter_eq_self.mpr]
    intro b hb
    simpa using eq_splitter_of_output (output_of_mem_writtenTo hrun hb)
  · intro hexited
    have hinput : (network started n capacity program).input .reducer = some .reducer :=
      input_eq_some_iff.mpr (reads_iff.mpr (.inr ⟨rfl, rfl⟩))
    have hmapper : ∀ i < n, s.living (.mapper i) = false := by
      intro i hi
      have houtput : (network started n capacity program).output (.mapper i) = some .reducer :=
        output_mapper hi
      simpa using fun hliving ↦ (h.exited .reducer hexited _ hinput).2 (.mapper i) hliving
        (holds_of_output houtput)
    refine ⟨fun p ↦ ?_, fun i hi ↦ ?_⟩
    · by_contra hliving
      rw [Bool.not_eq_false] at hliving
      have hlaunch := living_launch hrun hliving
      cases p with
      | parent => cases hlaunch
      | reducer => simp [hexited] at hliving
      | mapper i =>
        have hi : i < n := by simpa [launch] using hlaunch
        simp [hmapper i hi] at hliving
      | splitter i =>
        have hi : i < n := by simpa [launch] using hlaunch
        have hpipe : (network started n capacity program).input (.mapper i) = some (.mapper i) :=
          input_eq_some_iff.mpr (reads_iff.mpr (.inl ⟨i, hi, rfl, rfl⟩))
        have houtput : (network started n capacity program).output (.splitter i) =
            some (.mapper i) := output_splitter hi
        exact (h.exited _ (hmapper i hi) _ hpipe).2 (.splitter i) hliving (holds_of_output houtput)
    · rw [readFrom_eq_writtenTo hrun rfl h hinput hexited, writtenBy_eq hrun (output_mapper hi)]

end

/-- Each splitter starts with one number to write, and the others copy their input. -/
def copying : Process → Option (Option ℕ) → PipeNetwork.Action ℕ (Option (Option ℕ))
  | _, none => .exit
  | .splitter _, some none => .compute none
  | _, some none => .read fun b ↦ b.map some
  | _, some (some b) => .write b (some none)

def copyingMemory : Process → Option (Option ℕ)
  | .splitter _ => some (some 7)
  | _ => some none

theorem copying_readsToEnd : ReadsToEnd (network started n capacity copying)
    fun p m ↦ (∃ i, p = .splitter i) ∨ m = none where
  exit p m h := by
    rcases m with _ | _ | b
    · exact Or.inr rfl
    · cases p <;> cases h
    · cases p <;> cases h
  compute p m next h _ := by
    rcases m with _ | _ | b
    · cases p <;> cases h
    · cases p with
      | splitter i => exact Or.inl ⟨i, rfl⟩
      | _ => cases h
    · cases p <;> cases h
  write p m b next h hended := by
    rcases m with _ | _ | b
    · cases p <;> cases h
    · cases p <;> cases h
    · cases h
      exact hended.imp_right fun h ↦ by cases h
  read p m next b h hended := by
    rcases m with _ | _ | c
    · cases p <;> cases h
    · cases p with
      | splitter i => exact Or.inl ⟨i, rfl⟩
      | _ =>
        cases h
        rcases hended with ⟨i, hi⟩ | hended
        · cases hi
        · cases hended
    · cases p <;> cases h

/-- The end of a pipe behind the forks. -/
theorem atEnd_mapper {s : State Process Pipe β σ} (hempty : s.contents (.mapper i) = [])
    (hsplitters : ∀ j, s.living (.splitter j) = false)
    (hmappers : ∀ j < i, s.living (.mapper j) = false) :
    AtEnd (network started n capacity program) s (.mapper i) := by
  intro pipe hpipe
  rcases reads_iff.mp (input_eq_some_iff.mp hpipe) with ⟨j, -, hj, rfl⟩ | ⟨hp, -⟩
  · cases hj
    refine ⟨hempty, fun q hq hhold ↦ ?_⟩
    rcases HoldsWriteEnd.process hhold with ⟨k, -, rfl⟩ | ⟨k, -, rfl, hlt⟩
    · simp [hsplitters k] at hq
    · simp [hmappers k (hlt i rfl)] at hq
  · cases hp

theorem mapreduce_delivers_one : ∃ es s,
    Run (Step (network (⟨[]⟩ : FdTable Unit) 1 1 copying))
      (launch 1 copyingMemory) es s ∧
    s.living (.mapper 0) = false ∧ (readFrom (.mapper 0) es).map Prod.snd = [7] ∧
    ∃ e s', Step (network (⟨[]⟩ : FdTable Unit) 1 1 copying) s e s' := by
  let N := network (⟨[]⟩ : FdTable Unit) 1 1 copying
  have hsplitter : N.output (.splitter 0) = some (.mapper 0) := output_splitter zero_lt_one
  have hmapper : N.output (.mapper 0) = some .reducer := output_mapper zero_lt_one
  have hinput : N.input (.mapper 0) = some (.mapper 0) :=
    input_eq_some_iff.mpr (reads_iff.mpr (.inl ⟨0, zero_lt_one, rfl, rfl⟩))
  have h₀ : Run (Step N) (launch 1 copyingMemory) [] (launch 1 copyingMemory) := Run.nil
  have h₁ := h₀.snoc (Step.write (i := .splitter 0) rfl rfl hsplitter zero_lt_one)
  have h₂ := h₁.snoc (Step.compute (i := .splitter 0) rfl rfl)
  have h₃ := h₂.snoc (Step.exit (i := .splitter 0) rfl rfl)
  have h₄ := h₃.snoc (Step.read (i := .mapper 0) rfl rfl hinput rfl)
  have h₅ := h₄.snoc (Step.write (i := .mapper 0) rfl rfl hmapper zero_lt_one)
  have h₆ := h₅.snoc (Step.endOfFile (i := .mapper 0) rfl rfl (atEnd_mapper rfl
    (fun j ↦ by cases j <;> simp [State.setMemory, State.setContents, launch])
    fun j hj ↦ absurd hj j.not_lt_zero))
  have h₇ := h₆.snoc (Step.exit (i := .mapper 0) rfl rfl)
  obtain ⟨hstep, hmappers, -⟩ := mapreduce_delivers zero_lt_one copying_readsToEnd
    (fun i ↦ by simp [copyingMemory]) (by simp [copyingMemory]) h₇
  exact ⟨_, _, h₇, rfl, hmappers 0 zero_lt_one rfl, hstep ⟨.reducer, rfl⟩⟩

end SystemProgramming.Mapreduce
