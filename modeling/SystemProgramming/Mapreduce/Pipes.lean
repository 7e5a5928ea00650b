import SystemProgramming.Lib.FdTable
import SystemProgramming.Lib.FiniteDigraph

/-!
# The pipes of mapreduce

`mapreduce.c`: the parent opens a pipe for every mapper and one for the reducer and starts the
splitters, the mappers and the reducer.  Each fork copies the descriptors of the parent.  All
calls succeed.
-/

namespace SystemProgramming.Mapreduce

inductive Pipe
  | mapper (i : ℕ)
  | reducer
  deriving DecidableEq

/-- What a descriptor refers to: a file that was open before, an end of a pipe or the output. -/
inductive File (F : Type*)
  | inherited (f : F)
  | readEnd (pipe : Pipe)
  | writeEnd (pipe : Pipe)
  | output

inductive Process
  | parent
  | splitter (i : ℕ)
  | mapper (i : ℕ)
  | reducer
  deriving DecidableEq

variable {F : Type*}

/-- The variables of `main` that hold descriptors. -/
structure Descriptors where
  mapperPipe : ℕ → ℕ × ℕ
  reducerPipe : ℕ × ℕ
  outputFd : ℕ

/-- `pipe`: the descriptors of the two ends. -/
def openPipe (t : FdTable (File F)) (pipe : Pipe) : (ℕ × ℕ) × FdTable (File F) :=
  let (readFd, t) := t.openFile (.readEnd pipe)
  let (writeFd, t) := t.openFile (.writeEnd pipe)
  ((readFd, writeFd), t)

/-- The loop that opens the pipes of the mappers. -/
def openMapperPipes (t : FdTable (File F)) : ℕ → (ℕ → ℕ × ℕ) × FdTable (File F)
  | 0 => (fun _ ↦ (0, 0), t)
  | i + 1 =>
    let (mapperPipe, t) := openMapperPipes t i
    let (ends, t) := openPipe t (.mapper i)
    (Function.update mapperPipe i ends, t)

/-- The descriptors and the table of the parent before the first fork. -/
def openAll (t : FdTable (File F)) (mapperCount : ℕ) : Descriptors × FdTable (File F) :=
  let (mapperPipe, t) := openMapperPipes t mapperCount
  let (reducerPipe, t) := openPipe t .reducer
  let (outputFd, t) := t.openFile .output
  (⟨mapperPipe, reducerPipe, outputFd⟩, t)

namespace Descriptors

variable (d : Descriptors) (t : FdTable (File F))

/-- The table of the parent after rounds of the loop that starts the mappers. -/
def closeMapperPipes : ℕ → FdTable (File F)
  | 0 => t
  | i + 1 => (closeMapperPipes i).close (d.mapperPipe i).2

def splitter (i : ℕ) : FdTable (File F) :=
  (t.close (d.mapperPipe i).1).dup2 (d.mapperPipe i).2 1

/-- The child closes the write end as the parent does. -/
def mapper (i : ℕ) : FdTable (File F) :=
  (((d.closeMapperPipes t (i + 1)).dup2 (d.mapperPipe i).1 0).dup2 d.reducerPipe.2 1).close
    d.reducerPipe.1

def parent (mapperCount : ℕ) : FdTable (File F) :=
  (d.closeMapperPipes t mapperCount).close d.reducerPipe.2

def reducer (mapperCount : ℕ) : FdTable (File F) :=
  ((d.parent t mapperCount).dup2 d.reducerPipe.1 0).dup2 d.outputFd 1

end Descriptors

/-- The table of every process behind the calls of `main`, from the descriptors with which the
program was started. -/
def startUp (started : FdTable F) (mapperCount : ℕ) (p : Process) : Option (FdTable (File F)) :=
  let (d, t) := openAll (started.map .inherited) mapperCount
  match p with
  | .parent => some (d.parent t mapperCount)
  | .splitter i => if i < mapperCount then some (d.splitter t i) else none
  | .mapper i => if i < mapperCount then some (d.mapper t i) else none
  | .reducer => some (d.reducer t mapperCount)

/-- A mapper and the reducer read the pipe behind their standard input.  The splitters read the
input file. -/
def Reads (started : FdTable F) (mapperCount : ℕ) : Process → Pipe → Prop
  | .parent, _ | .splitter _, _ => False
  | p, pipe => ∃ t, startUp started mapperCount p = some t ∧ t.lookup 0 = some (.readEnd pipe)

def HoldsWriteEnd (started : FdTable F) (mapperCount : ℕ) (p : Process) (pipe : Pipe) : Prop :=
  ∃ t, startUp started mapperCount p = some t ∧ t.Holds (.writeEnd pipe)

/-- A process waits for the end of a file that another one can still write. -/
def WaitsFor (started : FdTable F) (mapperCount : ℕ) (p q : Process) : Prop :=
  ∃ pipe, Reads started mapperCount p pipe ∧ HoldsWriteEnd started mapperCount q pipe

/-- No process that is left holds the write end. -/
def EndOfFile (started : FdTable F) (mapperCount : ℕ) (left : Process → Prop) (pipe : Pipe) : Prop :=
  ∀ p, left p → ¬ HoldsWriteEnd started mapperCount p pipe

/-! ## Before the first fork -/

variable {t : FdTable (File F)} {d : Descriptors} {i j k n fd : ℕ} {pipe : Pipe}

theorem lookup_openPipe_iff {f : File F} : (openPipe t pipe).2.lookup fd = some f ↔
    fd = (openPipe t pipe).1.1 ∧ .readEnd pipe = f ∨ fd = (openPipe t pipe).1.2 ∧ .writeEnd pipe = f ∨
      t.lookup fd = some f := by
  simp only [openPipe, FdTable.lookup_openFile_iff]
  simp only [FdTable.openFile]
  tauto

/-- The pipes of the first mappers are open, each end at the descriptor that is stored for it. -/
structure MapperPipes (n : ℕ) (mapperPipe : ℕ → ℕ × ℕ) (t : FdTable (File F)) : Prop where
  read : ∀ i < n, t.lookup (mapperPipe i).1 = some (.readEnd (.mapper i))
  write : ∀ fd i, t.lookup fd = some (.writeEnd (.mapper i)) ↔ i < n ∧ fd = (mapperPipe i).2
  reducer : ¬ t.Holds (.writeEnd .reducer)
  zero : 0 < n → t.lookup 0 ≠ none

theorem MapperPipes.openPipe {mapperPipe : ℕ → ℕ × ℕ} (h : MapperPipes n mapperPipe t) :
    MapperPipes (n + 1) (Function.update mapperPipe n (openPipe t (.mapper n)).1)
      (openPipe t (.mapper n)).2 where
  read := by
    intro i hi
    rcases eq_or_ne i n with rfl | hne
    · rw [Function.update_self]
      exact lookup_openPipe_iff.mpr (Or.inl ⟨rfl, rfl⟩)
    · rw [Function.update_of_ne hne]
      exact lookup_openPipe_iff.mpr (Or.inr (Or.inr (h.read i (by omega))))
  write := by
    intro fd i
    rw [lookup_openPipe_iff, h.write]
    rcases eq_or_ne i n with rfl | hne
    · simp
    · have hlt : i < n + 1 ↔ i < n := by omega
      simp [hne, hne.symm, hlt]
  reducer := by
    rintro ⟨fd, hfd⟩
    rw [lookup_openPipe_iff] at hfd
    rcases hfd with ⟨-, hf⟩ | ⟨-, hf⟩ | hfd
    · cases hf
    · cases hf
    · exact h.reducer ⟨fd, hfd⟩
  zero := fun _ ↦ FdTable.lookup_openFile_zero

theorem openMapperPipes_spec (started : FdTable F) (n : ℕ) :
    MapperPipes n (openMapperPipes (started.map .inherited) n).1
      (openMapperPipes (started.map .inherited) n).2 := by
  induction n with
  | zero =>
      have hold {fd : ℕ} {f : File F} (h : (started.map File.inherited).lookup fd = some f) :
          ∃ g, f = .inherited g := by
        rw [FdTable.lookup_map] at h
        obtain ⟨g, -, rfl⟩ := Option.map_eq_some_iff.mp h
        exact ⟨g, rfl⟩
      refine ⟨by simp, fun fd i ↦ ?_, ?_, by simp⟩
      · refine iff_of_false (fun h ↦ ?_) (by simp)
        obtain ⟨g, hg⟩ := hold h
        cases hg
      · rintro ⟨fd, h⟩
        obtain ⟨g, hg⟩ := hold h
        cases hg
  | succ n ih => exact ih.openPipe

/-- Every end of a pipe is at the descriptor that is stored for it, and nowhere else if it is a
write end. -/
structure Opened (n : ℕ) (d : Descriptors) (t : FdTable (File F)) : Prop where
  mapperRead : ∀ i < n, t.lookup (d.mapperPipe i).1 = some (.readEnd (.mapper i))
  mapperWrite : ∀ fd i, t.lookup fd = some (.writeEnd (.mapper i)) ↔
    i < n ∧ fd = (d.mapperPipe i).2
  reducerRead : t.lookup d.reducerPipe.1 = some (.readEnd .reducer)
  reducerWrite : ∀ fd, t.lookup fd = some (.writeEnd .reducer) ↔ fd = d.reducerPipe.2
  reader : 0 < n → d.reducerPipe.1 ≠ 0

theorem openAll_spec (started : FdTable F) (n : ℕ) :
    Opened n (openAll (started.map .inherited) n).1 (openAll (started.map .inherited) n).2 := by
  have h := openMapperPipes_spec started n
  unfold openAll
  generalize openMapperPipes (started.map File.inherited) n = opened at h ⊢
  obtain ⟨mapperPipe, t⟩ := opened
  have hlookup {fd : ℕ} {f : File F} :
      ((openPipe t .reducer).2.openFile .output).2.lookup fd = some f ↔
        fd = (openPipe t .reducer).2.lowest ∧ .output = f ∨
        fd = (openPipe t .reducer).1.1 ∧ .readEnd .reducer = f ∨
        fd = (openPipe t .reducer).1.2 ∧ .writeEnd .reducer = f ∨ t.lookup fd = some f := by
    rw [FdTable.lookup_openFile_iff, lookup_openPipe_iff]
  refine ⟨fun i hi ↦ ?_, fun fd i ↦ ?_, ?_, fun fd ↦ ?_, fun hn hzero ↦ ?_⟩
  · exact hlookup.mpr (Or.inr (Or.inr (Or.inr (h.read i hi))))
  · dsimp only
    rw [hlookup, ← h.write]
    simp
  · exact hlookup.mpr (Or.inr (Or.inl ⟨rfl, rfl⟩))
  · have hnot : t.lookup fd ≠ some (.writeEnd .reducer) := fun hfd ↦ h.reducer ⟨fd, hfd⟩
    dsimp only
    rw [hlookup]
    simp [hnot]
  · refine h.zero hn ?_
    rw [← hzero]
    exact FdTable.lookup_lowest

/-! ## Behind the forks -/

/-- The loop that starts the mappers closes their write ends one after another. -/
theorem lookup_closeMapperPipes_iff {f : File F} : (d.closeMapperPipes t k).lookup fd = some f ↔
    t.lookup fd = some f ∧ ∀ i < k, fd ≠ (d.mapperPipe i).2 := by
  induction k with
  | zero => simp [Descriptors.closeMapperPipes]
  | succ k ih =>
      rw [Descriptors.closeMapperPipes, FdTable.lookup_close_iff, ih]
      simp only [Nat.lt_succ_iff_lt_or_eq, or_imp, forall_and, forall_eq]
      tauto

namespace Opened

variable (h : Opened n d t)
include h

theorem holds_closeMapperPipes (hold : (d.closeMapperPipes t k).Holds (.writeEnd (.mapper j))) :
    k ≤ j ∧ j < n := by
  obtain ⟨fd, hfd⟩ := hold
  obtain ⟨hfd, hopen⟩ := lookup_closeMapperPipes_iff.mp hfd
  obtain ⟨hj, rfl⟩ := (h.mapperWrite fd j).mp hfd
  refine ⟨?_, hj⟩
  by_contra hlt
  exact hopen j (by omega) rfl

/-- Read ends stay open. -/
theorem lookup_closeMapperPipes (hk : k ≤ n) (hfd : t.lookup fd = some (.readEnd pipe)) :
    (d.closeMapperPipes t k).lookup fd = some (.readEnd pipe) := by
  refine lookup_closeMapperPipes_iff.mpr ⟨hfd, fun i hi heq ↦ ?_⟩
  have hwrite := (h.mapperWrite fd i).mpr ⟨by omega, heq⟩
  rw [hfd] at hwrite
  cases hwrite

theorem not_holds_parent : ¬ (d.parent t n).Holds (.writeEnd pipe) := by
  intro hold
  cases pipe with
  | mapper j =>
      have hbounds := h.holds_closeMapperPipes hold.of_close
      omega
  | reducer =>
      obtain ⟨fd, hfd⟩ := hold
      obtain ⟨hne, hfd⟩ := FdTable.lookup_close_iff.mp hfd
      exact hne ((h.reducerWrite fd).mp (lookup_closeMapperPipes_iff.mp hfd).1)

theorem not_holds_reducer : ¬ (d.reducer t n).Holds (.writeEnd pipe) :=
  fun hold ↦ h.not_holds_parent hold.of_dup2.of_dup2

theorem holds_mapper (hold : (d.mapper t i).Holds (.writeEnd (.mapper j))) : i < j := by
  have hbounds := h.holds_closeMapperPipes hold.of_close.of_dup2.of_dup2
  omega

theorem lookup_mapper (hi : i < n) :
    (d.mapper t i).lookup 0 = some (.readEnd (.mapper i)) := by
  refine FdTable.lookup_close_iff.mpr ⟨(h.reader (by omega)).symm, ?_⟩
  rw [FdTable.lookup_dup2_of_ne zero_ne_one, FdTable.lookup_dup2_self]
  exact h.lookup_closeMapperPipes hi (h.mapperRead i hi)

theorem lookup_reducer : (d.reducer t n).lookup 0 = some (.readEnd .reducer) := by
  rw [Descriptors.reducer, FdTable.lookup_dup2_of_ne zero_ne_one, FdTable.lookup_dup2_self]
  refine FdTable.lookup_close_iff.mpr ⟨fun heq ↦ ?_, h.lookup_closeMapperPipes le_rfl h.reducerRead⟩
  have hwrite := (h.reducerWrite d.reducerPipe.1).mpr heq
  rw [h.reducerRead] at hwrite
  cases hwrite

end Opened

/-! ## Who waits for whom -/

variable {started : FdTable F} {p q : Process}

theorem reads_iff : Reads started n p pipe ↔
    (∃ j < n, p = .mapper j ∧ pipe = .mapper j) ∨ p = .reducer ∧ pipe = .reducer := by
  have h := openAll_spec started n
  cases p with
  | parent => simp [Reads]
  | splitter i => simp [Reads]
  | mapper i =>
      by_cases hi : i < n
      · have hread := h.lookup_mapper hi
        simp [Reads, startUp, hi, hread, eq_comm]
      · simp +contextual [Reads, startUp, hi]
  | reducer => simp [Reads, startUp, h.lookup_reducer, eq_comm]

theorem HoldsWriteEnd.process (hold : HoldsWriteEnd started n p pipe) :
    (∃ i < n, p = .splitter i) ∨ ∃ i < n, p = .mapper i ∧ ∀ j, pipe = .mapper j → i < j := by
  have h := openAll_spec started n
  obtain ⟨t, ht, hold⟩ := hold
  unfold startUp at ht
  cases p with
  | parent =>
      cases ht
      exact absurd hold h.not_holds_parent
  | splitter i =>
      obtain ⟨hi, -⟩ := Option.ite_none_right_eq_some.mp ht
      exact Or.inl ⟨i, hi, rfl⟩
  | mapper i =>
      obtain ⟨hi, heq⟩ := Option.ite_none_right_eq_some.mp ht
      cases heq
      refine Or.inr ⟨i, hi, rfl, ?_⟩
      rintro j rfl
      exact h.holds_mapper hold
  | reducer =>
      cases ht
      exact absurd hold h.not_holds_reducer

/-- The splitters come first, the mappers in the order of their pipes, the reducer last. -/
def rank (mapperCount : ℕ) : Process → ℕ
  | .parent | .splitter _ => 0
  | .mapper i => i + 1
  | .reducer => mapperCount + 1

theorem WaitsFor.rank_lt (h : WaitsFor started n p q) : rank n q < rank n p := by
  obtain ⟨pipe, hread, hold⟩ := h
  rcases reads_iff.mp hread with ⟨j, hj, rfl, rfl⟩ | ⟨rfl, rfl⟩
  · rcases hold.process with ⟨i, -, rfl⟩ | ⟨i, -, rfl, hlt⟩
    · exact Nat.succ_pos j
    · exact Nat.succ_lt_succ (hlt j rfl)
  · rcases hold.process with ⟨i, -, rfl⟩ | ⟨i, hi, rfl, -⟩
    · exact Nat.succ_pos n
    · exact Nat.succ_lt_succ hi

theorem acyclic_waitsFor : Acyclic (WaitsFor started n) := by
  have hswap : Acyclic (Function.swap (WaitsFor started n)) :=
    acyclic_of_rank (rank n) fun p q h ↦ h.rank_lt
  intro p hp
  exact hswap p (Relation.transGen_swap.mpr hp)

/-- Who reads and who holds a write end behind the start-up, for any descriptors with which the
program was started.  No process waits for itself over any number of others, and a pipe ends when
the splitters and the mappers before its reader have exited. -/
theorem pipes_end (started : FdTable F) (mapperCount : ℕ) :
    (∀ p pipe, Reads started mapperCount p pipe ↔
      (∃ j < mapperCount, p = .mapper j ∧ pipe = .mapper j) ∨ p = .reducer ∧ pipe = .reducer) ∧
    (∀ p pipe, Reads started mapperCount p pipe → ¬ HoldsWriteEnd started mapperCount p pipe) ∧
    (∀ p j, HoldsWriteEnd started mapperCount p (.mapper j) →
      (∃ i < mapperCount, p = .splitter i) ∨ ∃ i < mapperCount, i < j ∧ p = .mapper i) ∧
    (∀ p, HoldsWriteEnd started mapperCount p .reducer →
      (∃ i < mapperCount, p = .splitter i) ∨ ∃ i < mapperCount, p = .mapper i) ∧
    (∀ pipe, ¬ HoldsWriteEnd started mapperCount .parent pipe) ∧
    Acyclic (WaitsFor started mapperCount) ∧
    (∀ left j, (∀ i, ¬ left (.splitter i)) → (∀ i < j, ¬ left (.mapper i)) →
      EndOfFile started mapperCount left (.mapper j)) ∧
    (∀ left, (∀ i, ¬ left (.splitter i)) → (∀ i, ¬ left (.mapper i)) →
      EndOfFile started mapperCount left .reducer) := by
  refine ⟨fun p pipe ↦ reads_iff, fun p pipe hread hold ↦ ?_, fun p j hold ↦ ?_, fun p hold ↦ ?_,
    fun pipe hold ↦ ?_, acyclic_waitsFor, fun left j hsplitters hmappers p hp hold ↦ ?_,
    fun left hsplitters hmappers p hp hold ↦ ?_⟩
  · exact acyclic_waitsFor p (.single ⟨pipe, hread, hold⟩)
  · exact hold.process.imp_right fun ⟨i, hi, heq, hlt⟩ ↦ ⟨i, hi, hlt j rfl, heq⟩
  · exact hold.process.imp_right fun ⟨i, hi, heq, _⟩ ↦ ⟨i, hi, heq⟩
  · rcases hold.process with ⟨i, -, heq⟩ | ⟨i, -, heq, -⟩
    · cases heq
    · cases heq
  · rcases hold.process with ⟨i, -, rfl⟩ | ⟨i, -, rfl, hlt⟩
    · exact hsplitters i hp
    · exact hmappers i (hlt j rfl) hp
  · rcases hold.process with ⟨i, -, rfl⟩ | ⟨i, -, rfl, -⟩
    · exact hsplitters i hp
    · exact hmappers i hp

end SystemProgramming.Mapreduce
