import SystemProgramming.CriticalConcurrency.NoStuckWaiter
import SystemProgramming.Lib.Termination

/-!
# The test of the queue

`queue_test.c`: every thread pushes a number and pulls one, again and again.  The threads share
one bounded queue, and none of them is left waiting.
-/

namespace SystemProgramming.CriticalConcurrency

open Monitor

variable {ι : Type*}

namespace Queue

variable {α : Type} {q q' : Queue α} {l : List ℕ} {a b : ℕ}

/-- Nothing is allocated but the nodes of the list. -/
def Stores (q : Queue α) (l : List ℕ) : Prop := ∀ a, q.heap a ≠ none → a ∈ l

theorem heap_queuePush {data : α} (hq : q.queuePush a data = some q') (hb : q'.heap b ≠ none) :
    q.heap b ≠ none ∨ b = a := by
  rcases eq_or_ne b a with rfl | hne
  · exact .inr rfl
  · left
    unfold queuePush at hq
    cases hhead : q.head with
    | none =>
      simp only [hhead, Option.some.injEq] at hq
      simpa [← hq, hne] using hb
    | some first =>
      simp only [hhead, Option.bind_eq_bind, Option.bind_eq_some_iff, Option.pure_def,
        Option.some.injEq] at hq
      obtain ⟨tail, -, node, hnode, rfl⟩ := hq
      rcases eq_or_ne b tail with rfl | hne'
      · simpa [Function.update_of_ne hne] using ne_of_eq_of_ne hnode (Option.some_ne_none node)
      · simpa [hne, hne'] using hb

theorem Stores.queuePush {data : α} (h : q.Stores l) (hq : q.queuePush a data = some q') :
    q'.Stores (l ++ [a]) := by
  intro b hb
  rcases heap_queuePush hq hb with hold | rfl
  · exact List.mem_append_left _ (h b hold)
  · exact List.mem_append_right _ (List.mem_singleton_self b)

theorem Stores.queuePull {ret : Option α} (h : q.Stores l) (hl : q.Holds l)
    (hq : q.queuePull = some (q', ret)) : q'.Stores l.tail := by
  cases l with
  | nil =>
    have hhead : q.head = none := hl.segment
    simp only [Queue.queuePull, hhead, Option.some.injEq, Prod.mk.injEq] at hq
    rw [← hq.1]
    exact h
  | cons cur l =>
    have hhead : q.head = some cur := hl.segment.1
    simp only [Queue.queuePull, hhead, Option.bind_eq_bind, Option.bind_eq_some_iff,
      Option.pure_def, Option.some.injEq, Prod.mk.injEq] at hq
    obtain ⟨node, -, rfl, -⟩ := hq
    intro b hb
    rcases eq_or_ne b cur with rfl | hne
    · simp at hb
    · exact List.mem_of_ne_of_mem hne (h b (by simpa [hne] using hb))

/-- `malloc` finds an address. -/
theorem Stores.exists_free (h : q.Stores l) : ∃ a, q.heap a = none := by
  obtain ⟨a, ha⟩ := Infinite.exists_notMem_finset l.toFinset
  refine ⟨a, ?_⟩
  by_contra hne
  exact ha (List.mem_toFinset.mpr (h a hne))

/-! ## Destroying the queue -/

/-- The loop of `queue_destroy`; `none` when the fuel runs out or a freed node is read. -/
def freeNodes : ℕ → Queue α → Option (Queue α)
  | 0, _ => none
  | fuel + 1, q =>
    match q.head with
    | none => some q
    | some cur => do
      let node ← q.heap cur
      freeNodes fuel { q with head := node.next, heap := Function.update q.heap cur none }

/-- `queue_destroy` up to the last `free`. -/
def queueDestroy (fuel : ℕ) (q : Queue α) : Option (Queue α) := do
  let q ← freeNodes fuel q
  pure { q with head := none, tail := none, size := 0 }

theorem freeNodes_eq (hl : Segment q.next q.head l none) (hstores : q.Stores l) :
    ∃ q', freeNodes (l.length + 1) q = some q' ∧ q'.heap = fun _ ↦ none := by
  induction l generalizing q with
  | nil =>
    have hhead : q.head = none := hl
    refine ⟨q, by simp [freeNodes, hhead], ?_⟩
    funext a
    by_contra hne
    exact List.not_mem_nil (hstores a hne)
  | cons cur l ih =>
    have hnodup := hl.nodup
    obtain ⟨hhead, r, hnext, hrest⟩ := hl
    obtain ⟨node, hnode, rfl⟩ := Option.map_eq_some_iff.mp hnext
    have hne : ∀ b ∈ l, b ≠ cur := by
      rintro b hb rfl
      exact hnodup.notMem hb
    obtain ⟨q', hq', hheap⟩ := ih (q := { q with
        head := node.next, heap := Function.update q.heap cur none })
      (hrest.congr fun b hb ↦ by simp [next, hne b hb]) (by
        intro b hb
        rcases eq_or_ne b cur with rfl | hbne
        · simp at hb
        · exact List.mem_of_ne_of_mem hbne (hstores b (by simpa [hbne] using hb)))
    refine ⟨q', ?_, hheap⟩
    rw [List.length_cons, freeNodes]
    simpa only [hhead, hnode, Option.bind_eq_bind, Option.bind_some] using hq'

end Queue

open Queue

/-- Where a thread stands in the loop of `thread_func`. -/
structure Iteration where
  i : ℕ
  hasPushed : Bool

/-- The pushes of the iterations so far. -/
def Iteration.pushes (iteration : Iteration) : ℕ := iteration.i + iteration.hasPushed.toNat

/-- The number that a thread allocates in its `i`-th iteration. -/
abbrev Number (ι : Type*) := ι × ℕ

structure QueueTest (ι : Type) where
  system : State ι (Queue (Number ι)) Unit (Call (Number ι))
  iteration : ι → Iteration

namespace QueueTest

variable {ι : Type} [DecidableEq ι] {maxSize : ℤ} {iterations : ℕ}

def start (maxSize : ℤ) : QueueTest ι := ⟨Queue.start maxSize, fun _ ↦ ⟨0, false⟩⟩

/-- The steps of `thread_func`, when every `malloc` gives memory. -/
inductive Step (iterations : ℕ) :
    QueueTest ι → Label ι (Event (Number ι)) → QueueTest ι → Prop
  | wake {s : QueueTest ι} {t : ι} {system : State ι (Queue (Number ι)) Unit (Call (Number ι))} :
      Monitor.Step program s.system (.wake t) system →
      Step iterations s (.wake t) ⟨system, s.iteration⟩
  | callPush {s : QueueTest ι} {t : ι}
      {system : State ι (Queue (Number ι)) Unit (Call (Number ι))} :
      (s.iteration t).hasPushed = false → (s.iteration t).i < iterations →
      Monitor.Step program s.system (.act t (.call (.push (t, (s.iteration t).i)))) system →
      Step iterations s (.act t (.call (.push (t, (s.iteration t).i)))) ⟨system, s.iteration⟩
  | callPull {s : QueueTest ι} {t : ι}
      {system : State ι (Queue (Number ι)) Unit (Call (Number ι))} :
      (s.iteration t).hasPushed = true →
      Monitor.Step program s.system (.act t (.call .pull)) system →
      Step iterations s (.act t (.call .pull)) ⟨system, s.iteration⟩
  | sleep {s : QueueTest ι} {t : ι} {c : Call (Number ι)}
      {system : State ι (Queue (Number ι)) Unit (Call (Number ι))} :
      Monitor.Step program s.system (.act t (.sleep c)) system →
      Step iterations s (.act t (.sleep c)) ⟨system, s.iteration⟩
  | push {s : QueueTest ι} {t : ι} {data : Number ι}
      {system : State ι (Queue (Number ι)) Unit (Call (Number ι))} :
      Monitor.Step program s.system (.act t (.push data)) system →
      Step iterations s (.act t (.push data))
        ⟨system, Function.update s.iteration t { s.iteration t with hasPushed := true }⟩
  | pull {s : QueueTest ι} {t : ι} {data : Option (Number ι)}
      {system : State ι (Queue (Number ι)) Unit (Call (Number ι))} :
      Monitor.Step program s.system (.act t (.pull data)) system →
      Step iterations s (.act t (.pull data))
        ⟨system, Function.update s.iteration t ⟨(s.iteration t).i + 1, false⟩⟩

/-- The thread has left its loop. -/
def Finished (iterations : ℕ) (s : QueueTest ι) (t : ι) : Prop :=
  s.system.pc t = .out () ∧ (s.iteration t).i = iterations ∧ (s.iteration t).hasPushed = false

def spurious : Label ι (Event (Number ι)) → Bool
  | .wake _ => true
  | .act _ _ => false

variable {s s' : QueueTest ι} {es : List (Label ι (Event (Number ι)))}
  {e : Label ι (Event (Number ι))} {t : ι}

theorem Step.system (h : Step iterations s e s') : Monitor.Step program s.system e s'.system := by
  cases h <;> assumption

theorem run_system (hrun : Run (Step iterations) s es s') :
    Run (Monitor.Step program) s.system es s'.system := by
  induction hrun with
  | nil => exact .nil
  | snoc _ hlast ih => exact ih.snoc hlast.system

/-! ## What the threads have pushed -/

/-- The call fits the place of the thread in its loop. -/
def CallOk (iterations : ℕ) (t : ι) (iteration : Iteration) : Call (Number ι) → Prop
  | .push data => data = (t, iteration.i) ∧ iteration.hasPushed = false ∧ iteration.i < iterations
  | .pull => iteration.hasPushed = true ∧ iteration.i < iterations

/-- The place of a thread in its call and in its loop. -/
def PcOk (iterations : ℕ) (t : ι) (iteration : Iteration) :
    Monitor.Pc Unit (Call (Number ι)) → Prop
  | .out _ => iteration.pushes ≤ iterations
  | .ready c | .asleep c => CallOk iterations t iteration c

omit [DecidableEq ι] in
theorem PcOk.wake {iteration : Iteration} {pc : Monitor.Pc Unit (Call (Number ι))}
    (h : PcOk iterations t iteration pc) : PcOk iterations t iteration pc.wake := by
  cases pc <;> exact h

/-- The threads whose number is in the queue. -/
def between [Fintype ι] (s : QueueTest ι) : Finset ι :=
  Finset.univ.filter fun t ↦ (s.iteration t).hasPushed

structure Inv [Fintype ι] (maxSize : ℤ) (iterations : ℕ)
    (es : List (Label ι (Event (Number ι)))) (s : QueueTest ι) (l : List ℕ) : Prop where
  reaches : Reaches maxSize es s.system.shared l
  stores : s.system.shared.Stores l
  pcOk : ∀ t, PcOk iterations t (s.iteration t) (s.system.pc t)
  size : l.length = s.between.card
  numbers : ∀ t, (pushed es).filter (fun data ↦ data.1 = t) =
    (List.range (s.iteration t).pushes).map (Prod.mk t)

namespace Inv

variable [Fintype ι] {l : List ℕ}

theorem init : Inv maxSize iterations [] (start maxSize : QueueTest ι) [] where
  reaches := reaches_start
  stores _ ha := absurd rfl ha
  pcOk _ := Nat.zero_le _
  size := by simp [start, between]
  numbers _ := rfl

/-- A step outside the critical sections, or one that ends in a wait. -/
theorem quiet {pc : Monitor.Pc Unit (Call (Number ι))} (h : Inv maxSize iterations es s l)
    (hpush : pushed [e] = []) (hpull : pulled [e] = [])
    (hpc : PcOk iterations t (s.iteration t) pc) :
    Inv maxSize iterations (es ++ [e]) ⟨s.system.setPc t pc, s.iteration⟩ l where
  reaches := h.reaches.quiet hpush hpull
  stores := h.stores
  pcOk := by
    intro u
    rcases eq_or_ne u t with rfl | hne
    · simpa [State.setPc] using hpc
    · simpa [State.setPc, hne] using h.pcOk u
  size := h.size
  numbers := by
    rw [pushed_snoc, hpush, List.append_nil]
    exact h.numbers

theorem push {data : Number ι} {a : ℕ} {q : Queue (Number ι)} (h : Inv maxSize iterations es s l)
    (hpc : s.system.pc t = .ready (.push data)) (hwait : ¬ s.system.shared.pushWaits)
    (hfree : s.system.shared.heap a = none) (hq : s.system.shared.queuePush a data = some q) :
    Inv maxSize iterations (es ++ [.act t (.push data)]) ⟨s.system.finish t q (.leave () true),
      Function.update s.iteration t { s.iteration t with hasPushed := true }⟩ (l ++ [a]) := by
  have hok := h.pcOk t
  rw [hpc] at hok
  obtain ⟨rfl, hnot, hlt⟩ := hok
  refine ⟨h.reaches.push hwait hfree hq, h.stores.queuePush hq, ?_, ?_, ?_⟩
  · intro u
    rcases eq_or_ne u t with rfl | hne
    · simpa [State.finish, Exit.pc, PcOk, Iteration.pushes] using hlt
    · simpa [State.finish, hne, Exit.others] using (h.pcOk u).wake
  · have hbetween : between ⟨s.system.finish t q (.leave () true),
        Function.update s.iteration t { s.iteration t with hasPushed := true }⟩ =
          insert t s.between := by
      ext u
      rcases eq_or_ne u t with rfl | hne
      · simp [between]
      · simp [between, hne]
    rw [hbetween, Finset.card_insert_of_notMem (by simp [between, hnot]), ← h.size,
      List.length_append, List.length_singleton]
  · intro u
    rw [pushed_snoc, List.filter_append, h.numbers u]
    rcases eq_or_ne u t with rfl | hne
    · simp [pushed, Iteration.pushes, hnot, List.range_succ]
    · simp [pushed, hne, hne.symm]

theorem pull {data : Option (Number ι)} {q : Queue (Number ι)} (h : Inv maxSize iterations es s l)
    (hpc : s.system.pc t = .ready .pull) (hwait : ¬ s.system.shared.pullWaits)
    (hq : s.system.shared.queuePull = some (q, data)) :
    Inv maxSize iterations (es ++ [.act t (.pull data)]) ⟨s.system.finish t q (.leave () true),
      Function.update s.iteration t ⟨(s.iteration t).i + 1, false⟩⟩ l.tail := by
  have hok := h.pcOk t
  rw [hpc] at hok
  obtain ⟨hpushed, hlt⟩ := hok
  refine ⟨h.reaches.pull hwait hq, h.stores.queuePull h.reaches.holds hq, ?_, ?_, ?_⟩
  · intro u
    rcases eq_or_ne u t with rfl | hne
    · simpa [State.finish, Exit.pc, PcOk, Iteration.pushes] using hlt
    · simpa [State.finish, hne, Exit.others] using (h.pcOk u).wake
  · have hbetween : between ⟨s.system.finish t q (.leave () true),
        Function.update s.iteration t ⟨(s.iteration t).i + 1, false⟩⟩ = s.between.erase t := by
      ext u
      rcases eq_or_ne u t with rfl | hne
      · simp [between]
      · simp [between, hne]
    rw [hbetween, Finset.card_erase_of_mem (by simp [between, hpushed]), ← h.size,
      List.length_tail]
  · intro u
    rw [pushed_snoc, List.filter_append, h.numbers u]
    rcases eq_or_ne u t with rfl | hne
    · simp [pushed, Iteration.pushes, hpushed]
    · simp [pushed, hne]

theorem step (h : Inv maxSize iterations es s l) (hstep : Step iterations s e s') :
    ∃ l', Inv maxSize iterations (es ++ [e]) s' l' := by
  have hok := h.pcOk
  cases hstep with
  | @wake t _ hsystem =>
    cases hsystem
    exact ⟨l, h.quiet rfl rfl (hok t).wake⟩
  | @callPush t _ hnot hlt hsystem =>
    obtain ⟨c, hc, -, rfl⟩ | ⟨_, ⟨⟩, _⟩ | ⟨_, _, _, ⟨⟩, _⟩ | ⟨_, _, ⟨⟩, _⟩ := act_cases hsystem
    cases hc
    exact ⟨l, h.quiet rfl rfl ⟨rfl, hnot, hlt⟩⟩
  | @callPull t _ hpushed hsystem =>
    obtain ⟨c, hc, hpc, rfl⟩ | ⟨_, ⟨⟩, _⟩ | ⟨_, _, _, ⟨⟩, _⟩ | ⟨_, _, ⟨⟩, _⟩ :=
      act_cases hsystem
    cases hc
    have hout := hok t
    rw [hpc] at hout
    refine ⟨l, h.quiet rfl rfl ⟨hpushed, ?_⟩⟩
    simpa [PcOk, Iteration.pushes, hpushed] using hout
  | @sleep t c _ hsystem =>
    obtain ⟨_, ⟨⟩, _⟩ | ⟨c', hc, hpc, -, rfl⟩ | ⟨_, _, _, ⟨⟩, _⟩ | ⟨_, _, ⟨⟩, _⟩ :=
      act_cases hsystem
    cases hc
    have hready := hok t
    rw [hpc] at hready
    exact ⟨l, h.quiet rfl rfl hready⟩
  | @push t data _ hsystem =>
    obtain ⟨_, ⟨⟩, _⟩ | ⟨_, ⟨⟩, _⟩ | ⟨_, _, _, hd, hpc, hwait, hfree, hq, rfl⟩ | ⟨_, _, ⟨⟩, _⟩ :=
      act_cases hsystem
    cases hd
    exact ⟨_, h.push hpc hwait hfree hq⟩
  | @pull t data _ hsystem =>
    obtain ⟨_, ⟨⟩, _⟩ | ⟨_, ⟨⟩, _⟩ | ⟨_, _, _, ⟨⟩, _⟩ | ⟨_, _, hd, hpc, hwait, hq, rfl⟩ :=
      act_cases hsystem
    cases hd
    exact ⟨_, h.pull hpc hwait hq⟩

end Inv

theorem inv_of_run [Fintype ι] (hrun : Run (Step iterations) (start maxSize) es s) :
    ∃ l, Inv maxSize iterations es s l := by
  induction hrun with
  | nil => exact ⟨[], .init⟩
  | snoc _ hlast ih =>
    obtain ⟨l, hl⟩ := ih
    exact hl.step hlast

/-! ## Progress -/

theorem waits_of_run (hrun : Run (Step iterations) (start maxSize) es s) {c : Call (Number ι)}
    (ht : s.system.pc t = .asleep c) : s.system.shared.waits c :=
  waits_of_asleep ((run_system hrun).mono fun _ _ _ ↦ step_any) ht

/-- A thread that is awake and has not left its loop can go on. -/
theorem exists_step_of_awake [Fintype ι] {l : List ℕ} (h : Inv maxSize iterations es s l)
    (hawake : ∀ c, s.system.pc t ≠ .asleep c) (ht : ¬ s.Finished iterations t) :
    ∃ e s', spurious e = false ∧ Step iterations s e s' := by
  have hok := h.pcOk t
  cases hpc : s.system.pc t with
  | asleep c => exact absurd hpc (hawake c)
  | out _ =>
    rw [hpc] at hok
    cases hpushed : (s.iteration t).hasPushed with
    | true => exact ⟨_, _, rfl, .callPull hpushed (step_call .pull hpc)⟩
    | false =>
      have hle : (s.iteration t).i ≤ iterations := by
        simpa [PcOk, Iteration.pushes, hpushed] using hok
      have hne : (s.iteration t).i ≠ iterations := fun heq ↦ ht ⟨hpc, heq, hpushed⟩
      exact ⟨_, _, rfl, .callPush hpushed (lt_of_le_of_ne hle hne) (step_call _ hpc)⟩
  | ready c =>
    by_cases hwait : s.system.shared.waits c
    · exact ⟨_, _, rfl, .sleep (.critical hpc (Section.sleep hwait))⟩
    · cases c with
      | push data =>
        obtain ⟨a, hfree⟩ := h.stores.exists_free
        obtain ⟨q, hq, -⟩ := h.reaches.holds.queuePush hwait hfree data
        exact ⟨_, _, rfl, .push (.critical hpc (Section.push hwait hfree hq))⟩
      | pull =>
        obtain ⟨q, a, l', data, -, hq, -⟩ := h.reaches.holds.queuePull hwait
        exact ⟨_, _, rfl, .pull (.critical hpc (Section.pull hwait hq))⟩

/-- The threads are never all asleep: who waits for room finds a number in the queue, whose
thread does not wait for room, and who waits for a number has left one there. -/
theorem exists_awake [Fintype ι] {l : List ℕ} (h : Inv maxSize iterations es s l)
    (hwaits : ∀ t c, s.system.pc t = .asleep c → s.system.shared.waits c)
    (ht : ¬ s.Finished iterations t) :
    ∃ u, (∀ c, s.system.pc u ≠ .asleep c) ∧ ¬ s.Finished iterations u := by
  by_contra hall
  push Not at hall
  have hpull : ∀ u, (s.iteration u).hasPushed = true → s.system.shared.size = 0 := by
    intro u hu
    have hunfinished : ¬ s.Finished iterations u := by
      rintro ⟨-, -, hnot⟩
      simp [hu] at hnot
    obtain ⟨c, hc⟩ : ∃ c, s.system.pc u = .asleep c := by
      by_contra hawake
      push Not at hawake
      exact hunfinished (hall u hawake)
    have hok := h.pcOk u
    have hwait := hwaits u c hc
    rw [hc] at hok
    cases c with
    | push data => simp [hu, PcOk, CallOk] at hok
    | pull => exact hwait
  have hempty : s.system.shared.size = 0 := by
    by_contra hne
    have hpos : 0 < s.between.card := by
      have hsize := h.reaches.holds.size
      rw [h.size] at hsize
      omega
    obtain ⟨u, hu⟩ := Finset.card_pos.mp hpos
    exact hne (hpull u (by simpa [between] using hu))
  obtain ⟨c, hc⟩ : ∃ c, s.system.pc t = .asleep c := by
    by_contra hawake
    push Not at hawake
    exact ht (hall t hawake)
  have hwait := hwaits t c hc
  have hnone : s.between.card = 0 := by
    have hsize := h.reaches.holds.size
    rw [h.size] at hsize
    omega
  cases c with
  | push data =>
    obtain ⟨hpos, hfull⟩ := hwait
    omega
  | pull =>
    have hok := h.pcOk t
    rw [hc] at hok
    have hmem : t ∈ s.between := by simpa [between] using hok.1
    rw [Finset.card_eq_zero.mp hnone] at hmem
    exact absurd hmem (Finset.notMem_empty t)

/-! ## The work that is left -/

/-- A call in progress takes one more step. -/
def busy : Monitor.Pc Unit (Call (Number ι)) → ℕ
  | .out _ => 0
  | _ => 1

/-- An iteration takes two calls, and a call two steps. -/
def work (iterations : ℕ) (s : QueueTest ι) (t : ι) : ℕ :=
  4 * (iterations - (s.iteration t).i) -
    (2 * (s.iteration t).hasPushed.toNat + busy (s.system.pc t))

/-- The thread is not in `pthread_cond_wait`. -/
def isAwake : Monitor.Pc Unit (Call (Number ι)) → Bool
  | .asleep _ => false
  | _ => true

def awake (s : QueueTest ι) (t : ι) : Bool := isAwake (s.system.pc t)

omit [DecidableEq ι] in
theorem busy_wake (pc : Monitor.Pc Unit (Call (Number ι))) : busy pc.wake = busy pc := by
  cases pc <;> rfl

theorem work_setPc {pc : Monitor.Pc Unit (Call (Number ι))} {u : ι} (hne : u ≠ t) :
    work iterations ⟨s.system.setPc t pc, s.iteration⟩ u = work iterations s u := by
  simp [work, State.setPc, hne]

theorem work_finish {q : Queue (Number ι)} {iteration : Iteration} {u : ι} (hne : u ≠ t) :
    work iterations ⟨s.system.finish t q (.leave () true),
      Function.update s.iteration t iteration⟩ u = work iterations s u := by
  simp [work, State.finish, hne, Exit.others, busy_wake]

omit [DecidableEq ι] in
/-- A step at `t` that does not add to the work of the others. -/
theorem workload_lt [Fintype ι] (hother : ∀ u, u ≠ t → work iterations s' u = work iterations s u)
    (ht : work iterations s' t < work iterations s t) :
    workload (work iterations s') s'.awake < workload (work iterations s) s.awake := by
  refine workload_lt_of_work (t := t) (fun u ↦ ?_) ht
  rcases eq_or_ne u t with rfl | hne
  · exact ht.le
  · exact (hother u hne).le

theorem workload_sleep [Fintype ι] {c : Call (Number ι)} (hpc : s.system.pc t = .ready c) :
    workload (work iterations ⟨s.system.setPc t (.asleep c), s.iteration⟩)
        (awake ⟨s.system.setPc t (.asleep c), s.iteration⟩) <
      workload (work iterations s) s.awake := by
  have hawake : s.awake t = true := by
    rw [awake, hpc]
    rfl
  refine workload_lt_of_sleep (t := t) (fun u ↦ ?_) hawake ?_ fun u hu ↦ ?_
  · rcases eq_or_ne u t with rfl | hne
    · simp [work, State.setPc, hpc, busy]
    · exact work_setPc hne
  · simp [awake, State.setPc, isAwake]
  · rcases eq_or_ne u t with rfl | hne
    · exact hawake
    · simpa [awake, State.setPc, hne] using hu

theorem Inv.workload_lt [Fintype ι] {l : List ℕ} (h : Inv maxSize iterations es s l)
    (hstep : Step iterations s e s') (hspurious : spurious e = false) :
    workload (work iterations s') s'.awake < workload (work iterations s) s.awake := by
  have hok := h.pcOk
  cases hstep with
  | wake => cases hspurious
  | @callPush t _ hnot hlt hsystem =>
    obtain ⟨c, hc, hpc, rfl⟩ | ⟨_, ⟨⟩, _⟩ | ⟨_, _, _, ⟨⟩, _⟩ | ⟨_, _, ⟨⟩, _⟩ :=
      act_cases hsystem
    apply QueueTest.workload_lt fun u ↦ work_setPc
    simp [work, State.setPc, busy, hpc, hnot]
    omega
  | @callPull t _ hpushed hsystem =>
    obtain ⟨c, hc, hpc, rfl⟩ | ⟨_, ⟨⟩, _⟩ | ⟨_, _, _, ⟨⟩, _⟩ | ⟨_, _, ⟨⟩, _⟩ :=
      act_cases hsystem
    have hout := hok t
    rw [hpc] at hout
    have hlt : (s.iteration t).i < iterations := by
      simpa [PcOk, Iteration.pushes, hpushed] using hout
    apply QueueTest.workload_lt fun u ↦ work_setPc
    simp [work, State.setPc, busy, hpc, hpushed]
    omega
  | @sleep t c _ hsystem =>
    obtain ⟨_, ⟨⟩, _⟩ | ⟨c', hc, hpc, -, rfl⟩ | ⟨_, _, _, ⟨⟩, _⟩ | ⟨_, _, ⟨⟩, _⟩ :=
      act_cases hsystem
    exact workload_sleep hpc
  | @push t data _ hsystem =>
    obtain ⟨_, ⟨⟩, _⟩ | ⟨_, ⟨⟩, _⟩ | ⟨_, _, _, -, hpc, -, -, -, rfl⟩ | ⟨_, _, ⟨⟩, _⟩ :=
      act_cases hsystem
    have hpush := hok t
    rw [hpc] at hpush
    obtain ⟨-, hnot, hlt⟩ := hpush
    apply QueueTest.workload_lt fun u ↦ work_finish
    simp [work, State.finish, Exit.pc, busy, hpc, hnot]
    omega
  | @pull t data _ hsystem =>
    obtain ⟨_, ⟨⟩, _⟩ | ⟨_, ⟨⟩, _⟩ | ⟨_, _, _, ⟨⟩, _⟩ | ⟨_, _, -, hpc, -, -, rfl⟩ :=
      act_cases hsystem
    have hpull := hok t
    rw [hpc] at hpull
    obtain ⟨hpushed, hlt⟩ := hpull
    apply QueueTest.workload_lt fun u ↦ work_finish
    simp [work, State.finish, Exit.pc, busy, hpc, hpushed]
    omega

theorem workload_le [Fintype ι] (hstep : Step iterations s e s') (hspurious : spurious e = true) :
    workload (work iterations s') s'.awake ≤ workload (work iterations s) s.awake + 1 := by
  cases hstep with
  | @wake t _ hsystem =>
    cases hsystem
    refine workload_le_of_wake (t := t) (fun u ↦ ?_) fun u hne hu ↦ ?_
    · rcases eq_or_ne u t with rfl | hne
      · simp [work, State.setPc, busy_wake]
      · exact work_setPc hne
    · simpa [awake, State.setPc, hne] using hu
  | _ => cases hspurious

omit [DecidableEq ι] in
theorem workload_start [Fintype ι] :
    workload (work iterations (start maxSize : QueueTest ι)) (start maxSize : QueueTest ι).awake =
      Fintype.card ι * (4 * iterations) * (Fintype.card ι + 1) + Fintype.card ι := by
  simp [workload, work, awake, start, Queue.start, busy, isAwake]

/-! ## The whole test -/

/-- No number is pushed twice. -/
theorem Inv.nodup_pushed [Fintype ι] {l : List ℕ} (h : Inv maxSize iterations es s l) :
    (pushed es).Nodup := by
  apply List.nodup_iff_count_le_one.mpr
  intro data
  have hfilter : (pushed es).count data =
      ((pushed es).filter fun other ↦ other.1 = data.1).count data :=
    (List.count_filter (by simp)).symm
  rw [hfilter, h.numbers data.1]
  apply List.nodup_iff_count_le_one.mp
  exact List.nodup_range.map (Prod.mk_right_injective data.1)

/-- The test of the queue under every schedule: as long as a thread has not left its loop, one of
them can go on without a wake-up out of nothing, and each step but such a wake-up brings the
end nearer.  No number is pulled twice; in the end each has been pulled, and the queue is
destroyed without a node left. -/
theorem queueTest_completes [Fintype ι] (hrun : Run (Step iterations) (start maxSize) es s) :
    es.countP (fun e ↦ !spurious e) ≤
        Fintype.card ι * (4 * iterations) * (Fintype.card ι + 1) + Fintype.card ι +
          es.countP spurious ∧
      (pulled es).Nodup ∧
      (¬ (∀ t, s.Finished iterations t) → ∃ e s', spurious e = false ∧ Step iterations s e s') ∧
      ((∀ t, s.Finished iterations t) →
        (∀ t i, i < iterations → some (t, i) ∈ pulled es) ∧
          ∃ fuel q, s.system.shared.queueDestroy fuel = some q ∧ q.heap = fun _ ↦ none) := by
  obtain ⟨l, h⟩ := inv_of_run hrun
  have hfifo := h.reaches.fifo
  refine ⟨?_, ?_, ?_, ?_⟩
  · have hcount := Run.countP_le (I := fun s : QueueTest ι ↦ ∃ es l, Inv maxSize iterations es s l)
      (μ := fun s ↦ workload (work iterations s) s.awake) (p := spurious)
      (fun s e s' ⟨es, l, h⟩ hstep ↦ ⟨_, h.step hstep⟩)
      (fun s e s' ⟨es, l, h⟩ hstep he ↦ h.workload_lt hstep he)
      (fun s e s' _ hstep he ↦ workload_le hstep he) hrun ⟨[], [], .init⟩
    rw [workload_start] at hcount
    exact (Nat.le_add_right _ _).trans hcount
  · have hnodup : ((pushed es).map some).Nodup := h.nodup_pushed.map (Option.some_injective _)
    rw [← hfifo] at hnodup
    exact hnodup.of_append_left
  · intro hnot
    push Not at hnot
    obtain ⟨t, ht⟩ := hnot
    obtain ⟨u, hawake, hu⟩ := exists_awake h (fun _ _ hc ↦ waits_of_run hrun hc) ht
    exact exists_step_of_awake h hawake hu
  · intro hfinished
    have hl : l = [] := by
      apply List.eq_nil_of_length_eq_zero
      rw [h.size, Finset.card_eq_zero, between, Finset.filter_eq_empty_iff]
      intro t _
      simp [(hfinished t).2.2]
    refine ⟨fun t i hi ↦ ?_, ?_⟩
    · have hmem : (t, i) ∈ (pushed es).filter fun data ↦ data.1 = t := by
        rw [h.numbers t]
        simpa [Iteration.pushes, (hfinished t).2.1, (hfinished t).2.2] using hi
      rw [hl, List.map_nil, List.append_nil] at hfifo
      rw [hfifo]
      exact List.mem_map_of_mem (List.mem_of_mem_filter hmem)
    · obtain ⟨q, hq, hheap⟩ := Queue.freeNodes_eq h.reaches.holds.segment h.stores
      exact ⟨l.length + 1, { q with head := none, tail := none, size := 0 },
        by simp [Queue.queueDestroy, hq], hheap⟩

/-- Two threads with one iteration share a queue with one place.  The second waits until the first
has pulled its number. -/
theorem queueTest_completes_two : ∃ (es : List (Label Bool (Event (Number Bool))))
    (s : QueueTest Bool),
    es = [.act false (.call (.push (false, 0))), .act false (.push (false, 0)),
      .act true (.call (.push (true, 0))), .act true (.sleep (.push (true, 0))),
      .act false (.call .pull), .act false (.pull (some (false, 0))), .act true (.push (true, 0)),
      .act true (.call .pull), .act true (.pull (some (true, 0)))] ∧
    Run (Step 1) (start 1) es s ∧ (∀ t i, i < 1 → some (t, i) ∈ pulled es) ∧
    ∃ fuel q, s.system.shared.queueDestroy fuel = some q ∧ q.heap = fun _ ↦ none := by
  let filled (q : Queue (Number Bool)) (data : Number Bool) : Queue (Number Bool) :=
    { q with head := some 0, tail := some 0, size := 1,
             heap := Function.update q.heap 0 (some ⟨data, none⟩) }
  let emptied (q : Queue (Number Bool)) : Queue (Number Bool) :=
    { q with head := none, size := 0, heap := Function.update q.heap 0 none }
  let q₂ := filled (queueCreate 1) (false, 0)
  let q₆ := emptied q₂
  let q₇ := filled q₆ (true, 0)
  let q₉ := emptied q₇
  let s₀ : QueueTest Bool := start 1
  let u₁ := s₀.system.setPc false (.ready (.push (false, 0)))
  let u₂ := u₁.finish false q₂ (.leave () true)
  let u₃ := u₂.setPc true (.ready (.push (true, 0)))
  let u₄ := u₃.finish true q₂ (.wait (.push (true, 0)))
  let u₅ := u₄.setPc false (.ready .pull)
  let u₆ := u₅.finish false q₆ (.leave () true)
  let u₇ := u₆.finish true q₇ (.leave () true)
  let u₈ := u₇.setPc true (.ready .pull)
  let u₉ := u₈.finish true q₉ (.leave () true)
  let i₂ := Function.update s₀.iteration false ⟨0, true⟩
  let i₆ := Function.update i₂ false ⟨1, false⟩
  let i₇ := Function.update i₆ true ⟨0, true⟩
  let i₉ := Function.update i₇ true ⟨1, false⟩
  have h₁ : Step 1 s₀ (.act false (.call (.push (false, 0)))) ⟨u₁, s₀.iteration⟩ :=
    .callPush rfl (by decide) (step_call _ rfl)
  have hroom₁ : ¬ u₁.shared.pushWaits := fun h ↦ absurd h.2 (by decide)
  have hpush₁ : u₁.shared.queuePush 0 (false, 0) = some q₂ := rfl
  have h₂ : Step 1 ⟨u₁, s₀.iteration⟩ (.act false (.push (false, 0))) ⟨u₂, i₂⟩ :=
    .push (.critical rfl (Section.push hroom₁ rfl hpush₁))
  have h₃ : Step 1 ⟨u₂, i₂⟩ (.act true (.call (.push (true, 0)))) ⟨u₃, i₂⟩ :=
    .callPush rfl (by decide) (step_call _ rfl)
  have hwaits : u₃.shared.waits (.push (true, 0)) := ⟨by decide, rfl⟩
  have h₄ : Step 1 ⟨u₃, i₂⟩ (.act true (.sleep (.push (true, 0)))) ⟨u₄, i₂⟩ :=
    .sleep (.critical rfl (Section.sleep hwaits))
  have h₅ : Step 1 ⟨u₄, i₂⟩ (.act false (.call .pull)) ⟨u₅, i₂⟩ := .callPull rfl (step_call _ rfl)
  have hfull₅ : ¬ u₅.shared.pullWaits := show (1 : ℤ) ≠ 0 by decide
  have hpull₅ : u₅.shared.queuePull = some (q₆, some (false, 0)) := rfl
  have h₆ : Step 1 ⟨u₅, i₂⟩ (.act false (.pull (some (false, 0)))) ⟨u₆, i₆⟩ :=
    .pull (.critical rfl (Section.pull hfull₅ hpull₅))
  have hroom₆ : ¬ u₆.shared.pushWaits := fun h ↦ absurd h.2 (by decide)
  have hpush₆ : u₆.shared.queuePush 0 (true, 0) = some q₇ := rfl
  have h₇ : Step 1 ⟨u₆, i₆⟩ (.act true (.push (true, 0))) ⟨u₇, i₇⟩ :=
    .push (.critical rfl (Section.push hroom₆ rfl hpush₆))
  have h₈ : Step 1 ⟨u₇, i₇⟩ (.act true (.call .pull)) ⟨u₈, i₇⟩ := .callPull rfl (step_call _ rfl)
  have hfull₈ : ¬ u₈.shared.pullWaits := show (1 : ℤ) ≠ 0 by decide
  have hpull₈ : u₈.shared.queuePull = some (q₉, some (true, 0)) := rfl
  have h₉ : Step 1 ⟨u₈, i₇⟩ (.act true (.pull (some (true, 0)))) ⟨u₉, i₉⟩ :=
    .pull (.critical rfl (Section.pull hfull₈ hpull₈))
  have hrun := Run.cons h₁ (Run.cons h₂ (Run.cons h₃ (Run.cons h₄ (Run.cons h₅
    (Run.cons h₆ (Run.cons h₇ (Run.cons h₈ (Run.single h₉))))))))
  have hfinished : ∀ t, Finished 1 ⟨u₉, i₉⟩ t := by
    intro t
    cases t <;> exact ⟨rfl, rfl, rfl⟩
  obtain ⟨-, -, -, hend⟩ := queueTest_completes hrun
  obtain ⟨hpulled, hdestroyed⟩ := hend hfinished
  exact ⟨_, _, rfl, hrun, hpulled, hdestroyed⟩

end QueueTest

end SystemProgramming.CriticalConcurrency
