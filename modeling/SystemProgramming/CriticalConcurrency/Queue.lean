import SystemProgramming.Lib.LinkedList
import SystemProgramming.Lib.Monitor

/-!
# The bounded queue

The nodes of `queue.c` live in a heap.  Threads take turns in the critical sections of
`queue_push` and `queue_pull`; a thread that has to wait sleeps until it is woken and
then runs its section again.
-/

namespace SystemProgramming.CriticalConcurrency

open Monitor

variable {ι : Type*} {α : Type}

structure QueueNode (α : Type) where
  data : α
  next : Option ℕ

/-- The heap maps the addresses of the nodes that have not been freed.  A null pointer
is `none`. -/
structure Queue (α : Type) where
  head : Option ℕ
  tail : Option ℕ
  size : ℤ
  maxSize : ℤ
  heap : ℕ → Option (QueueNode α)

def queueCreate (maxSize : ℤ) : Queue α := ⟨none, none, 0, maxSize, fun _ ↦ none⟩

namespace Queue

variable (q : Queue α)

/-- The conditions of the two waiting loops. -/
def pushWaits : Prop := 0 < q.maxSize ∧ q.size = q.maxSize

def pullWaits : Prop := q.size = 0

/-- The rest of `queue_push` with the address that `malloc` has returned.  An access to a
null pointer or to a freed node is `none`. -/
def queuePush (insert : ℕ) (data : α) : Option (Queue α) :=
  let heap := Function.update q.heap insert (some ⟨data, none⟩)
  match q.head with
  | none => some { q with head := some insert, tail := some insert, size := q.size + 1, heap }
  | some _ => do
    let tail ← q.tail
    let node ← heap tail
    let heap := Function.update heap tail (some { node with next := some insert })
    pure { q with tail := some insert, size := q.size + 1, heap }

/-- The rest of `queue_pull`.  It returns a null pointer when the list is empty. -/
def queuePull : Option (Queue α × Option α) :=
  match q.head with
  | none => some (q, none)
  | some cur => do
    let node ← q.heap cur
    pure ({ q with head := node.next, size := q.size - 1,
                   heap := Function.update q.heap cur none }, some node.data)

/-- A call in progress. -/
inductive Call (α : Type)
  | push (data : α)
  | pull

/-- A return from `queue_pull` shows the returned pointer.  A `queue_push` fails when `malloc`
does. -/
inductive Event (α : Type)
  | call (c : Call α)
  | sleep (c : Call α)
  | push (data : α)
  | pull (data : Option α)
  | fail (data : α)

/-- The condition of the waiting loop of a call. -/
def waits : Call α → Prop
  | .push _ => q.pushWaits
  | .pull => q.pullWaits

/-- The sections of the calls, when `malloc` gives memory. -/
inductive Section : Call α → Event α → Queue α → Exit Unit (Call α) → Prop
  | sleep {c : Call α} : q.waits c → Section c (.sleep c) q (.wait c)
  | push {data : α} {insert : ℕ} {q' : Queue α} : ¬ q.pushWaits → q.heap insert = none →
      q.queuePush insert data = some q' → Section (.push data) (.push data) q' (.leave () true)
  | pull {data : Option α} {q' : Queue α} : ¬ q.pullWaits → q.queuePull = some (q', data) →
      Section .pull (.pull data) q' (.leave () true)

/-- A thread is in one call after the other. -/
def program : Program (Queue α) Unit (Call α) (Event α) where
  outside _ _ e next := ∃ c, e = .call c ∧ next = .inr c
  critical := Section

def start (maxSize : ℤ) : State ι (Queue α) Unit (Call α) :=
  ⟨queueCreate maxSize, fun _ ↦ .out ()⟩

/-- The values pushed and the pointers returned in a run, in order. -/
def pushed (es : List (Label ι (Event α))) : List α :=
  es.filterMap fun
    | .act _ (.push data) => some data
    | _ => none

def pulled (es : List (Label ι (Event α))) : List (Option α) :=
  es.filterMap fun
    | .act _ (.pull data) => some data
    | _ => none

/-- The link of a node. -/
def next (q : Queue α) (a : ℕ) : Option (Option ℕ) := (q.heap a).map QueueNode.next

/-- The value of a node. -/
def value (q : Queue α) (a : ℕ) : Option α := (q.heap a).map QueueNode.data

/-- The nodes `l` are the list at `head`, and the counter and the pointers agree with
it. -/
structure Holds (q : Queue α) (l : List ℕ) : Prop where
  segment : Segment q.next q.head l none
  size : q.size = l.length
  tail : l ≠ [] → q.tail = l.getLast?
  bounded : 0 < q.maxSize → q.size ≤ q.maxSize

variable {q q' : Queue α} {l : List ℕ} {a : ℕ} {data : α}

theorem Holds.head_eq_none_iff (h : q.Holds l) : q.head = none ↔ q.size = 0 := by
  rw [h.segment.head?_eq, h.size]
  simp

theorem Holds.heap_ne_none (h : q.Holds l) (ha : a ∈ l) : q.heap a ≠ none := by
  have hsome := h.segment.isSome_of_mem ha
  simp only [next, Option.isSome_map, Option.isSome_iff_ne_none] at hsome
  exact hsome

/-- A push puts a new node behind the last one. -/
theorem Holds.queuePush (h : q.Holds l) (hwait : ¬ q.pushWaits) (hfree : q.heap a = none)
    (data : α) : ∃ q', q.queuePush a data = some q' ∧ q'.Holds (l ++ [a]) ∧
      q'.value a = some data ∧ ∀ b ∈ l, q'.value b = q.value b := by
  have hroom : 0 < q.maxSize → q.size + 1 ≤ q.maxSize := by
    intro hpos
    have hle := h.bounded hpos
    have hne : q.size ≠ q.maxSize := fun heq ↦ hwait ⟨hpos, heq⟩
    omega
  have hne : ∀ b ∈ l, b ≠ a := by
    rintro b hb rfl
    exact h.heap_ne_none hb hfree
  rcases l.eq_nil_or_concat with rfl | ⟨l₀, b, rfl⟩
  · have hhead : q.head = none := h.segment
    have hpush : q.queuePush a data = some { q with
        head := some a, tail := some a, size := q.size + 1,
        heap := Function.update q.heap a (some ⟨data, none⟩) } := by
      simp only [Queue.queuePush, hhead]
    refine ⟨_, hpush, ⟨?_, ?_, ?_, hroom⟩, ?_, by simp⟩
    · simp [Segment, next]
    · simp [h.size]
    · simp
    · simp [value]
  · rw [List.concat_eq_append] at h hne ⊢
    obtain ⟨hl₀, hb⟩ := Segment.snoc_iff.mp h.segment
    have htail : q.tail = some b := by simpa using h.tail (by simp)
    obtain ⟨node, hnode⟩ := Option.ne_none_iff_exists'.mp (h.heap_ne_none (a := b) (by simp))
    have hba : b ≠ a := hne b (by simp)
    have hnodup := h.segment.nodup
    have hb₀ : b ∉ l₀ := fun hmem ↦ by
      simpa using (List.nodup_append.mp hnodup).2.2 b hmem b (by simp)
    obtain ⟨first, hfirst⟩ : ∃ first, q.head = some first := by
      rw [h.segment.head?_eq]
      cases l₀ <;> simp
    have hheap : Function.update q.heap a (some ⟨data, none⟩) b = some node := by
      rw [Function.update_of_ne hba, hnode]
    have hpush : q.queuePush a data = some { q with
        tail := some a, size := q.size + 1,
        heap := Function.update (Function.update q.heap a (some ⟨data, none⟩)) b
          (some { node with next := some a }) } := by
      simp only [Queue.queuePush, hfirst, htail, Option.bind_eq_bind, Option.bind_some, hheap,
        Option.pure_def]
    refine ⟨_, hpush, ⟨?_, ?_, ?_, hroom⟩, ?_, ?_⟩
    · rw [Segment.snoc_iff, Segment.snoc_iff]
      refine ⟨⟨hl₀.congr ?_, ?_⟩, ?_⟩
      · intro c hc
        have hcb : c ≠ b := fun heq ↦ hb₀ (heq ▸ hc)
        have hca : c ≠ a := hne c (by simp [hc])
        simp [next, hcb, hca]
      · simp [next]
      · simp [next, Function.update_of_ne hba.symm]
    · have hsize := h.size
      simp only [List.length_append, List.length_singleton] at hsize ⊢
      omega
    · simp
    · simp [value, Function.update_of_ne hba.symm]
    · intro c hc
      have hca := hne c hc
      by_cases hcb : c = b
      · subst hcb
        simp [value, hnode]
      · simp [value, hcb, hca]

theorem maxSize_queuePush (hq : q.queuePush a data = some q') : q'.maxSize = q.maxSize := by
  unfold queuePush at hq
  cases hhead : q.head with
  | none =>
    simp only [hhead, Option.some.injEq] at hq
    rw [← hq]
  | some first =>
    simp only [hhead, Option.bind_eq_bind, Option.bind_eq_some_iff, Option.pure_def,
      Option.some.injEq] at hq
    obtain ⟨_, _, _, _, rfl⟩ := hq
    rfl

theorem maxSize_queuePull {ret : Option α} (hq : q.queuePull = some (q', ret)) :
    q'.maxSize = q.maxSize := by
  unfold Queue.queuePull at hq
  cases hhead : q.head with
  | none =>
    simp only [hhead, Option.some.injEq, Prod.mk.injEq] at hq
    rw [← hq.1]
  | some cur =>
    simp only [hhead, Option.bind_eq_bind, Option.bind_eq_some_iff, Option.pure_def,
      Option.some.injEq, Prod.mk.injEq] at hq
    obtain ⟨_, _, rfl, _⟩ := hq
    rfl

/-- A pull takes the first node away. -/
theorem Holds.queuePull (h : q.Holds l) (hwait : ¬ q.pullWaits) : ∃ q' a l' data,
    l = a :: l' ∧ q.queuePull = some (q', some data) ∧ q.value a = some data ∧ q'.Holds l' ∧
      ∀ b ∈ l', q'.value b = q.value b := by
  cases l with
  | nil => exact absurd h.size hwait
  | cons a l =>
    have hnodup := h.segment.nodup
    obtain ⟨hhead, r, hnext, hrest⟩ := h.segment
    obtain ⟨node, hnode⟩ := Option.ne_none_iff_exists'.mp (h.heap_ne_none (a := a) (by simp))
    have hr : node.next = r := by simpa [next, hnode] using hnext
    have hne : ∀ b ∈ l, b ≠ a := by
      rintro b hb rfl
      exact (List.nodup_cons.mp hnodup).1 hb
    have hpull : q.queuePull = some ({ q with
        head := node.next, size := q.size - 1, heap := Function.update q.heap a none },
        some node.data) := by
      simp only [Queue.queuePull, hhead, hnode, Option.bind_eq_bind, Option.bind_some,
        Option.pure_def]
    refine ⟨_, a, l, node.data, rfl, hpull, by simp [value, hnode], ⟨?_, ?_, ?_, ?_⟩, ?_⟩
    · rw [hr]
      apply hrest.congr
      intro b hb
      simp [next, hne b hb]
    · have := h.size
      simp only [List.length_cons] at this
      push_cast at this
      simp only
      omega
    · intro hl
      have := h.tail (by simp)
      rw [List.getLast?_cons_of_ne_nil hl] at this
      exact this
    · intro hpos
      have := h.bounded hpos
      simp only at this ⊢
      omega
    · intro b hb
      simp [value, hne b hb]

/-! ## Runs -/

/-- What has been pushed is what has been pulled and what is still stored. -/
structure Reaches (maxSize : ℤ) (es : List (Label ι (Event α))) (q : Queue α) (l : List ℕ) :
    Prop where
  holds : q.Holds l
  maxSize_eq : q.maxSize = maxSize
  fifo : pulled es ++ l.map q.value = (pushed es).map some

variable {maxSize : ℤ} {es : List (Label ι (Event α))} {e : Label ι (Event α)} {t : ι}

theorem reaches_start : Reaches maxSize ([] : List (Label ι (Event α))) (queueCreate maxSize) [] where
  holds :=
    { segment := rfl
      size := rfl
      tail := fun h ↦ absurd rfl h
      bounded := fun h ↦ h.le }
  maxSize_eq := rfl
  fifo := rfl

theorem pushed_snoc (e : Label ι (Event α)) : pushed (es ++ [e]) = pushed es ++ pushed [e] :=
  List.filterMap_append

theorem pulled_snoc (e : Label ι (Event α)) : pulled (es ++ [e]) = pulled es ++ pulled [e] :=
  List.filterMap_append

/-- A step that moves no value. -/
theorem Reaches.quiet (h : Reaches maxSize es q l) (hpush : pushed [e] = [])
    (hpull : pulled [e] = []) : Reaches maxSize (es ++ [e]) q l where
  holds := h.holds
  maxSize_eq := h.maxSize_eq
  fifo := by
    rw [pushed_snoc, pulled_snoc, hpush, hpull, List.append_nil, List.append_nil]
    exact h.fifo

theorem Reaches.push (h : Reaches maxSize es q l) (hwait : ¬ q.pushWaits)
    (hfree : q.heap a = none) (hq : q.queuePush a data = some q') :
    Reaches maxSize (es ++ [.act t (.push data)]) q' (l ++ [a]) := by
  obtain ⟨q₁, hq₁, hholds, hvalue, hsame⟩ := h.holds.queuePush hwait hfree data
  obtain rfl : q₁ = q' := Option.some.inj (hq₁.symm.trans hq)
  refine ⟨hholds, (maxSize_queuePush hq).trans h.maxSize_eq, ?_⟩
  have hmap : l.map q₁.value = l.map q.value := List.map_congr_left hsame
  calc
    pulled (es ++ [.act t (.push data)]) ++ (l ++ [a]).map q₁.value
        = pulled es ++ l.map q.value ++ [some data] := by
      simp [pulled, hmap, hvalue]
    _ = (pushed (es ++ [.act t (.push data)])).map some := by
      rw [h.fifo]
      simp [pushed]

theorem Reaches.pull {ret : Option α} (h : Reaches maxSize es q l) (hwait : ¬ q.pullWaits)
    (hq : q.queuePull = some (q', ret)) :
    Reaches maxSize (es ++ [.act t (.pull ret)]) q' l.tail := by
  obtain ⟨q₁, a, l', data, rfl, hq₁, hvalue, hholds, hsame⟩ := h.holds.queuePull hwait
  obtain ⟨rfl, rfl⟩ : q₁ = q' ∧ some data = ret := by
    simpa using hq₁.symm.trans hq
  refine ⟨hholds, (maxSize_queuePull hq).trans h.maxSize_eq, ?_⟩
  have hmap : l'.map q₁.value = l'.map q.value := List.map_congr_left hsame
  calc
    pulled (es ++ [.act t (.pull (some data))]) ++ l'.map q₁.value
        = pulled es ++ (a :: l').map q.value := by
      simp [pulled, hmap, hvalue]
    _ = (pushed (es ++ [.act t (.pull (some data))])).map some := by
      rw [h.fifo]
      simp [pushed]

variable [DecidableEq ι] {s s' : State ι (Queue α) Unit (Call α)}

theorem step_call (c : Call α) (ht : s.pc t = .out ()) :
    Step program s (.act t (.call c)) (s.setPc t (.ready c)) := by
  have hout : program.outside s.shared () (.call c) (.inr c) := ⟨c, rfl, rfl⟩
  exact .outside ht hout

/-- A step of a thread is a call, or its section with what comes of it. -/
theorem act_cases {t : ι} {e : Event α} (h : Step program s (.act t e) s') :
    (∃ c, e = .call c ∧ s.pc t = .out () ∧ s' = s.setPc t (.ready c)) ∨
    (∃ c, e = .sleep c ∧ s.pc t = .ready c ∧ s.shared.waits c ∧ s' = s.setPc t (.asleep c)) ∨
    (∃ data a q, e = .push data ∧ s.pc t = .ready (.push data) ∧ ¬ s.shared.pushWaits ∧
      s.shared.heap a = none ∧ s.shared.queuePush a data = some q ∧
      s' = s.finish t q (.leave () true)) ∨
    ∃ data q, e = .pull data ∧ s.pc t = .ready .pull ∧ ¬ s.shared.pullWaits ∧
      s.shared.queuePull = some (q, data) ∧ s' = s.finish t q (.leave () true) := by
  cases h with
  | outside ht hout =>
    obtain ⟨c, rfl, rfl⟩ := hout
    exact .inl ⟨c, rfl, ht, rfl⟩
  | critical ht hsection =>
    cases hsection with
    | sleep hwaits => exact .inr (.inl ⟨_, rfl, ht, hwaits, rfl⟩)
    | push hwait hfree hq => exact .inr (.inr (.inl ⟨_, _, _, rfl, ht, hwait, hfree, hq, rfl⟩))
    | pull hwait hq => exact .inr (.inr (.inr ⟨_, _, rfl, ht, hwait, hq, rfl⟩))

theorem Reaches.step (h : Reaches maxSize es s.shared l) (hstep : Step program s e s') :
    ∃ l', Reaches maxSize (es ++ [e]) s'.shared l' := by
  cases hstep with
  | wake => exact ⟨l, h.quiet rfl rfl⟩
  | outside _ hout =>
    obtain ⟨c, rfl, rfl⟩ := hout
    exact ⟨l, h.quiet rfl rfl⟩
  | critical _ hsection =>
    cases hsection with
    | sleep => exact ⟨l, h.quiet rfl rfl⟩
    | push hwait hfree hq => exact ⟨_, h.push hwait hfree hq⟩
    | pull hwait hq => exact ⟨_, h.pull hwait hq⟩

theorem reaches_of_run (hrun : Run (Step program) (start maxSize) es s) :
    ∃ l, Reaches maxSize es s.shared l := by
  induction hrun with
  | nil => exact ⟨[], reaches_start⟩
  | snoc _ hlast ih =>
    obtain ⟨l, hl⟩ := ih
    exact hl.step hlast

end Queue

open Queue

/-- The list at `head` in every reachable state, and the order of the values.  A thread
that is let into its section gets through it. -/
theorem queue_fifo [DecidableEq ι] {maxSize : ℤ} {es : List (Label ι (Event α))}
    {s : State ι (Queue α) Unit (Call α)} (hrun : Run (Step program) (start maxSize) es s) :
    ∃ l : List ℕ, Segment s.shared.next s.shared.head l none ∧
      s.shared.size = l.length ∧
      (s.shared.head = none ↔ s.shared.size = 0) ∧
      (0 < s.shared.size → s.shared.tail = l.getLast?) ∧
      (0 < maxSize → s.shared.size ≤ maxSize) ∧
      pulled es ++ l.map s.shared.value = (pushed es).map some ∧
      (∀ data insert, ¬ s.shared.pushWaits → s.shared.heap insert = none →
        (s.shared.queuePush insert data).isSome) ∧
      (¬ s.shared.pullWaits → ∃ q data, s.shared.queuePull = some (q, some data)) := by
  obtain ⟨l, hholds, hmax, hfifo⟩ := reaches_of_run hrun
  refine ⟨l, hholds.segment, hholds.size, hholds.head_eq_none_iff, ?_, ?_, hfifo, ?_, ?_⟩
  · intro hpos
    apply hholds.tail
    rintro rfl
    simp [hholds.size] at hpos
  · rw [← hmax]
    exact hholds.bounded
  · intro data insert hwait hfree
    obtain ⟨q', hq', -⟩ := hholds.queuePush hwait hfree data
    simp [hq']
  · intro hwait
    obtain ⟨q', -, -, data, -, hq', -⟩ := hholds.queuePull hwait
    exact ⟨q', data, hq'⟩

/-- A consumer that sleeps on an empty queue gets the value of the producer. -/
theorem queue_fifo_sleeping_consumer : ∃ (s : State Bool (Queue ℕ) Unit (Call ℕ)) (l : List ℕ),
    Run (Step program) (start 1) [.act true (.call .pull), .act true (.sleep .pull),
      .act false (.call (.push 7)), .act false (.push 7), .act true (.pull (some 7))] s ∧
    Segment s.shared.next s.shared.head l none ∧ s.shared.size = l.length ∧
    [some 7] ++ l.map s.shared.value = [some 7] := by
  let q₄ : Queue ℕ := ⟨some 0, some 0, 1, 1, Function.update (fun _ ↦ none) 0 (some ⟨7, none⟩)⟩
  let q₅ : Queue ℕ := { q₄ with head := none, size := 0, heap := Function.update q₄.heap 0 none }
  let s₁ : State Bool (Queue ℕ) Unit (Call ℕ) := (start 1).setPc true (.ready .pull)
  let s₂ := s₁.finish true s₁.shared (.wait .pull)
  let s₃ := s₂.setPc false (.ready (.push 7))
  let s₄ := s₃.finish false q₄ (.leave () true)
  let s₅ := s₄.finish true q₅ (.leave () true)
  have hempty : s₁.shared.waits .pull := rfl
  have hroom : ¬ s₃.shared.pushWaits := fun h ↦ absurd h.2 (by decide)
  have hpush : s₃.shared.queuePush 0 7 = some q₄ := rfl
  have hfull : ¬ s₄.shared.pullWaits := show (1 : ℤ) ≠ 0 by decide
  have hpull : s₄.shared.queuePull = some (q₅, some 7) := rfl
  have h₁ : Step program (start 1) (.act true (.call .pull)) s₁ := step_call .pull rfl
  have h₂ : Step program s₁ (.act true (.sleep .pull)) s₂ := .critical rfl (Section.sleep hempty)
  have h₃ : Step program s₂ (.act false (.call (.push 7))) s₃ := step_call (.push 7) rfl
  have h₄ : Step program s₃ (.act false (.push 7)) s₄ :=
    .critical rfl (Section.push hroom rfl hpush)
  have h₅ : Step program s₄ (.act true (.pull (some 7))) s₅ :=
    .critical rfl (Section.pull hfull hpull)
  have hrun := Run.cons h₁ (Run.cons h₂ (Run.cons h₃ (Run.cons h₄ (Run.single h₅))))
  obtain ⟨l, hsegment, hsize, -, -, -, hfifo, -⟩ := queue_fifo hrun
  exact ⟨s₅, l, hrun, hsegment, hsize, hfifo⟩

end SystemProgramming.CriticalConcurrency
