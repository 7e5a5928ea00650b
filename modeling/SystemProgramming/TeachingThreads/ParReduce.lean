import SystemProgramming.Lib.ForkJoin

/-!
# Reducing a list in parallel

The list is cut into pieces, a thread reduces each piece, and the results are reduced once
more.  No answer of `calloc`, `malloc` or `pthread_create` is looked at, so that the result depends
on them.
-/

namespace SystemProgramming.TeachingThreads

variable {α : Type*}

/-- The sequential reduction of the first `listLen` elements behind a pointer. -/
def reduce (list : List α) (listLen : ℕ) (func : α → α → α) (baseCase : α) : Option α :=
  if listLen ≤ list.length then some ((list.take listLen).foldl func baseCase) else none

/-- The numbers that a `size_t` can have. -/
def sizeTypeRange : ℕ := 2 ^ 64

/-- The answers of the system: whether the blocks are granted, in the order of the source, and
for each thread whether it is created and gets the block for its result. -/
structure Answers where
  threadSize : Bool
  data : Bool
  threads : Bool
  retvals : Bool
  created : ℕ → Bool
  result : ℕ → Bool

/-- The elements that `malloc( n * size )` has room for.  A null pointer has none. -/
def room (granted : Bool) (n size : ℕ) : ℕ :=
  if granted then n * size % sizeTypeRange / size else 0

/-- What `thread_size` stores. -/
def sizes (listLen numThreads : ℕ) : List ℕ :=
  if numThreads > listLen then
    (List.range numThreads).map fun i ↦ if i < listLen then 1 else 0
  else
    let lenThread := listLen / numThreads
    let remainder := listLen % numThreads
    (List.range numThreads).map fun i ↦ if i < remainder then lenThread + 1 else lenThread

/-- `thread_size`, with the size of its `calloc` checked for an overflow.  Through a null pointer a
size is stored here, or for an empty list read by the caller. -/
def threadSize (granted : Bool) (listLen numThreads : ℕ) : Option (List ℕ) :=
  if numThreads * 8 < sizeTypeRange ∧ granted then some (sizes listLen numThreads) else none

/-- `list` points to the first element of the piece. -/
structure ReduceT (α : Type*) where
  list : List α
  len : ℕ
  func : α → α → α
  baseCase : α

/-- The data of the threads, and the number of threads that are started. -/
abbrev ThreadData (α : Type*) := (ℕ → Option (ReduceT α)) × ℕ

/-- The loop that constructs the data of the threads, at index `i`.  Nothing is written behind the
block. -/
def constructData (list : List α) (func : α → α → α) (baseCase : α) (room : ℕ) :
    List ℕ → ℕ → ℕ → ℕ → (ℕ → Option (ReduceT α)) → Option (ThreadData α)
  | [], _, _, num, data => some (data, num)
  | size :: sizes, i, start, num, data =>
      if size > 0 then
        if i < room then
          constructData list func baseCase room sizes (i + 1) (start + size) (num + 1)
            (Function.update data i (some ⟨list.drop start, size, func, baseCase⟩))
        else none
      else constructData list func baseCase room sizes (i + 1) start num data

/-- Nothing is read from an element of `data` that has not been set, and the result is written into
a block that was granted. -/
def startRoutine (granted : Bool) (data : Option (ReduceT α)) : Option α :=
  if granted then data.bind fun d ↦ reduce d.list d.len d.func d.baseCase else none

section

variable (answers : Answers) (list : List α) (func : α → α → α) (baseCase : α) (numThreads : ℕ)

/-- What `par_reduce` does before it starts threads. -/
def threadData : Option (ThreadData α) :=
  (threadSize answers.threadSize list.length numThreads).bind fun sizes ↦
    constructData list func baseCase (room answers.data numThreads 32) sizes 0 0 0 fun _ ↦ none

/-- A thread that was created is stored in `threads`, and what it returns in `retvals`. -/
def Stores (s : ForkJoin.State α) : ForkJoin.Event → Prop
  | .create => s.created < room answers.threads numThreads 8 ∧ answers.created s.created = true
  | .finish _ => True
  | .join => s.joined.length < room answers.retvals numThreads 4

/-- The steps of the main thread and of the threads that it starts. -/
def Step (d : ThreadData α) : ForkJoin.State α → ForkJoin.Event → ForkJoin.State α → Prop :=
  Guarded (ForkJoin.Step d.2 fun i ↦ startRoutine (answers.result i) (d.1 i))
    (Stores answers numThreads)

/-- All threads have been joined. -/
def Joined (d : ThreadData α) (s : ForkJoin.State α) : Prop := ForkJoin.Done d.2 s

/-- What is returned after the last join. -/
def result (d : ThreadData α) (s : ForkJoin.State α) : Option α :=
  reduce s.joined d.2 func baseCase

end

/-! ## The sizes -/

/-- The sizes of the threads that are started. -/
def pieceSizes (listLen numThreads : ℕ) : List ℕ :=
  (sizes listLen numThreads).filter (0 < ·)

theorem map_range_ite {m n : ℕ} (h : m ≤ n) (a b : ℕ) :
    ((List.range n).map fun i ↦ if i < m then a else b) =
      List.replicate m a ++ List.replicate (n - m) b := by
  apply List.ext_getElem
  · simp
    omega
  · intro i _ _
    by_cases hi : i < m
    · simp [hi]
    · simp [hi, List.getElem_append]

/-- Both formulas are the quotient, and one more for as many threads as the remainder says. -/
theorem sizes_eq (listLen : ℕ) {numThreads : ℕ} (h : 1 ≤ numThreads) :
    sizes listLen numThreads =
      List.replicate (listLen % numThreads) (listLen / numThreads + 1) ++
        List.replicate (numThreads - listLen % numThreads) (listLen / numThreads) := by
  unfold sizes
  split
  · next hlt =>
    rw [map_range_ite hlt.le, Nat.mod_eq_of_lt hlt, Nat.div_eq_of_lt hlt]
  · exact map_range_ite (Nat.mod_lt _ h).le _ _

theorem length_sizes (listLen numThreads : ℕ) :
    (sizes listLen numThreads).length = numThreads := by
  unfold sizes
  split <;> simp

theorem sum_sizes (listLen : ℕ) {numThreads : ℕ} (h : 1 ≤ numThreads) :
    (sizes listLen numThreads).sum = listLen := by
  obtain ⟨k, hk⟩ := Nat.exists_eq_add_of_lt (Nat.mod_lt listLen h)
  have hdiv := Nat.mod_add_div listLen numThreads
  have hsub : numThreads - listLen % numThreads = k + 1 := by omega
  rw [sizes_eq listLen h, List.sum_append, List.sum_replicate, List.sum_replicate, hsub,
    smul_eq_mul, smul_eq_mul]
  nlinarith

theorem sizes_le_succ {listLen numThreads m n : ℕ} (h : 1 ≤ numThreads)
    (hm : m ∈ sizes listLen numThreads) (hn : n ∈ sizes listLen numThreads) :
    m ≤ n + 1 := by
  rw [sizes_eq listLen h] at hm hn
  simp only [List.mem_append, List.mem_replicate] at hm hn
  omega

/-- The threads without a piece are the last ones. -/
theorem sizes_eq_append (listLen : ℕ) {numThreads : ℕ} (h : 1 ≤ numThreads) :
    ∃ zeros, sizes listLen numThreads =
      pieceSizes listLen numThreads ++ List.replicate zeros 0 := by
  rw [pieceSizes, sizes_eq listLen h, List.filter_append]
  cases hq : listLen / numThreads with
  | zero =>
      refine ⟨numThreads - listLen % numThreads, ?_⟩
      simp
  | succ q =>
      refine ⟨0, ?_⟩
      simp

/-- No more threads are started than there are elements. -/
theorem length_pieceSizes (listLen : ℕ) {numThreads : ℕ} (h : 1 ≤ numThreads) :
    (pieceSizes listLen numThreads).length = min listLen numThreads := by
  rw [pieceSizes, sizes_eq listLen h, List.filter_append]
  have hmod := Nat.mod_lt listLen h
  cases hq : listLen / numThreads with
  | zero =>
      have hlt : listLen < numThreads := (Nat.div_eq_zero_iff_lt h).mp hq
      rw [Nat.mod_eq_of_lt hlt]
      simp [hlt.le]
  | succ q =>
      have hle : numThreads ≤ listLen := by
        by_contra hgt
        rw [Nat.div_eq_of_lt (not_le.mp hgt)] at hq
        cases hq
      simp [hle]
      omega

/-! ## The pieces -/

section

variable (list : List α) (func : α → α → α) (baseCase : α) {room : ℕ}

theorem constructData_zeros (zeros : ℕ) (i start num : ℕ) (data : ℕ → Option (ReduceT α)) :
    constructData list func baseCase room (List.replicate zeros 0) i start num data =
      some (data, num) := by
  induction zeros generalizing i with
  | zero => rfl
  | succ zeros ih =>
      rw [List.replicate_succ, constructData, if_neg (lt_irrefl 0)]
      exact ih (i + 1)

/-- Thread `i` gets the size with the same number, at the offset that the sizes before it make. -/
theorem constructData_spec {sizes : List ℕ} (hpos : ∀ size ∈ sizes, 0 < size) (zeros i start : ℕ)
    (hroom : i + sizes.length ≤ room) (data : ℕ → Option (ReduceT α)) :
    ∃ d, constructData list func baseCase room (sizes ++ List.replicate zeros 0) i start i data =
        some d ∧ d.2 = i + sizes.length ∧ (∀ j < i, d.1 j = data j) ∧
      ∀ j size, sizes[j]? = some size →
        d.1 (i + j) = some ⟨list.drop (start + (sizes.take j).sum), size, func, baseCase⟩ := by
  induction sizes generalizing start i data with
  | nil =>
      rw [List.nil_append, constructData_zeros]
      exact ⟨_, rfl, rfl, fun _ _ ↦ rfl, by simp⟩
  | cons size sizes ih =>
      obtain ⟨hsize, hpos⟩ := List.forall_mem_cons.mp hpos
      rw [List.length_cons] at hroom
      obtain ⟨d, hd, hnum, hbefore, hsizes⟩ := ih hpos (i + 1) (start + size) (by omega)
        (Function.update data i (some ⟨list.drop start, size, func, baseCase⟩))
      rw [List.cons_append, constructData, if_pos hsize, if_pos (by omega)]
      refine ⟨d, hd, ?_, ?_, ?_⟩
      · rw [hnum, List.length_cons]
        omega
      · intro j hj
        rw [hbefore j (by omega), Function.update_of_ne hj.ne]
      · intro j size' hj
        cases j with
        | zero =>
            obtain rfl : size = size' := by simpa using hj
            have hself := hbefore i (Nat.lt_succ_self i)
            rw [Function.update_self] at hself
            simpa using hself
        | succ j =>
            have hrest := hsizes j size' (by simpa using hj)
            rw [List.take_succ_cons, List.sum_cons, ← Nat.add_assoc start, ← hrest,
              Nat.add_assoc i, Nat.add_comm 1 j]

/-- The data of more threads than there is room for is written behind the block. -/
theorem constructData_eq_none {sizes : List ℕ} (hpos : ∀ size ∈ sizes, 0 < size)
    (hne : sizes ≠ []) (zeros i start : ℕ) (hroom : room < i + sizes.length)
    (data : ℕ → Option (ReduceT α)) :
    constructData list func baseCase room (sizes ++ List.replicate zeros 0) i start i data =
      none := by
  induction sizes generalizing start i data with
  | nil => exact absurd rfl hne
  | cons size sizes ih =>
      obtain ⟨hsize, hpos⟩ := List.forall_mem_cons.mp hpos
      rw [List.length_cons] at hroom
      rw [List.cons_append, constructData, if_pos hsize]
      split
      · next hi =>
        have hrest : sizes ≠ [] := by
          rintro rfl
          simp only [List.length_nil] at hroom
          omega
        exact ih hpos hrest (i + 1) (start + size) (by omega) _
      · rfl

end

/-- The pieces of a list are found at the offsets that the sizes make. -/
theorem getElem?_splitLengths {list piece : List α} {sizes : List ℕ} {i : ℕ}
    (h : (sizes.splitLengths list)[i]? = some piece) : ∃ size, sizes[i]? = some size ∧
      piece = (list.drop (sizes.take i).sum).take size := by
  induction sizes generalizing list i with
  | nil => simp at h
  | cons size sizes ih =>
      rw [List.splitLengths_cons] at h
      cases i with
      | zero =>
          refine ⟨size, rfl, ?_⟩
          simpa using h.symm
      | succ i =>
          obtain ⟨size', hsize, hpiece⟩ := ih (by simpa using h)
          refine ⟨size', by simpa using hsize, ?_⟩
          rw [hpiece, List.drop_drop, List.take_succ_cons, List.sum_cons]

/-! ## The result -/

/-- Reducing the pieces and then the results is reducing the list. -/
theorem foldl_map_foldl {func : α → α → α} {baseCase : α}
    (hassoc : ∀ a b c, func (func a b) c = func a (func b c))
    (hright : ∀ a, func a baseCase = a) (pieces : List (List α)) (a : α) :
    (pieces.map fun piece ↦ piece.foldl func baseCase).foldl func a =
      pieces.flatten.foldl func a := by
  have : Std.Associative func := ⟨hassoc⟩
  induction pieces generalizing a with
  | nil => rfl
  | cons piece pieces ih =>
      have hpiece : func a (piece.foldl func baseCase) = piece.foldl func a := by
        calc func a (piece.foldl func baseCase) = piece.foldl func (func a baseCase) :=
              List.foldl_assoc.symm
          _ = piece.foldl func a := by rw [hright]
      rw [List.map_cons, List.foldl_cons, ih, List.flatten_cons, List.foldl_append, hpiece]

/-- How the work is distributed: consecutive pieces that make up the list, of almost the same
length, and one started thread for each piece that is not empty. -/
def Distributes (list : List α) (func : α → α → α) (baseCase : α) (numThreads : ℕ)
    (d : ThreadData α) (pieces : List (List α)) : Prop :=
  sizes list.length numThreads =
      pieces.map List.length ++ List.replicate (numThreads - pieces.length) 0 ∧
    (∀ m ∈ sizes list.length numThreads, ∀ n ∈ sizes list.length numThreads, m ≤ n + 1) ∧
    pieces.flatten = list ∧ (∀ piece ∈ pieces, piece ≠ []) ∧ d.2 = pieces.length ∧
    ∀ i piece, pieces[i]? = some piece → d.1 i =
      some ⟨list.drop (pieces.take i).flatten.length, piece.length, func, baseCase⟩

/-- The sizes can be stored, and the data of the threads that are started. -/
structure Constructs (answers : Answers) (listLen numThreads : ℕ) : Prop where
  overflow : numThreads * 8 < sizeTypeRange
  threadSize : answers.threadSize = true
  data : min listLen numThreads ≤ room answers.data numThreads 32

theorem threadData_eq_none {answers : Answers} {list : List α} {func : α → α → α} {baseCase : α}
    {numThreads : ℕ} (h : 1 ≤ numThreads) (hnot : ¬ Constructs answers list.length numThreads) :
    threadData answers list func baseCase numThreads = none := by
  by_cases hsizes : numThreads * 8 < sizeTypeRange ∧ answers.threadSize = true
  · have hroom : room answers.data numThreads 32 < (pieceSizes list.length numThreads).length := by
      rw [length_pieceSizes _ h]
      exact not_le.mp fun hle ↦ hnot ⟨hsizes.1, hsizes.2, hle⟩
    obtain ⟨zeros, hzeros⟩ := sizes_eq_append list.length h
    have hpos : ∀ size ∈ pieceSizes list.length numThreads, 0 < size := by
      intro size hsize
      simpa using (List.mem_filter.mp hsize).2
    rw [threadData, threadSize, if_pos hsizes, hzeros]
    have hne := List.ne_nil_of_length_pos (Nat.zero_lt_of_lt hroom)
    exact constructData_eq_none _ _ _ hpos hne zeros 0 0 (by omega) _
  · rw [threadData, threadSize, if_neg hsizes]
    rfl

theorem exists_distributes {answers : Answers} {list : List α} (func : α → α → α) (baseCase : α)
    {numThreads : ℕ} (h : 1 ≤ numThreads) (hconstructs : Constructs answers list.length numThreads) :
    ∃ d pieces, threadData answers list func baseCase numThreads = some d ∧
      Distributes list func baseCase numThreads d pieces := by
  obtain ⟨zeros, hzeros⟩ := sizes_eq_append list.length h
  have hcount := length_pieceSizes list.length h
  set started := pieceSizes list.length numThreads with hstarted
  have hpos : ∀ size ∈ started, 0 < size := by
    intro size hsize
    simpa using (List.mem_filter.mp hsize).2
  have hsum : started.sum = list.length := by
    have hsum := sum_sizes list.length h
    rw [hzeros, List.sum_append] at hsum
    simpa using hsum
  have hmap : (started.splitLengths list).map List.length = started :=
    List.map_splitLengths_length _ _ hsum.le
  have hlength : started.length + zeros = numThreads := by
    have hlength := length_sizes list.length numThreads
    rwa [hzeros, List.length_append, List.length_replicate] at hlength
  have hroom : 0 + started.length ≤ room answers.data numThreads 32 := by
    rw [Nat.zero_add, hcount]
    exact hconstructs.data
  obtain ⟨d, hd, hnum, -, hspec⟩ :=
    constructData_spec list func baseCase hpos zeros 0 0 hroom fun _ ↦ none
  refine ⟨d, started.splitLengths list, ?_, ?_, ?_, ?_, ?_, ?_, ?_⟩
  · rw [threadData, threadSize, if_pos ⟨hconstructs.overflow, hconstructs.threadSize⟩, hzeros]
    exact hd
  · rw [hzeros, hmap, List.length_splitLengths, ← hlength, Nat.add_sub_cancel_left]
  · exact fun m hm n hn ↦ sizes_le_succ h hm hn
  · exact List.flatten_splitLengths _ _ hsum.ge
  · intro piece hpiece
    have hmem : piece.length ∈ started := hmap ▸ List.mem_map_of_mem hpiece
    exact List.ne_nil_of_length_pos (hpos _ hmem)
  · rw [hnum, List.length_splitLengths, Nat.zero_add]
  · intro i piece hpiece
    obtain ⟨size, hsize, -⟩ := getElem?_splitLengths hpiece
    have hoffset : (((started.splitLengths list).take i).flatten).length =
        (started.take i).sum := by
      rw [List.length_flatten, List.map_take, hmap]
    have hsame : piece.length = size := by
      have hlen := congrArg (Option.map List.length) hpiece
      rw [← List.getElem?_map, hmap, hsize] at hlen
      exact (Option.some.inj hlen).symm
    have hi := hspec i size hsize
    rw [Nat.zero_add, Nat.zero_add] at hi
    rw [hi, hoffset, hsame]

section

variable {answers : Answers} {list : List α} {func : α → α → α} {baseCase : α} {numThreads : ℕ}
  {d : ThreadData α} {pieces : List (List α)}

/-- A thread reduces its own piece. -/
theorem startRoutine_eq (h : Distributes list func baseCase numThreads d pieces) {i : ℕ}
    {piece : List α} (hi : pieces[i]? = some piece) (granted : Bool) :
    startRoutine granted (d.1 i) = if granted then some (piece.foldl func baseCase) else none := by
  obtain ⟨-, -, hflatten, -, -, hdata⟩ := h
  have hsplit : list = (pieces.take i).flatten ++ (piece ++ (pieces.drop (i + 1)).flatten) := by
    obtain ⟨hlt, rfl⟩ := List.getElem?_eq_some_iff.mp hi
    rw [← hflatten, ← List.flatten_cons, List.getElem_cons_drop, ← List.flatten_append,
      List.take_append_drop]
  have hdrop : list.drop (pieces.take i).flatten.length =
      piece ++ (pieces.drop (i + 1)).flatten := by
    conv_lhs => rw [hsplit]
    exact List.drop_left
  have hlength : piece.length ≤ (piece ++ (pieces.drop (i + 1)).flatten).length := by simp
  cases granted with
  | false => rfl
  | true =>
      rw [hdata i piece hi, startRoutine, Option.bind_some, hdrop]
      simp only [if_true, reduce, if_pos hlength, List.take_left]

/-- As many threads are started as there are pieces. -/
theorem Distributes.num_eq (h : Distributes list func baseCase numThreads d pieces)
    (hpos : 1 ≤ numThreads) : d.2 = min list.length numThreads := by
  obtain ⟨hsizes, -, -, hne, hnum, -⟩ := h
  have hfilter : pieceSizes list.length numThreads = pieces.map List.length := by
    have hall : (pieces.map List.length).filter (0 < ·) = pieces.map List.length := by
      rw [List.filter_eq_self]
      intro size hsize
      obtain ⟨piece, hpiece, rfl⟩ := List.mem_map.mp hsize
      simpa using List.length_pos_iff.mpr (hne piece hpiece)
    rw [pieceSizes, hsizes, List.filter_append, hall]
    simp
  rw [hnum, ← length_pieceSizes list.length hpos, hfilter, List.length_map]

/-- What is returned after the last join. The order of the pieces is that of the list. -/
theorem result_of_joined (hassoc : ∀ a b c, func (func a b) c = func a (func b c))
    (hright : ∀ a, func a baseCase = a) (h : Distributes list func baseCase numThreads d pieces)
    {es : List ForkJoin.Event} {s : ForkJoin.State α}
    (hrun : Run (Step answers numThreads d) ForkJoin.init es s) (hdone : Joined d s) :
    result func baseCase d s = some (list.foldl func baseCase) := by
  have hnum : d.2 = pieces.length := h.2.2.2.2.1
  have hjoined : s.joined = pieces.map fun piece ↦ piece.foldl func baseCase := by
    have hsome := ForkJoin.joined_of_done hrun.of_guarded hdone
    have hlength : s.joined.length = pieces.length := hdone.trans hnum
    apply List.ext_getElem? fun i ↦ ?_
    have hi := congrArg (fun l : List (Option α) ↦ l[i]?) hsome
    simp only [List.getElem?_map, hnum] at hi ⊢
    rcases lt_or_ge i pieces.length with hlt | hge
    · have hpiece : pieces[i]? = some pieces[i] := List.getElem?_eq_getElem hlt
      have hlt' : i < s.joined.length := hlength ▸ hlt
      have hget : s.joined[i]? = some s.joined[i] := List.getElem?_eq_getElem hlt'
      rw [hget, List.getElem?_range hlt, Option.map_some, Option.map_some, Option.some.injEq,
        startRoutine_eq h hpiece] at hi
      rw [hget, hpiece, Option.map_some]
      split at hi
      · exact hi
      · cases hi
    · rw [List.getElem?_eq_none (hlength ▸ hge), List.getElem?_eq_none hge]
      rfl
  rw [result, reduce, hnum, hjoined, if_pos (by simp), List.take_of_length_le (by simp),
    foldl_map_foldl hassoc hright, h.2.2.1]

/-- What the invariant says of the answers that have been used. -/
structure Answered (answers : Answers) (d : ThreadData α) (s : ForkJoin.State α) : Prop where
  threads : 0 < s.created → answers.threads = true
  created : ∀ i < s.created, answers.created i = true
  retvals : s.joined ≠ [] → answers.retvals = true
  all : s.joined ≠ [] → s.created = d.2

theorem Answered.step {s t : ForkJoin.State α} {e : ForkJoin.Event} (h : Answered answers d s)
    (hstep : Step answers numThreads d s e t) : Answered answers d t := by
  obtain ⟨hstores, hstep⟩ := hstep
  cases hstep with
  | create hlt =>
      obtain ⟨hroom, hcreated⟩ := hstores
      refine ⟨fun _ ↦ ?_, fun i hi ↦ ?_, h.retvals, fun hne ↦ ?_⟩
      · by_contra hthreads
        simp [room, hthreads] at hroom
      · rcases Nat.lt_succ_iff_lt_or_eq.mp hi with hlt | rfl
        · exact h.created i hlt
        · exact hcreated
      · exact absurd (h.all hne) hlt.ne
  | finish => exact ⟨h.threads, h.created, h.retvals, h.all⟩
  | join hall _ _ =>
      refine ⟨h.threads, h.created, fun _ ↦ ?_, fun _ ↦ hall⟩
      by_contra hretvals
      simp [Stores, room, hretvals] at hstores

theorem answered_of_run {es : List ForkJoin.Event} {s : ForkJoin.State α}
    (hrun : Run (Step answers numThreads d) ForkJoin.init es s) : Answered answers d s := by
  refine hrun.invariant (fun _ _ _ h hstep ↦ h.step hstep) ?_
  exact ⟨by simp [ForkJoin.init], by simp [ForkJoin.init], by simp [ForkJoin.init],
    by simp [ForkJoin.init]⟩

end

/-- Every block that is used is granted and as long as it has to be, and every thread is
created. -/
structure Enough (answers : Answers) (listLen numThreads : ℕ) : Prop
    extends Constructs answers listLen numThreads where
  threads : 0 < listLen → answers.threads = true
  retvals : 0 < listLen → answers.retvals = true
  created : ∀ i < min listLen numThreads, answers.created i = true
  result : ∀ i < min listLen numThreads, answers.result i = true

/-- `calloc` checks the larger of the products, so that the smaller ones do not wrap. -/
theorem room_eq {n size : ℕ} (hsize : 0 < size) (hle : size ≤ 8) (h : n * 8 < sizeTypeRange) :
    room true n size = n := by
  have hlt : n * size < sizeTypeRange := (Nat.mul_le_mul_left n hle).trans_lt h
  rw [room, if_pos rfl, Nat.mod_eq_of_lt hlt, Nat.mul_div_cancel n hsize]

/-- The threads are started with consecutive pieces that make up the list, every schedule ends
with all of them joined, and then the result is that of the sequential reduction. -/
def ReducesAs (answers : Answers) (list : List α) (func : α → α → α) (baseCase : α)
    (numThreads : ℕ) : Prop :=
  ∃ d, threadData answers list func baseCase numThreads = some d ∧
    (∃ pieces, Distributes list func baseCase numThreads d pieces) ∧
    ∀ es s, Run (Step answers numThreads d) ForkJoin.init es s →
      es.length ≤ 3 * numThreads ∧
        (∃ es' t, Run (Step answers numThreads d) s es' t ∧ Joined d t) ∧
        (Joined d s → result func baseCase d s = reduce list list.length func baseCase)

section

variable {answers : Answers} {list : List α} {func : α → α → α} {baseCase : α} {numThreads : ℕ}

theorem ReducesAs.enough (hpos : 1 ≤ numThreads)
    (h : ReducesAs answers list func baseCase numThreads) :
    Enough answers list.length numThreads := by
  obtain ⟨d, hd, ⟨pieces, hpieces⟩, hruns⟩ := h
  have hconstructs : Constructs answers list.length numThreads := by
    by_contra hnot
    rw [threadData_eq_none hpos hnot] at hd
    cases hd
  obtain ⟨-, ⟨es, t, hrun, hdone⟩, -⟩ := hruns [] _ .nil
  have hanswered := answered_of_run hrun
  have hnum := hpieces.num_eq hpos
  have hne : 0 < min list.length numThreads → t.joined ≠ [] := by
    intro hlt
    apply List.ne_nil_of_length_pos
    rwa [hdone, hnum]
  have hcreated : 0 < min list.length numThreads → t.created = min list.length numThreads :=
    fun hlt ↦ (hanswered.all (hne hlt)).trans hnum
  refine { hconstructs with threads := ?_, retvals := ?_, created := ?_, result := ?_ }
  · intro hlist
    have hlt : 0 < min list.length numThreads := lt_min hlist hpos
    exact hanswered.threads (by rwa [hcreated hlt])
  · intro hlist
    exact hanswered.retvals (hne (lt_min hlist hpos))
  · intro i hi
    exact hanswered.created i (by rwa [hcreated (Nat.zero_lt_of_lt hi)])
  · intro i hi
    -- what is joined is what the thread returned, so that it returned something
    have hmap := congrArg (fun l : List (Option α) ↦ l[i]?)
      (ForkJoin.joined_of_done hrun.of_guarded hdone)
    have hlt : i < t.joined.length := by rwa [hdone, hnum]
    simp only [List.getElem?_map, hnum, List.getElem?_eq_getElem hlt, List.getElem?_range hi,
      Option.map_some, Option.some.injEq] at hmap
    by_contra hresult
    rw [Bool.not_eq_true] at hresult
    rw [startRoutine, hresult] at hmap
    cases hmap

/-- With enough room no step waits for an answer. -/
theorem Enough.stores (h : Enough answers list.length numThreads) {d : ThreadData α}
    (hnum : d.2 = min list.length numThreads) {s t : ForkJoin.State α} {e : ForkJoin.Event}
    (hstep : ForkJoin.Step d.2 (fun i ↦ startRoutine (answers.result i) (d.1 i)) s e t) :
    Stores answers numThreads s e := by
  cases hstep with
  | create hlt =>
      rw [hnum] at hlt
      have hlist : 0 < list.length := Nat.zero_lt_of_lt (hlt.trans_le (min_le_left _ _))
      refine ⟨?_, h.created _ hlt⟩
      rw [h.threads hlist, room_eq (by decide) le_rfl h.overflow]
      exact hlt.trans_le (min_le_right _ _)
  | finish => trivial
  | join _ hlt _ =>
      rw [hnum] at hlt
      have hlist : 0 < list.length := Nat.zero_lt_of_lt (hlt.trans_le (min_le_left _ _))
      rw [Stores, h.retvals hlist, room_eq (by decide) (by decide) h.overflow]
      exact hlt.trans_le (min_le_right _ _)

theorem Enough.reducesAs (hassoc : ∀ a b c, func (func a b) c = func a (func b c))
    (hright : ∀ a, func a baseCase = a) (hpos : 1 ≤ numThreads)
    (h : Enough answers list.length numThreads) :
    ReducesAs answers list func baseCase numThreads := by
  obtain ⟨d, pieces, hd, hpieces⟩ := exists_distributes func baseCase hpos h.toConstructs
  have hnum : d.2 = min list.length numThreads := hpieces.num_eq hpos
  refine ⟨d, hd, ⟨pieces, hpieces⟩, fun es s hrun ↦ ?_⟩
  have hcompute : ∀ i < d.2, (startRoutine (answers.result i) (d.1 i)).isSome := by
    intro i hi
    rw [h.result i (by rwa [← hnum])]
    rw [hpieces.2.2.2.2.1] at hi
    rw [startRoutine_eq hpieces (List.getElem?_eq_getElem hi)]
    rfl
  obtain ⟨hlength, es', t, hrest, hdone⟩ := ForkJoin.exists_done hcompute hrun.of_guarded
  refine ⟨?_, ⟨es', t, ?_, hdone⟩, fun hjoined ↦ ?_⟩
  · have hle : d.2 ≤ numThreads := hnum ▸ min_le_right _ _
    omega
  · exact hrest.mono fun _ _ _ hstep ↦ ⟨h.stores hnum hstep, hstep⟩
  · rw [result_of_joined hassoc hright hpieces hrun hjoined, reduce, if_pos le_rfl,
      List.take_length]

end

/-- The parallel reduction agrees with the sequential one if the blocks are granted, the number of
threads does not make their sizes overflow, and every thread can be created, and only then. -/
theorem parReduce_eq_reduce_iff (answers : Answers) (list : List α) {func : α → α → α}
    {baseCase : α} (hassoc : ∀ a b c, func (func a b) c = func a (func b c))
    (_hleft : ∀ a, func baseCase a = a) (hright : ∀ a, func a baseCase = a) {numThreads : ℕ}
    (h : 1 ≤ numThreads) :
    ReducesAs answers list func baseCase numThreads ↔ Enough answers list.length numThreads :=
  ⟨ReducesAs.enough h, Enough.reducesAs hassoc hright h⟩

/-- Everything is granted. -/
def allGranted : Answers := ⟨true, true, true, true, fun _ ↦ true, fun _ ↦ true⟩

/-- Two threads and a reducer that is not commutative. -/
theorem parReduce_eq_reduce_iff_append :
    ReducesAs allGranted [[1], [2], [3]] List.append ([] : List ℕ) 2 := by
  apply (@parReduce_eq_reduce_iff (List ℕ) allGranted [[1], [2], [3]] List.append []
    List.append_assoc List.nil_append List.append_nil 2 (by decide)).mpr
  exact
    { overflow := by decide
      threadSize := rfl
      data := by decide
      threads := fun _ ↦ rfl
      retvals := fun _ ↦ rfl
      created := fun _ _ ↦ rfl
      result := fun _ _ ↦ rfl }

/-- So many threads that `calloc` refuses the block for their sizes. -/
theorem not_reducesAs_overflow :
    ¬ ReducesAs allGranted [1] (· + ·) 0 (2 ^ 61) := by
  intro h
  have hoverflow := (h.enough (by decide)).overflow
  exact absurd hoverflow (by decide)

end SystemProgramming.TeachingThreads
