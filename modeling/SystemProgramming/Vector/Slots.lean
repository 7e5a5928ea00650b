import SystemProgramming.Vector.Ownership

/-!
# The slots of a vector

Here the array of a vector is a block of slots, and the loops of the source run over it with
indices that are unsigned. Every access is checked against the block. What `realloc` answers is a
parameter.
-/

namespace SystemProgramming.Vector

/-- What becomes of a call: it returns, it reports an error and ends the process, it never ends, or
it has left the memory of the array. -/
inductive Outcome (α : Type)
  | returned (a : α)
  | aborted
  | looping
  | outside
deriving DecidableEq

namespace Outcome

variable {α β : Type}

def bind : Outcome α → (α → Outcome β) → Outcome β
  | returned a, f => f a
  | aborted, _ => aborted
  | looping, _ => looping
  | outside, _ => outside

instance : Monad Outcome where
  pure := returned
  bind := bind

@[simp] theorem returned_bind (a : α) (f : α → Outcome β) : (returned a >>= f) = f a := rfl

@[simp] theorem aborted_bind (f : α → Outcome β) : (aborted >>= f) = aborted := rfl

@[simp] theorem looping_bind (f : α → Outcome β) : (looping >>= f) = looping := rfl

@[simp] theorem outside_bind (f : α → Outcome β) : (outside >>= f) = outside := rfl

@[simp] theorem pure_eq (a : α) : (pure a : Outcome α) = returned a := rfl

theorem bind_eq_returned_iff {x : Outcome α} {f : α → Outcome β} {b : β} :
    (x >>= f) = returned b ↔ ∃ a, x = returned a ∧ f a = returned b := by
  cases x with
  | returned a => simp
  | aborted => simp
  | looping => simp
  | outside => simp

end Outcome

/-- What is in the new slots if a number of bytes is granted, and `none` for `NULL`. -/
abbrev Allocator := ℕ → Option (ℕ → Object)

/-- `realloc`. The slots of the old block are kept as far as there is room. -/
def realloc (alloc : Allocator) (array : List Object) (bytes : ℕ) : Option (List Object) :=
  (alloc bytes).map fun fresh ↦ (List.range (bytes / 8)).map fun i ↦ array.getD i (fresh i)

/-- `i--` on a `size_t`. -/
def decrement (i : ℕ) : ℕ := (i + (sizeTypeRange - 1)) % sizeTypeRange

/-- The struct, with the slots of the block that `array` points to. As in `State`, `trace` records
the calls of the constructors and the destructor, and `next` is the next new object. -/
structure Slots where
  array : List Object
  size : ℕ
  capacity : ℕ
  next : ℕ
  trace : List Action
deriving DecidableEq

/-- After `vector_create`. The slots of a new block hold anything. -/
def Slots.create (fresh : ℕ → Object) : Slots :=
  ⟨(List.range INITIAL_CAPACITY).map fresh, 0, INITIAL_CAPACITY, 0, []⟩

namespace Slots

variable (alloc : Allocator) (s : Slots)

/-- The elements. -/
def contents : List Object := s.array.take s.size

/-- `this->array[i]` -/
def get (i : ℕ) : Outcome Object :=
  match s.array[i]? with
  | some o => .returned o
  | none => .outside

/-- `this->array[i] = o` -/
def put (i : ℕ) (o : Object) : Outcome Slots :=
  if i < s.array.length then .returned { s with array := s.array.set i o } else .outside

def destructor (o : Object) : Slots := { s with trace := s.trace ++ [.destroy o] }

/-- The copy has the number `s.next`. -/
def copyConstructor (element : Object) : Slots :=
  { s with next := s.next + 1, trace := s.trace ++ [.copy element] ++ [.construct s.next] }

def defaultConstructor : Slots :=
  { s with next := s.next + 1, trace := s.trace ++ [.construct s.next] }

/-- A new capacity, and what `realloc` answers. -/
def grow (target : ℕ) : Outcome (Slots × Option (List Object)) :=
  match getNewCapacity target with
  | none => .looping
  | some capacity => .returned ({ s with capacity := capacity },
      realloc alloc s.array (capacity * 8 % sizeTypeRange))

/-- A failure of `realloc` is noticed. -/
def growChecked (target : ℕ) : Outcome Slots := do
  let (s, block) ← s.grow alloc target
  match block with
  | none => .aborted
  | some array => .returned { s with array := array }

/-- The array is `NULL` after a failure of `realloc`, and has no slots. -/
def growUnchecked (target : ℕ) : Outcome Slots := do
  let (s, block) ← s.grow alloc target
  .returned { s with array := block.getD [] }

/-- `for( size_t i = start; i<n; i++ )`, where `count` is the number of rounds. -/
def fillLoop : ℕ → ℕ → Slots → Outcome Slots
  | 0, _, s => .returned s
  | count + 1, i, s => do
      let t ← s.defaultConstructor.put i (.made s.next)
      fillLoop count (i + 1) t

/-- The loop of `vector_resize` that destroys elements. The index is unsigned. -/
def destroyLoop (n : ℕ) : ℕ → ℕ → Slots → Outcome Slots
  | 0, _, _ => .looping
  | fuel + 1, i, s =>
      if i ≥ n then do
        let o ← s.get i
        destroyLoop n fuel (decrement i) (s.destructor o)
      else .returned s

/-- The loop of `vector_insert`. The index is unsigned. -/
def shiftLoop (position : ℕ) : ℕ → ℕ → Slots → Outcome Slots
  | 0, _, _ => .looping
  | fuel + 1, i, s =>
      if i ≥ position then do
        let o ← s.get i
        let s ← s.put ((i + 1) % sizeTypeRange) o
        shiftLoop position fuel (decrement i) s
      else .returned s

/-- The loop of `vector_erase`, at a position from which `count` elements are moved. -/
def moveLoop : ℕ → ℕ → Slots → Outcome Slots
  | 0, _, s => .returned s
  | count + 1, i, s => do
      let o ← s.get (i + 1)
      let s' ← (s.copyConstructor o).put i (.made s.next)
      moveLoop count (i + 1) s'

/-- The loop of `vector_clear`. -/
def clearLoop : ℕ → ℕ → Slots → Outcome Slots
  | 0, _, s => .returned s
  | count + 1, i, s => do
      let o ← s.get i
      clearLoop count (i + 1) (s.destructor o)

/-- The rounds of a loop that runs downwards: an index behind 0 is outside of every array. -/
def rounds : ℕ := s.array.length + 2

def resize (n : ℕ) : Outcome Slots := do
  let s ←
    if n > s.capacity then do
      let s ← s.growChecked alloc n
      fillLoop (n - s.size) s.size s
    else if n > s.size then fillLoop (n - s.size) s.size s
    else destroyLoop n s.rounds (decrement s.size) s
  .returned { s with size := n }

def reserve (n : ℕ) : Outcome Slots :=
  if n > s.capacity then s.growUnchecked alloc n else .returned s

/-- The position is checked by an assertion. -/
def set (position : ℕ) (element : Object) : Outcome Slots :=
  if position ≥ s.size then .aborted
  else do
    let o ← s.get position
    ((s.destructor o).copyConstructor element).put position (.made s.next)

def pushBack (element : Object) : Outcome Slots := do
  let s ← if s.size = s.capacity then s.growChecked alloc (s.capacity + 1) else .returned s
  let s ← (s.copyConstructor element).put s.size (.made s.next)
  .returned { s with size := s.size + 1 }

/-- On an empty vector there is only a warning. -/
def popBack : Outcome Slots :=
  if s.size > 0 then do
    let o ← s.get (s.size - 1)
    .returned { s.destructor o with size := s.size - 1 }
  else .returned s

def insert (position : ℕ) (element : Object) : Outcome Slots := do
  let s ← if s.size = s.capacity then s.growUnchecked alloc (s.capacity + 1) else .returned s
  let s ← shiftLoop position s.rounds (decrement s.size) s
  let s ← (s.copyConstructor element).put position (.made s.next)
  .returned { s with size := s.size + 1 }

/-- The position is checked by an assertion. -/
def erase (position : ℕ) : Outcome Slots :=
  if position < s.size then do
    let o ← s.get position
    let s ← moveLoop (s.size - 1 - position) position (s.destructor o)
    .returned { s with size := s.size - 1 }
  else .aborted

def clear : Outcome Slots := do
  let s ← clearLoop s.size 0 s
  .returned { s with size := 0 }

/-! ## Accesses -/

variable {alloc s} {t : Slots} {n i k fuel position : ℕ} {o : Object}

theorem get_of_lt (h : i < s.array.length) : s.get i = .returned s.array[i] := by
  rw [get, List.getElem?_eq_getElem h]

theorem get_of_le (h : s.array.length ≤ i) : s.get i = .outside := by
  rw [get, List.getElem?_eq_none h]

theorem put_of_lt (h : i < s.array.length) (o : Object) :
    s.put i o = .returned { s with array := s.array.set i o } := if_pos h

theorem put_of_le (h : s.array.length ≤ i) (o : Object) : s.put i o = .outside :=
  if_neg (not_lt.mpr h)

theorem get_eq_returned (h : s.get i = .returned o) : i < s.array.length ∧ s.array[i]? = some o := by
  rw [get] at h
  split at h
  · next o' ho =>
    cases h
    exact ⟨(List.getElem?_eq_some_iff.mp ho).1, ho⟩
  · cases h

theorem put_eq_returned (h : s.put i o = .returned t) :
    i < s.array.length ∧ t = { s with array := s.array.set i o } := by
  by_cases hlt : i < s.array.length
  · rw [put_of_lt hlt] at h
    cases h
    exact ⟨hlt, rfl⟩
  · rw [put_of_le (not_lt.mp hlt)] at h
    cases h

theorem decrement_succ (h : i < sizeTypeRange) : decrement (i + 1) = i := by
  rw [decrement]
  unfold sizeTypeRange at h ⊢
  omega

theorem decrement_zero : decrement 0 = sizeTypeRange - 1 := by
  decide

/-! ## Loops -/

/-- Each round stores one more object behind the others. -/
theorem fillLoop_eq (h : i + k ≤ s.array.length) : fillLoop k i s = .returned
    { s with
      array := s.array.take i ++ (List.range' s.next k).map .made ++ s.array.drop (i + k)
      next := s.next + k
      trace := s.trace ++ (List.range' s.next k).map .construct } := by
  induction k generalizing i s with
  | zero => simp [fillLoop]
  | succ k ih =>
      have hi : i < s.array.length := by omega
      have hput : s.defaultConstructor.put i (.made s.next) =
          .returned { s.defaultConstructor with array := s.array.set i (.made s.next) } :=
        put_of_lt (s := s.defaultConstructor) hi _
      have hroom : i + 1 + k ≤ (s.array.set i (.made s.next)).length := by
        rw [List.length_set]
        omega
      have htake : (s.array.set i (.made s.next)).take (i + 1) =
          s.array.take i ++ [.made s.next] := by
        rw [List.take_add_one, List.take_set_of_le le_rfl, List.getElem?_set_self hi]
        rfl
      have hdrop : (s.array.set i (.made s.next)).drop (i + 1 + k) = s.array.drop (i + (k + 1)) := by
        rw [List.drop_set_of_lt (by omega), Nat.add_assoc, Nat.add_comm 1 k]
      rw [fillLoop, hput, Outcome.returned_bind, ih hroom]
      simp only [htake, hdrop]
      simp [defaultConstructor, List.range'_succ, Nat.add_assoc, Nat.add_comm 1 k]

/-- The first round is outside of the array already if there is no room. -/
theorem fillLoop_outside (h : s.array.length ≤ i) (hk : 0 < k) : fillLoop k i s = .outside := by
  cases k with
  | zero => exact absurd hk (lt_irrefl 0)
  | succ k =>
      have hput : s.defaultConstructor.put i (.made s.next) = .outside :=
        put_of_le (s := s.defaultConstructor) h _
      rw [fillLoop, hput, Outcome.outside_bind]

/-- The elements behind the first `n` are destroyed, the last one first. -/
theorem destroyLoop_eq (hn : 0 < n) (h : n + k ≤ s.array.length)
    (hrange : s.array.length < sizeTypeRange) (hfuel : k < fuel) :
    destroyLoop n fuel (decrement (n + k)) s = .returned
      { s with trace := s.trace ++ ((s.array.take (n + k)).drop n).reverse.map .destroy } := by
  induction k generalizing s fuel with
  | zero =>
      obtain ⟨fuel, rfl⟩ := Nat.exists_eq_succ_of_ne_zero (by omega : fuel ≠ 0)
      obtain ⟨m, rfl⟩ := Nat.exists_eq_succ_of_ne_zero hn.ne'
      rw [Nat.add_zero, decrement_succ (by omega), destroyLoop, if_neg (by omega),
        List.drop_of_length_le (by rw [List.length_take]; omega)]
      simp
  | succ k ih =>
      obtain ⟨fuel, rfl⟩ := Nat.exists_eq_succ_of_ne_zero (by omega : fuel ≠ 0)
      have hi : n + k < s.array.length := by omega
      have hlast : (s.array.take (n + k + 1)).drop n =
          (s.array.take (n + k)).drop n ++ [s.array[n + k]] := by
        rw [List.take_add_one, List.getElem?_eq_getElem hi, List.drop_append_of_le_length]
        · rfl
        · rw [List.length_take]
          omega
      rw [← Nat.add_assoc, decrement_succ (by omega), destroyLoop, if_pos (by omega), get_of_lt hi,
        Outcome.returned_bind, ih (s := s.destructor s.array[n + k]) hi.le hrange (by omega), hlast]
      simp [destructor]

/-- The index is never below 0, and behind 0 it is outside of the array. -/
theorem destroyLoop_zero (hrange : s.array.length < sizeTypeRange) (hi : i ≤ s.array.length)
    (hfuel : i + 2 ≤ fuel) : destroyLoop 0 fuel (decrement i) s = .outside := by
  have hlast : sizeTypeRange - 1 + 1 = sizeTypeRange := by decide
  induction i generalizing s fuel with
  | zero =>
      obtain ⟨fuel, rfl⟩ := Nat.exists_eq_succ_of_ne_zero (by omega : fuel ≠ 0)
      rw [decrement_zero, destroyLoop, if_pos (Nat.zero_le _), get_of_le (by omega),
        Outcome.outside_bind]
  | succ i ih =>
      obtain ⟨fuel, rfl⟩ := Nat.exists_eq_succ_of_ne_zero (by omega : fuel ≠ 0)
      rw [decrement_succ (by omega), destroyLoop, if_pos (Nat.zero_le _), get_of_lt (by omega),
        Outcome.returned_bind]
      exact ih (s := s.destructor _) hrange (by simp only [destructor]; omega) (by omega)

/-- Behind the position every element moves up by one slot. -/
theorem shiftLoop_eq (hposition : 0 < position) (h : position + k < s.array.length)
    (hrange : s.array.length < sizeTypeRange) (hfuel : k < fuel) :
    ∃ array, shiftLoop position fuel (decrement (position + k)) s =
        .returned { s with array := array } ∧
      array.length = s.array.length ∧
      ∀ m, array[m]? = if position < m ∧ m ≤ position + k then s.array[m - 1]? else s.array[m]? := by
  induction k generalizing s fuel with
  | zero =>
      obtain ⟨fuel, rfl⟩ := Nat.exists_eq_succ_of_ne_zero (by omega : fuel ≠ 0)
      obtain ⟨m, rfl⟩ := Nat.exists_eq_succ_of_ne_zero hposition.ne'
      refine ⟨s.array, ?_, rfl, fun j ↦ ?_⟩
      · rw [Nat.add_zero, decrement_succ (by omega), shiftLoop, if_neg (by omega)]
      · rw [if_neg (by omega)]
  | succ k ih =>
      obtain ⟨fuel, rfl⟩ := Nat.exists_eq_succ_of_ne_zero (by omega : fuel ≠ 0)
      have hi : position + k < s.array.length := by omega
      have hnext : (position + k + 1) % sizeTypeRange = position + k + 1 :=
        Nat.mod_eq_of_lt (by omega)
      have hlength : (s.array.set (position + k + 1) s.array[position + k]).length =
          s.array.length := List.length_set
      obtain ⟨array, hloop, hlen, harray⟩ :=
        ih (s := { s with array := s.array.set (position + k + 1) s.array[position + k] })
          (by rw [hlength]; omega) (by rw [hlength]; omega) (by omega : k < fuel)
      refine ⟨array, ?_, hlen.trans hlength, fun m ↦ ?_⟩
      · rw [← Nat.add_assoc, decrement_succ (by omega), shiftLoop, if_pos (by omega),
          get_of_lt hi, Outcome.returned_bind, hnext, put_of_lt (by omega), Outcome.returned_bind,
          hloop]
      · rw [harray m]
        by_cases hm : m = position + k + 1
        · subst hm
          rw [if_neg (by omega), if_pos (by omega), List.getElem?_set_self (by omega),
            Nat.add_sub_cancel, List.getElem?_eq_getElem hi]
        · by_cases hin : position < m ∧ m ≤ position + k
          · rw [if_pos hin, if_pos (by omega), List.getElem?_set_ne (by omega)]
          · rw [if_neg hin, if_neg (by omega), List.getElem?_set_ne (by omega)]

/-- The same holds for the index of an insertion at 0. -/
theorem shiftLoop_zero (hrange : s.array.length < sizeTypeRange) (hi : i ≤ s.array.length)
    (hfuel : i + 2 ≤ fuel) : shiftLoop 0 fuel (decrement i) s = .outside := by
  have hlast : sizeTypeRange - 1 + 1 = sizeTypeRange := by decide
  induction i generalizing s fuel with
  | zero =>
      obtain ⟨fuel, rfl⟩ := Nat.exists_eq_succ_of_ne_zero (by omega : fuel ≠ 0)
      rw [decrement_zero, shiftLoop, if_pos (Nat.zero_le _), get_of_le (by omega),
        Outcome.outside_bind]
  | succ i ih =>
      obtain ⟨fuel, rfl⟩ := Nat.exists_eq_succ_of_ne_zero (by omega : fuel ≠ 0)
      rw [decrement_succ (by omega), shiftLoop, if_pos (Nat.zero_le _), get_of_lt (by omega),
        Outcome.returned_bind]
      by_cases hroom : (i + 1) % sizeTypeRange < s.array.length
      · rw [put_of_lt hroom, Outcome.returned_bind]
        exact ih (by rw [List.length_set]; exact hrange) (by rw [List.length_set]; omega) (by omega)
      · rw [put_of_le (not_lt.mp hroom), Outcome.outside_bind]

end Slots

end SystemProgramming.Vector
