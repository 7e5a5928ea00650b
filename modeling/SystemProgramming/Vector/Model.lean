import SystemProgramming.Lib.Ledger
import SystemProgramming.Lib.Runs

/-!
# The vector

A vector holds copies of the elements that it is given. Its array is the list of its objects, by
the numbers under which they were made.
-/

namespace SystemProgramming.Vector

/-- The numbers that a `size_t` can have. -/
def sizeTypeRange : ℕ := 2 ^ 64

/-- `trace` records the calls of the constructors and the destructor, and `next` is the number of
the next new object. The array is `lost` while it is a null pointer. -/
structure State where
  array : List ℕ
  capacity : ℕ
  next : ℕ
  trace : List Action
  destroyed : Bool
  undefined : Bool
  lost : Bool
deriving DecidableEq

def INITIAL_CAPACITY : ℕ := 8

def GROWTH_FACTOR : ℕ := 2

/-- After `vector_create`. -/
def create : State := ⟨[], INITIAL_CAPACITY, 0, [], false, false, false⟩

/-- The loop of `get_new_capacity`. After 64 rounds the product has become 0 and stays so. -/
def newCapacityLoop (target : ℕ) : ℕ → ℕ → Option ℕ
  | 0, newCapacity => if newCapacity < target then none else some newCapacity
  | n + 1, newCapacity =>
      if newCapacity < target then
        newCapacityLoop target n (newCapacity * GROWTH_FACTOR % sizeTypeRange)
      else some newCapacity

def getNewCapacity (target : ℕ) : Option ℕ := newCapacityLoop target 64 1

/-- The capacity after a reallocation. The number of bytes must not overflow, since the array
would then have less room than its capacity says. -/
def reallocated (target : ℕ) : Option ℕ :=
  (getNewCapacity target).bind fun capacity ↦
    if capacity * 8 < sizeTypeRange then some capacity else none

namespace State

variable (s : State)

def destructor (k : ℕ) : State := { s with trace := s.trace ++ [.destroy (.made k)] }

/-- The new object has the number `s.next`. -/
def copyConstructor (element : Object) : State :=
  { s with next := s.next + 1, trace := s.trace ++ [.copy element] ++ [.construct s.next] }

def defaultConstructor : State :=
  { s with next := s.next + 1, trace := s.trace ++ [.construct s.next] }

/-- Destructors are called for several objects. -/
def destructors (ks : List ℕ) : State := ks.foldl destructor s

/-- New default objects are stored behind the array, up to a size. -/
def fill : ℕ → State
  | 0 => s
  | n + 1 =>
      let t := fill n
      { t.defaultConstructor with array := t.array ++ [t.next] }

/-- The array has got a block of this capacity. -/
def withBlock (capacity : ℕ) : State := { s with capacity := capacity, lost := false }

/-- A copy is stored behind the array. -/
def append (element : Object) : State :=
  { s.copyConstructor element with array := s.array ++ [s.next] }

/-- `vector_resize`. A reallocation that is not `granted` ends the program. The index of the last
loop is at least 0 for ever. -/
def resize (granted : Bool) (n : ℕ) : Option State :=
  if n > s.capacity then
    match reallocated n with
    | some capacity =>
        if granted then some ((s.withBlock capacity).fill (n - s.array.length)) else none
    | none => some { s with undefined := true }
  else if n > s.array.length then
    if s.lost then some { s with undefined := true } else some (s.fill (n - s.array.length))
  else if n = 0 then some { s with undefined := true }
  else some { s.destructors (s.array.drop n).reverse with array := s.array.take n }

/-- `vector_reserve`. The answer of `realloc` is not looked at: a null pointer takes the place of
the array, and the elements can not be reached any more. -/
def reserve (granted : Bool) (n : ℕ) : State :=
  if n > s.capacity then
    match reallocated n with
    | some capacity =>
        if granted then s.withBlock capacity
        else if s.array = [] then { s with capacity := capacity, lost := true }
        else { s with undefined := true }
    | none => { s with undefined := true }
  else s

/-- `vector_set`. The position is checked by an assertion. -/
def set (position : ℕ) (element : Object) : Option State :=
  s.array[position]?.map fun k ↦
    let t := (s.destructor k).copyConstructor element
    { t with array := s.array.set position s.next }

/-- `vector_push_back`. A reallocation that is not `granted` ends the program. -/
def pushBack (granted : Bool) (element : Object) : Option State :=
  if s.array.length = s.capacity then
    match reallocated (s.capacity + 1) with
    | some capacity => if granted then some ((s.withBlock capacity).append element) else none
    | none => some { s with undefined := true }
  else if s.lost then some { s with undefined := true }
  else some (s.append element)

/-- `vector_pop_back`. On an empty vector there is only a warning. -/
def popBack : State :=
  match s.array.getLast? with
  | some k => { s.destructor k with array := s.array.dropLast }
  | none => s

/-- The loop of `vector_erase`, at a position from which `n` elements are moved. -/
def eraseLoop : ℕ → ℕ → State → State
  | 0, _, s => s
  | n + 1, i, s =>
      match s.array[i + 1]? with
      | some k => eraseLoop n (i + 1)
          { s.copyConstructor (.made k) with array := s.array.set i s.next }
      | none => s

/-- `vector_erase`. The position is checked by an assertion. -/
def erase (position : ℕ) : Option State :=
  s.array[position]?.map fun k ↦
    let t := eraseLoop (s.array.length - 1 - position) position (s.destructor k)
    { t with array := t.array.dropLast }

/-- `vector_clear`. -/
def clear : State := { s.destructors s.array with array := [] }

/-- `vector_destroy`. -/
def destroy : State := { s.destructors s.array with array := [], destroyed := true }

end State

/-- A call that may reallocate the array comes with the answer to this: `granted` is true if
`realloc` gives a block. -/
inductive Event
  | pushBack (element : Object) (granted : Bool)
  | popBack
  | set (position : ℕ) (element : Object)
  | erase (position : ℕ)
  | resize (n : ℕ) (granted : Bool)
  | reserve (n : ℕ) (granted : Bool)
  | clear
  | destroy
deriving DecidableEq

def dispatch (s : State) : Event → Option State
  | .pushBack element granted => s.pushBack granted element
  | .popBack => some s.popBack
  | .set position element => s.set position element
  | .erase position => s.erase position
  | .resize n granted => s.resize granted n
  | .reserve n granted => some (s.reserve granted n)
  | .clear => some s.clear
  | .destroy => some s.destroy

/-- There is no call after `vector_destroy`, and nothing is said after undefined behaviour. -/
def step (s : State) (e : Event) : Option State :=
  if s.destroyed ∨ s.undefined then none else dispatch s e

/-- An element that is passed in is one of the vector or was not made by it. -/
def Passable (s : State) : Object → Prop
  | .made k => k ∈ s.array
  | .outside _ => True

instance (s : State) (o : Object) : Decidable (Passable s o) := by
  cases o <;> unfold Passable <;> infer_instance

/-- The calls that are considered. A vector is not made smaller by `vector_resize`. -/
def Admissible (s : State) : Event → Prop
  | .pushBack element _ => Passable s element
  | .set _ element => Passable s element
  | .resize n _ => s.array.length ≤ n
  | _ => True

instance (s : State) (e : Event) : Decidable (Admissible s e) := by
  cases e <;> unfold Admissible <;> infer_instance

end SystemProgramming.Vector
