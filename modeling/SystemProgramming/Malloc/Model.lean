import SystemProgramming.Lib.Records
import SystemProgramming.Lib.Runs

/-!
# The allocator of `alloc.c`

The heap is flat memory up to the break.  The header in front of a payload is stored in it,
field by field, and so are the links of the free lists.  The system decides whether a call of
`sbrk` succeeds, and what lies in the memory that it gives.
-/

namespace SystemProgramming.Malloc

/-- `sizeof(meta)` -/
def META : ℕ := 32

def SPLIT : ℕ := 4

def SEARCH : ℕ := 5

def FREE : ℕ := 5

def blockSize : List ℕ :=
  [8, 16, 32, 64, 128, 256, 512, 1024, 2048, 4096, 8192, 16384, 32768, 65536, 131072, 262144]

/-- The first class that is large enough, and 16 where there is none. -/
def getIndex (size : ℕ) : ℕ := blockSize.findIdx fun b ↦ size ≤ b

theorem word_pos : 0 < 8 := by decide

/-- The layout of a `size_t` and of a pointer. -/
def word : Layout (BitVec 64) 8 := Layout.littleEndian 8 word_pos

/-- The pointer with the given address. -/
def pointer (w : BitVec 64) : Option ℕ := if w = 0 then none else some w.toNat

def address (p : Option ℕ) : BitVec 64 := BitVec.ofNat 64 (p.getD 0)

/-- What a header holds. -/
structure Meta where
  size : ℕ
  free : BitVec 32
  next : Option ℕ
  prev : Option ℕ

/-- `top` is `sbrk(0)`. -/
structure Heap where
  mem : Bytes
  freeListHead : ℕ → Option ℕ
  defrag : ℕ
  top : ℕ

/-- Whether the calls of `sbrk` succeed: in `block_coalescing`, in the rest of `malloc` and
in `free`.  The last field is the memory that a successful call adds to the heap. -/
structure Answers where
  release : Bool
  grow : Bool
  giveBack : Bool
  fresh : Bytes

/-- The value of a `size_t` as an `intptr_t`. -/
def intptr (n : ℕ) : ℤ := (n : ℤ).bmod (2 ^ 64)

namespace Heap

variable (s : Heap)

def header (h : ℕ) : Meta where
  size := (word.load s.mem h).toNat
  free := Layout.int32.load s.mem (h + 8)
  next := pointer (word.load s.mem (h + 16))
  prev := pointer (word.load s.mem (h + 24))

def setSize (h : ℕ) (size : ℕ) : Heap :=
  { s with mem := word.store s.mem h (BitVec.ofNat 64 size) }

def setFree (h : ℕ) (free : BitVec 32) : Heap :=
  { s with mem := Layout.int32.store s.mem (h + 8) free }

def setNext (h : ℕ) (next : Option ℕ) : Heap :=
  { s with mem := word.store s.mem (h + 16) (address next) }

def setPrev (h : ℕ) (prev : Option ℕ) : Heap :=
  { s with mem := word.store s.mem (h + 24) (address prev) }

def setHead (index : ℕ) (head : Option ℕ) : Heap :=
  { s with freeListHead := Function.update s.freeListHead index head }

/-- `sbrk` moves the break or fails. -/
def sbrk (increment : ℕ) (ok : Bool) : Option Heap :=
  let top := (s.top : ℤ) + intptr increment
  if ok = true ∧ 0 ≤ top ∧ top < 2 ^ 63 then some { s with top := top.toNat } else none

/-- The call that gives a block back.  Its result is not looked at. -/
def shrink (cur : ℕ) (ok : Bool) : Heap :=
  (s.sbrk ((2 ^ 64 - ((s.header cur).size + META) % 2 ^ 64) % 2 ^ 64) ok).getD s

def removeblock (cur : ℕ) : Heap :=
  let index := getIndex (s.header cur).size
  let s := match (s.header cur).prev, (s.header cur).next with
    | some prev, some next => (s.setNext prev (some next)).setPrev next (some prev)
    | some prev, none => s.setNext prev none
    | none, some next => (s.setHead index (some next)).setPrev next none
    | none, none => s.setHead index none
  (s.setNext cur none).setPrev cur none

def addblock (cur : ℕ) : Heap :=
  let index := getIndex (s.header cur).size
  match s.freeListHead index with
  | none => ((s.setHead index (some cur)).setPrev cur none).setNext cur none
  | some head =>
    (((s.setPrev head (some cur)).setNext cur (some head)).setPrev cur none).setHead index (some cur)

def combineNext (cur : ℕ) : Heap :=
  let next := cur + META + (s.header cur).size
  if next < s.top ∧ (s.header next).free = 1 then
    let s := (s.removeblock next).setFree next 0
    s.setSize cur ((s.header cur).size + (META + (s.header next).size))
  else s

/-- No list without repetition outlasts this many rounds. -/
def fuel : ℕ := s.top + 1

/-- The loop of `block_coalescing`. -/
def coalesce (ok : Bool) : ℕ → Heap → Option ℕ → Option Heap
  | _, s, none => some s
  | 0, _, some _ => none
  | n + 1, s, some cur =>
    let s := if (s.header cur).free = 1 then s.combineNext cur else s
    if s.top ≤ cur + META + (s.header cur).size then
      some (((s.removeblock cur).setFree cur 0).shrink cur ok)
    else coalesce ok n s (s.header cur).next

def blockCoalescing (index : ℕ) (ok : Bool) : Option Heap :=
  coalesce ok s.fuel s (s.freeListHead index)

/-- The loop of `first_fit`. -/
def firstFit (size : ℕ) : ℕ → Option ℕ → Option (Option ℕ)
  | _, none => some none
  | 0, some _ => none
  | n + 1, some cur =>
    if (s.header cur).free = 1 ∧ size ≤ (s.header cur).size then some (some cur)
    else firstFit size n (s.header cur).next

/-- The loop of `best_fit`. -/
def bestFit (size : ℕ) : ℕ → Option ℕ → Option ℕ → Option (Option ℕ)
  | _, chosen, none => some chosen
  | 0, _, some _ => none
  | n + 1, chosen, some cur =>
    let better := match chosen with
      | none => true
      | some c => decide ((s.header cur).size < (s.header c).size)
    if (s.header cur).free = 1 ∧ size ≤ (s.header cur).size ∧ better = true then
      bestFit size n (some cur) (s.header cur).next
    else bestFit size n chosen (s.header cur).next

def blockSplitting (cur : ℕ) (size : ℕ) : Heap :=
  if (s.header cur).free = 0 then s
  else if META + SPLIT < ((s.header cur).size + 2 ^ 64 - size) % 2 ^ 64 then
    let new := cur + META + size
    let s := (s.setSize new ((s.header cur).size + 2 ^ 64 - size - META)).setFree new 1
    (s.addblock new).setSize cur size
  else s

/-- The sweep at the beginning of `malloc`. -/
def sweep (size : ℕ) (ok : Bool) : Option Heap :=
  if getIndex size = 16 then s.blockCoalescing 16 ok
  else if getIndex size = 15 then
    let s := { s with defrag := s.defrag + 1 }
    if 6 < s.defrag then (s.blockCoalescing 15 ok).map fun s ↦ { s with defrag := 0 } else some s
  else some s

/-- The block of a free list that `malloc` uses. -/
def findFit (size : ℕ) : Option (Option ℕ) :=
  let head := s.freeListHead (getIndex size)
  if head = none then some none
  else if SEARCH ≤ getIndex size then s.bestFit size s.fuel none head
  else s.firstFit size s.fuel head

def malloc (size : ℕ) (answers : Answers) : Option (Heap × Option ℕ) :=
  if size = 0 then some (s, none)
  else do
    let s ← s.sweep size answers.release
    let new ← s.findFit size
    match new with
    | some new =>
      let s := ((s.removeblock new).setFree new 0).blockSplitting new size
      pure (s, some (new + META))
    | none =>
      match s.sbrk ((META + size) % 2 ^ 64) answers.grow with
      | none => pure (s, none)
      | some grown =>
        let new := s.top
        let mem : Bytes := fun a ↦ if new ≤ a then answers.fresh a else grown.mem a
        let s : Heap := { grown with mem }
        pure ((((s.setFree new 0).setSize new size).setNext new none).setPrev new none,
          some (new + META))

def memset (ptr : ℕ) (value : UInt8) (count : ℕ) : Heap :=
  { s with mem := fun a ↦ if ptr ≤ a ∧ a < ptr + count then value else s.mem a }

def memcpy (dest src : ℕ) (count : ℕ) : Heap :=
  { s with mem := fun a ↦ if dest ≤ a ∧ a < dest + count then s.mem (src + (a - dest)) else s.mem a }

def calloc (num size : ℕ) (answers : Answers) : Option (Heap × Option ℕ) := do
  let (s, new) ← s.malloc (num * size % 2 ^ 64) answers
  match new with
  | none => pure (s, none)
  | some new => pure (s.memset new 0 (num * size % 2 ^ 64), some new)

def free (ptr : Option ℕ) (answers : Answers) : Heap :=
  match ptr with
  | none => s
  | some ptr =>
    if s.top ≤ ptr then s
    else
      let cur := ptr - META
      if (s.header cur).free = 1 then s
      else
        let s := s.combineNext cur
        if FREE < getIndex (s.header cur).size ∧ s.top ≤ ptr + (s.header cur).size then
          s.shrink cur answers.giveBack
        else (s.setFree cur 1).addblock cur

def realloc (ptr : Option ℕ) (size : ℕ) (answers : Answers) : Option (Heap × Option ℕ) :=
  match ptr with
  | none => s.malloc size answers
  | some ptr =>
    if size = 0 then some (s.free (some ptr) answers, none)
    else
      let cur := ptr - META
      if size ≤ (s.header cur).size then
        some ((s.blockSplitting cur size).setFree cur 0, some ptr)
      else
        let s := s.combineNext cur
        if size ≤ (s.header cur).size then some (s.setFree cur 0, some ptr)
        else do
          let (s, new) ← s.malloc size answers
          match new with
          | none => pure (s, none)
          | some new =>
            pure ((s.memcpy new ptr (s.header cur).size).free (some ptr) answers, some new)

end Heap

/-- What a client does. -/
inductive Call
  | malloc (size : ℕ)
  | calloc (num size : ℕ)
  | realloc (ptr : Option ℕ) (size : ℕ)
  | free (ptr : Option ℕ)
  | write (ptr offset : ℕ) (bytes : List UInt8)

/-- The allocator and the live pointers with the sizes that were asked for. -/
structure System where
  heap : Heap
  live : ℕ → Option ℕ

/-- The heap before the first call. -/
def System.init (base : ℕ) (mem : Bytes) : System where
  heap := ⟨mem, fun _ ↦ none, 0, base⟩
  live _ := none

/-- A returned pointer becomes live. -/
def allocate (live : ℕ → Option ℕ) (size : ℕ) : Option ℕ → ℕ → Option ℕ
  | none => live
  | some p => Function.update live p (some size)

def release (live : ℕ → Option ℕ) : Option ℕ → ℕ → Option ℕ
  | none => live
  | some p => Function.update live p none

def System.exec (s : System) (e : Call × Answers) : Option System :=
  match e.1 with
  | .malloc size => do
    let r ← s.heap.malloc size e.2
    pure ⟨r.1, allocate s.live size r.2⟩
  | .calloc num size => do
    let r ← s.heap.calloc num size e.2
    pure ⟨r.1, allocate s.live (num * size) r.2⟩
  | .realloc ptr size => do
    let r ← s.heap.realloc ptr size e.2
    -- a block stays where a positive size has not been found
    let live := if size ≠ 0 ∧ r.2 = none then s.live else release s.live ptr
    pure ⟨r.1, allocate live size r.2⟩
  | .free ptr => some ⟨s.heap.free ptr e.2, release s.live ptr⟩
  | .write ptr offset bytes =>
    some { s with heap := { s.heap with mem := memcpy s.heap.mem (ptr + offset) bytes } }

/-- The client uses live pointers only. -/
def System.Legal (s : System) : Call → Prop
  | .malloc size => size < 2 ^ 64
  | .calloc num size => num < 2 ^ 64 ∧ size < 2 ^ 64
  | .realloc ptr size => size < 2 ^ 64 ∧ ∀ p, ptr = some p → s.live p ≠ none
  | .free ptr => ∀ p, ptr = some p → s.live p ≠ none
  | .write ptr offset bytes => ∃ n, s.live ptr = some n ∧ offset + bytes.length ≤ n

end SystemProgramming.Malloc
