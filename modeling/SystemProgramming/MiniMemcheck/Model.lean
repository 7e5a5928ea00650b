import SystemProgramming.Lib.LinkedList
import SystemProgramming.Lib.Runs

/-!
# The wrappers of `mini_memcheck.c`

The size `M` of a `meta_data` structure is a parameter.  A heap maps the addresses of the
allocated blocks to their sizes and to the metadata that has been written at their start.
An access to anything else has no result.
-/

namespace SystemProgramming.MiniMemcheck

abbrev Addr := BitVec 64

abbrev Size := BitVec 64

/-- What the caller has asked for. -/
structure Request where
  requestSize : Size
  filename : Addr
  instruction : Addr
  deriving DecidableEq

structure MetaData extends Request where
  next : Addr
  deriving DecidableEq

structure Block where
  size : Size
  metaData : Option MetaData
  deriving DecidableEq

structure State where
  heap : Addr → Option Block
  head : Addr
  totalMemoryRequested : Size
  totalMemoryFreed : Size
  invalidAddresses : Size

namespace State

def init : State := ⟨fun _ ↦ none, 0, 0, 0, 0⟩

variable (M : Size) (s : State)

def load (a : Addr) : Option MetaData :=
  (s.heap a).bind (·.metaData)

/-- The block has to be large enough for the metadata. -/
def store (a : Addr) (m : MetaData) : Option State :=
  (s.heap a).bind fun b ↦
    if M ≤ b.size then
      some { s with heap := Function.update s.heap a (some { b with metaData := some m }) }
    else none

/-- The block that `malloc` returns. -/
def malloc (a : Addr) (size : Size) : State :=
  { s with heap := Function.update s.heap a (some ⟨size, none⟩) }

/-- `realloc` of the block `cur`, which ends up at `new`. -/
def realloc (cur new : Addr) (size : Size) : Option State :=
  (s.heap cur).map fun b ↦
    let moved : Block := ⟨size, if M ≤ size then b.metaData else none⟩
    { s with heap := Function.update (Function.update s.heap cur none) new (some moved) }

def free (cur : Addr) : Option State :=
  (s.heap cur).map fun _ ↦ { s with heap := Function.update s.heap cur none }

/-- The loop that looks for `entry`.  It returns `previous` and `cur`. -/
def search (entry : Addr) : ℕ → Addr → Addr → Option (Addr × Addr)
  | 0, _, _ => none
  | fuel + 1, previous, cur =>
      if cur = 0 ∨ cur = entry then some (previous, cur)
      else (s.load cur).bind fun m ↦ search entry fuel cur m.next

/-- No list without repetition outlasts this many rounds. -/
def searchFuel : ℕ := 2 ^ 64 + 1

/-- The answers of `malloc` and `realloc` are arguments, `none` for a failure. -/
def miniMalloc (request : Request) (answer : Option Addr) : Option (State × Addr) :=
  if request.requestSize = 0 then some (s, 0)
  else match answer with
    | none => some (s, 0)
    | some mem => do
      let s ← (s.malloc mem (request.requestSize + M)).store M mem ⟨request, s.head⟩
      pure ({ s with totalMemoryRequested := s.totalMemoryRequested + request.requestSize,
                     head := mem }, mem + M)

def miniCalloc (numElements elementSize : Size) (filename instruction : Addr)
    (answer : Option Addr) : Option (State × Addr) :=
  if numElements = 0 ∨ elementSize = 0 then some (s, 0)
  else match answer with
    | none => some (s, 0)
    | some mem => do
      let size := numElements * elementSize + M
      let requestSize := numElements * elementSize
      let s ← (s.malloc mem size).store M mem ⟨⟨requestSize, filename, instruction⟩, s.head⟩
      let s := { s with head := mem, totalMemoryRequested := s.totalMemoryRequested + requestSize }
      -- `memset` stays within the block
      if M.toNat + requestSize.toNat ≤ size.toNat then some (s, mem + M) else none

def miniFree (payload : Addr) : Option State :=
  if payload = 0 then some s
  else do
    let (previous, cur) ← s.search (payload - M) searchFuel 0 s.head
    if cur = 0 then some { s with invalidAddresses := s.invalidAddresses + 1 }
    else do
      let m ← s.load cur
      let s ← (if cur = s.head then some { s with head := m.next }
        else do
          let p ← s.load previous
          s.store M previous { p with next := m.next })
      let m ← s.load cur
      pure { s with totalMemoryFreed := s.totalMemoryFreed + m.requestSize }

def miniRealloc (payload : Addr) (request : Request) (answer : Option Addr) :
    Option (State × Addr) :=
  if payload = 0 ∧ request.requestSize = 0 then some (s, 0)
  else if request.requestSize = 0 then (s.miniFree M payload).map fun s ↦ (s, 0)
  else if payload = 0 then s.miniMalloc M request answer
  else do
    let (previous, cur) ← s.search (payload - M) searchFuel 0 s.head
    if cur = 0 then some ({ s with invalidAddresses := s.invalidAddresses + 1 }, 0)
    else match answer with
      -- a call with size 0 that returns a null pointer may have freed the block
      | none => if request.requestSize + M = 0 then none else some (s, 0)
      | some new => do
        let s ← s.realloc M cur new (request.requestSize + M)
        let preSize ← (s.load cur).map (·.requestSize)
        let s := if preSize ≤ request.requestSize then
            { s with totalMemoryRequested :=
              s.totalMemoryRequested + (request.requestSize - preSize) }
          else { s with totalMemoryFreed := s.totalMemoryFreed + (preSize - request.requestSize) }
        let m ← s.load new
        let s ← s.store M new { m with toRequest := request }
        if new ≠ cur then do
          let p ← s.load previous
          let s ← s.store M previous { p with next := new }
          let m ← s.load new
          let c ← s.load cur
          let s ← s.store M new { m with next := c.next }
          let s ← s.free cur
          pure (s, new + M)
        else pure (s, new + M)

end State

inductive Call
  | malloc (request : Request)
  | calloc (numElements elementSize : Size) (filename instruction : Addr)
  | realloc (payload : Addr) (request : Request)
  | free (payload : Addr)

/-- A completed call with the answer of the allocator and the returned pointer. -/
structure Event where
  call : Call
  answer : Option Addr
  reply : Addr

variable (M : Size)

/-- The size that a call asks the allocator for. -/
def Call.size : Call → Size
  | malloc request => request.requestSize + M
  | calloc numElements elementSize _ _ => numElements * elementSize + M
  | realloc _ request => request.requestSize + M
  | free _ => 0

/-- The allocator returns a new block, or the block that is reallocated. -/
def Answers (s : State) (call : Call) (answer : Option Addr) : Prop :=
  ∀ mem, answer = some mem → mem ≠ 0 ∧ mem.toNat + (call.size M).toNat < 2 ^ 64 ∧
    (s.heap mem = none ∨ ∃ payload request, call = .realloc payload request ∧ payload ≠ 0 ∧
      mem = payload - M)

def State.exec (s : State) (answer : Option Addr) : Call → Option (State × Addr)
  | .malloc request => s.miniMalloc M request answer
  | .calloc numElements elementSize filename instruction =>
      s.miniCalloc M numElements elementSize filename instruction answer
  | .realloc payload request => s.miniRealloc M payload request answer
  | .free payload => (s.miniFree M payload).map fun s ↦ (s, 0)

def Step (s : State) (e : Event) (s' : State) : Prop :=
  Answers M s e.call e.answer ∧ s.exec M e.answer e.call = some (s', e.reply)

/-- The live payloads with their current requests. -/
abbrev Live := Addr → Option Request

/-- A successful allocation returns a pointer other than null. -/
def Live.allocate (live : Live) (p : Addr) (request : Request) : Live :=
  if p = 0 then live else Function.update live p (some request)

def Live.release (live : Live) (p : Addr) : Live :=
  Function.update live p none

/-- The effect of a call on the live payloads, as its caller sees it. -/
def Live.after (live : Live) : Call → Addr → Live
  | .malloc request, reply => live.allocate reply request
  | .calloc numElements elementSize filename instruction, reply =>
      live.allocate reply ⟨numElements * elementSize, filename, instruction⟩
  | .free payload, _ => live.release payload
  | .realloc payload request, reply =>
      if request.requestSize = 0 then live.release payload
      else if payload = 0 then live.allocate reply request
      else if (live payload).isNone ∨ reply = 0 then live
      else (live.release payload).allocate reply request

def liveAfter (events : List Event) : Live :=
  events.foldl (fun live e ↦ live.after e.call e.reply) fun _ ↦ none

end SystemProgramming.MiniMemcheck
