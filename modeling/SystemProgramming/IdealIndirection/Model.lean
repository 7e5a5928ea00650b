import SystemProgramming.Lib.Records
import SystemProgramming.Lib.Runs

/-!
# The memory management unit

`mmu.c`: two-level page tables in physical frames, a TLB for the running process, and
pages that the kernel moves to disk when it needs a frame.  The headers, the kernel and
the TLB are not part of the repository; the constants they define and the functions
they provide are parameters.
-/

namespace SystemProgramming.IdealIndirection

abbrev NUM_ENTRIES : ℕ := 1024
def NUM_OFFSET_BITS : ℕ := 12
def PAGE_SIZE : ℕ := 4096

abbrev Addr32 := BitVec 32

/-- The number of a physical frame: an address without its offset bits. -/
abbrev Frame := BitVec 20

/-- A page directory entry or a page table entry. -/
@[ext]
structure Entry where
  baseAddr : Frame
  present : Bool
  readWrite : Bool
  userSupervisor : Bool
  accessed : Bool
  dirty : Bool

/-- The frame that a present entry points to. -/
def Entry.target (e : Entry) : Option Frame := if e.present then some e.baseAddr else none

/-- Where an entry lies: its frame and its index. -/
@[ext]
structure Loc where
  frame : Frame
  index : Fin NUM_ENTRIES
  deriving DecidableEq

structure Segment where
  start : Addr32
  stop : Addr32
  permissions : ℕ
  growsDown : Bool

inductive SegmentKind
  | stack | mmap | heap | bss | data | text | testing
  deriving DecidableEq

abbrev Segmentations := SegmentKind → Segment

/-- What the missing headers define. -/
structure Platform where
  VIRTUAL_ADDR_SPACE : ℕ
  READ : ℕ
  WRITE : ℕ
  EXEC : ℕ
  MAX_PROCESS_ID : ℕ
  layout : Layout Entry 4
  addressInSegmentations : Segmentations → Addr32 → Bool
  findSegment : Segmentations → Addr32 → Option Segment
  /-- a zero-filled frame is a table without present entries -/
  layout_zero : (layout.decode fun _ ↦ 0).present = false
  /-- the two indices cover the page number, and the directory index none of the offset -/
  shift_le : VIRTUAL_ADDR_SPACE - NUM_OFFSET_BITS ≤ 22
  le_shift : NUM_OFFSET_BITS ≤ VIRTUAL_ADDR_SPACE - NUM_OFFSET_BITS

structure State where
  mem : Frame → Bytes
  /-- the swap files, by the entry whose page they hold -/
  swap : Loc → Option Bytes
  /-- the frames that the kernel has handed out and not taken back -/
  handedOut : List Frame
  /-- the arguments of all calls of `return_frame_to_kernel`, in order -/
  returned : List Frame
  pageDirectories : ℕ → Option Frame
  segmentations : ℕ → Option Segmentations
  currPid : ℕ
  /-- the pointers added since the last flush, by page -/
  tlb : Addr32 → Option Loc
  numTlbMisses : ℕ
  numPageFaults : ℕ
  numSegmentationFaults : ℕ
  /-- an access outside the page directory has happened -/
  undefined : Bool

/-- The state that `mmu_create` makes, whatever the frames hold. -/
def mmuCreate (mem : Frame → Bytes) : State where
  mem := mem
  swap := fun _ ↦ none
  handedOut := []
  returned := []
  pageDirectories := fun _ ↦ none
  segmentations := fun _ ↦ none
  currPid := 0
  tlb := fun _ ↦ none
  numTlbMisses := 0
  numPageFaults := 0
  numSegmentationFaults := 0
  undefined := false

namespace State

variable (P : Platform) (s : State)

def entry (l : Loc) : Entry := P.layout.get (s.mem l.frame) l.index

def writeFrame (f : Frame) (bytes : Bytes) : State :=
  { s with mem := Function.update s.mem f bytes }

def setEntry (l : Loc) (e : Entry) : State :=
  s.writeFrame l.frame (P.layout.set (s.mem l.frame) l.index e)

def target (l : Loc) : Option Frame := (s.entry P l).target

/-! ## The kernel -/

/-- What a frame is used for. -/
inductive Role
  | directory (pid : ℕ)
  | table (pid : ℕ) (top : Fin NUM_ENTRIES)
  | page (pid : ℕ) (top second : Fin NUM_ENTRIES)
  deriving DecidableEq

/-- The frame in that role. -/
def frameOf : Role → Option Frame
  | .directory pid => s.pageDirectories pid
  | .table pid top => (s.pageDirectories pid).bind fun pd ↦ s.target P ⟨pd, top⟩
  | .page pid top second =>
      ((s.pageDirectories pid).bind fun pd ↦ s.target P ⟨pd, top⟩).bind fun pt ↦
        s.target P ⟨pt, second⟩

/-- Save a present page under its entry and take its frame. -/
def evict : Option Loc → State
  | none => s
  | some l =>
      let e := s.entry P l
      { s.setEntry P l { e with present := false } with
        swap := Function.update s.swap l (some (s.mem e.baseAddr))
        handedOut := s.handedOut.erase e.baseAddr }

/-- Any choice of the kernel: at most one page is moved to disk, and the frame that it
hands out has no role then. -/
structure Kernel where
  choose : State → Option Loc → Option (Option Loc × Frame)
  evicts_page : ∀ s e l f, choose s e = some (some l, f) → s.target P l ≠ none ∧
    ∃ pid top, s.frameOf P (.table pid top) = some l.frame
  frame_free : ∀ s e v f, choose s e = some (v, f) →
    ∀ role, (s.evict P v).frameOf P role ≠ some f

variable {P}

def askKernelForFrame (K : Kernel P) (entry : Option Loc) : Option (State × Frame) :=
  (K.choose s entry).map fun (victim, f) ↦
    ({ (s.evict P victim).writeFrame f (fun _ ↦ 0) with
        handedOut := f :: (s.evict P victim).handedOut }, f)

def returnFrameToKernel (f : Frame) : State :=
  { s with handedOut := s.handedOut.erase f, returned := s.returned ++ [f] }

def removeSwapFile (l : Loc) : State := { s with swap := Function.update s.swap l none }

variable (P)

/-- Fill the frame of the entry from its swap file, if it has one. -/
def readPageFromDisk (l : Loc) : State :=
  match s.swap l with
  | none => s
  | some bytes => s.writeFrame (s.entry P l).baseAddr bytes

/-! ## Translation -/

def topLevel (va : Addr32) : ℕ := (va >>> (P.VIRTUAL_ADDR_SPACE - NUM_OFFSET_BITS)).toNat

theorem secondLevel_toNat (va : Addr32) :
    ((va &&& 0x003FF000#32) >>> NUM_OFFSET_BITS).toNat = va.toNat / 4096 % 1024 := by
  rw [BitVec.toNat_ushiftRight, BitVec.toNat_and, Nat.shiftRight_and_distrib,
    Nat.shiftRight_eq_div_pow]
  exact Nat.and_two_pow_sub_one_eq_mod (va.toNat / 2 ^ 12) 10

def secondLevel (va : Addr32) : Fin NUM_ENTRIES :=
  ⟨((va &&& 0x003FF000#32) >>> NUM_OFFSET_BITS).toNat, by
    rw [secondLevel_toNat]
    exact Nat.mod_lt _ (by decide)⟩

def pageOffset (va : Addr32) : ℕ := (va &&& 0xFFF#32).toNat

/-- `virtual_address & 0xFFFFF000` -/
def pageAddress (va : Addr32) : Addr32 := va &&& 0xFFFFF000#32

def mmuTlbMiss : State := { s with numTlbMisses := s.numTlbMisses + 1 }

def mmuRaisePageFault : State := { s with numPageFaults := s.numPageFaults + 1 }

def mmuRaiseSegmentationFault : State :=
  { s with numSegmentationFaults := s.numSegmentationFaults + 1 }

def tlbFlush : State := { s with tlb := fun _ ↦ none }

def tlbAddPte (va : Addr32) (l : Loc) : State :=
  { s with tlb := Function.update s.tlb (pageAddress va) (some l) }

/-- What `get_table_entry` comes to. -/
inductive Lookup
  | pte (s : State) (l : Loc)
  /-- `pd->entries[ top_level ]` lies outside the page directory -/
  | outOfBounds (s : State)

variable {P}

/-- The branch for a directory entry that is not present. -/
def loadTable (K : Kernel P) (l : Loc) : Option State := do
  let (s, f) ← s.mmuRaisePageFault.askKernelForFrame K none
  let s := s.setEntry P l { s.entry P l with baseAddr := f }
  let s := s.readPageFromDisk P l
  return s.setEntry P l
    { s.entry P l with present := true, readWrite := true, userSupervisor := true }

/-- The page table entry of an address, found through the page directory. -/
def walk (K : Kernel P) (va : Addr32) : Option Lookup := do
  let pd ← s.pageDirectories s.currPid
  if h : topLevel P va < NUM_ENTRIES then
    let pde : Loc := ⟨pd, ⟨topLevel P va, h⟩⟩
    let s ← (if (s.entry P pde).present then some s else s.loadTable K pde)
    return .pte s ⟨(s.entry P pde).baseAddr, secondLevel va⟩
  else return .outOfBounds s

/-- The branch for a table entry that is not present. -/
def loadPage (K : Kernel P) (l : Loc) : Option State := do
  let (s, f) ← s.mmuRaisePageFault.askKernelForFrame K (some l)
  let s := s.setEntry P l { s.entry P l with baseAddr := f }
  let s := s.readPageFromDisk P l
  return s.setEntry P l
    { s.entry P l with present := true, readWrite := true, userSupervisor := true }

/-- What follows once the table entry is found. -/
def access (K : Kernel P) (va : Addr32) (l : Loc) : Option Lookup := do
  let s ← (if (s.entry P l).present then some s else s.loadPage K l)
  let s := s.setEntry P l { s.entry P l with accessed := true }
  return .pte (s.tlbAddPte va l) l

/-- `get_table_entry`; whether the TLB still has a pointer that was added is up to it. -/
def getTableEntry (K : Kernel P) (hit : Bool) (va : Addr32) : Option Lookup :=
  match if hit then s.tlb (pageAddress va) else none with
  | some l => s.access K va l
  | none => do
      match ← s.mmuTlbMiss.walk K va with
      | .pte s l => s.access K va l
      | .outOfBounds s => return .outOfBounds s

end State

/-! ## The calls -/

inductive Call
  | addProcess (pid : ℕ)
  | removeProcess (pid : ℕ)
  | read (pid : ℕ) (va : Addr32) (numBytes : ℕ)
  | write (pid : ℕ) (va : Addr32) (buffer : List UInt8)

inductive Reply
  | done
  | bytes (buffer : List UInt8)
  | segmentationFault
  /-- the access is outside the page directory -/
  | undefined
  deriving DecidableEq

namespace State

variable {P : Platform} (s : State)

/-- `assert`: a call that violates it does not return. -/
def assert (p : Prop) [Decidable p] : Option Unit := if p then some () else none

@[simp] theorem assert_eq_some {p : Prop} [Decidable p] {u : Unit} :
    assert p = some u ↔ p := by
  unfold assert
  split <;> simp [*]

def switchTo (pid : ℕ) : State :=
  if s.currPid ≠ pid then { s.tlbFlush with currPid := pid } else s

def readBytes (P : Platform) (l : Loc) (va : Addr32) (numBytes : ℕ) : List UInt8 :=
  (List.range numBytes).map fun k ↦ s.mem (s.entry P l).baseAddr (pageOffset va + k)

def writeBytes (P : Platform) (l : Loc) (va : Addr32) (buffer : List UInt8) : State :=
  let s := s.setEntry P l { s.entry P l with dirty := true }
  let f := (s.entry P l).baseAddr
  s.writeFrame f (memcpy (s.mem f) (pageOffset va) buffer)

def mmuReadFromVirtualAddress (K : Kernel P) (hit : Bool) (va : Addr32) (pid numBytes : ℕ) :
    Option (State × Reply) := do
  assert (pid < P.MAX_PROCESS_ID)
  assert (numBytes + va.toNat % PAGE_SIZE ≤ PAGE_SIZE)
  let s := s.switchTo pid
  let segs ← s.segmentations pid
  if P.addressInSegmentations segs va = false ∨ va = 0 then
    return (s.mmuRaiseSegmentationFault, .segmentationFault)
  else
    let seg ← P.findSegment segs va
    -- `seg->permissions && READ`
    if ¬ (seg.permissions ≠ 0 ∧ P.READ ≠ 0) then
      return (s.mmuRaiseSegmentationFault, .segmentationFault)
    else
      match ← s.getTableEntry K hit va with
      | .pte s l => return (s, .bytes (s.readBytes P l va numBytes))
      | .outOfBounds s => return ({ s with undefined := true }, .undefined)

def mmuWriteToVirtualAddress (K : Kernel P) (hit : Bool) (va : Addr32) (pid : ℕ)
    (buffer : List UInt8) : Option (State × Reply) := do
  assert (pid < P.MAX_PROCESS_ID)
  assert (buffer.length + va.toNat % PAGE_SIZE ≤ PAGE_SIZE)
  let s := s.switchTo pid
  let segs ← s.segmentations pid
  if P.addressInSegmentations segs va = false ∨ va = 0 then
    return (s.mmuRaiseSegmentationFault, .segmentationFault)
  else
    match P.findSegment segs va with
    | none => return (s.mmuRaiseSegmentationFault, .segmentationFault)
    | some seg =>
        if seg.permissions &&& P.WRITE = 0 then
          return (s.mmuRaiseSegmentationFault, .segmentationFault)
        else
          match ← s.getTableEntry K hit va with
          | .pte s l => return (s.writeBytes P l va buffer, .done)
          | .outOfBounds s => return ({ s with undefined := true }, .undefined)

/-- The segments of a new process. -/
def newSegmentations (P : Platform) : Segmentations
  | .stack => ⟨0xBFFFE000, 0xC07FE000, P.READ ||| P.WRITE, true⟩
  | .mmap => ⟨0xC07FE000, 0xC07FE000, P.READ ||| P.EXEC ||| P.WRITE, true⟩
  | .heap => ⟨0x08072000, 0x08072000, P.READ ||| P.WRITE, false⟩
  | .bss => ⟨0x0805A000, 0x08072000, P.READ ||| P.WRITE, false⟩
  | .data => ⟨0x08052000, 0x0805A000, P.READ ||| P.WRITE, false⟩
  | .text => ⟨0x08048000, 0x08052000, P.READ ||| P.EXEC, false⟩
  | .testing => ⟨4096, 3 * 4096, P.READ ||| P.WRITE, false⟩

/-- One round of the loop that sets up the pages of the testing segment. -/
def addTestingPage (K : Kernel P) (pde : Loc) (i : Fin NUM_ENTRIES) : Option State := do
  let l : Loc := ⟨(s.entry P pde).baseAddr, i⟩
  let (s, f) ← s.askKernelForFrame K (some l)
  return s.setEntry P l
    { s.entry P l with baseAddr := f, present := true, readWrite := true, userSupervisor := true }

def mmuAddProcess (K : Kernel P) (pid : ℕ) : Option State := do
  assert (pid < P.MAX_PROCESS_ID)
  let (s, pd) ← s.askKernelForFrame K none
  let s := { s with pageDirectories := Function.update s.pageDirectories pid (some pd)
                    segmentations := Function.update s.segmentations pid
                      (some (newSegmentations P)) }
  let pde : Loc := ⟨pd, 0⟩
  let (s, pt) ← s.askKernelForFrame K none
  let s := s.setEntry P pde
    { s.entry P pde with baseAddr := pt, present := true, readWrite := true, userSupervisor := true }
  let s ← s.addTestingPage K pde 1
  s.addTestingPage K pde 2

/-- The loop over a page table in `mmu_remove_process`. -/
def removeTable (P : Platform) (pt : Frame) : State :=
  (List.finRange NUM_ENTRIES).foldl (fun s vpn2 ↦
    let s := if (s.entry P ⟨pt, vpn2⟩).present then
      s.returnFrameToKernel (s.entry P ⟨pt, vpn2⟩).baseAddr else s
    s.removeSwapFile ⟨pt, vpn2⟩) s

def removeDirectory (P : Platform) (pd : Frame) : State :=
  (List.finRange NUM_ENTRIES).foldl (fun s vpn1 ↦
    if (s.entry P ⟨pd, vpn1⟩).present then
      let pt := (s.entry P ⟨pd, vpn1⟩).baseAddr
      (s.removeTable P pt).returnFrameToKernel pt
    else s) s

/-- The `if (pd)` of `mmu_remove_process`. -/
def releaseFrames (P : Platform) (pid : ℕ) : State :=
  match s.pageDirectories pid with
  | none => s
  | some pd => (s.removeDirectory P pd).returnFrameToKernel pd

def mmuRemoveProcess (P : Platform) (pid : ℕ) : Option State := do
  assert (pid < P.MAX_PROCESS_ID)
  let s := s.releaseFrames P pid
  let s := { s with pageDirectories := Function.update s.pageDirectories pid none
                    segmentations := Function.update s.segmentations pid none }
  return if s.currPid = pid then s.tlbFlush else s

/-- A call together with what the kernel and the TLB do during it, and its reply. -/
structure Event (P : Platform) where
  kernel : Kernel P
  hit : Bool
  call : Call
  reply : Reply

def exec (e : Event P) : Option (State × Reply) :=
  match e.call with
  | .addProcess pid => (s.mmuAddProcess e.kernel pid).map (·, .done)
  | .removeProcess pid => (s.mmuRemoveProcess P pid).map (·, .done)
  | .read pid va numBytes => s.mmuReadFromVirtualAddress e.kernel e.hit va pid numBytes
  | .write pid va buffer => s.mmuWriteToVirtualAddress e.kernel e.hit va pid buffer

/-- A step of a run.  Nothing is said about what follows an undefined access. -/
def step (s : State) (e : Event P) : Option State :=
  if s.undefined then none
  else (s.exec e).bind fun (s', reply) ↦ if reply = e.reply then some s' else none

/-- Only processes that are not there are added. -/
def Permitted (s : State) (e : Event P) : Prop :=
  ∀ pid, e.call = .addProcess pid → s.pageDirectories pid = none

end State

end SystemProgramming.IdealIndirection
