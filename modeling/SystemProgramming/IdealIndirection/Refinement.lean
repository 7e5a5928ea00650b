import SystemProgramming.IdealIndirection.Machine

/-!
# Reads return what was written

The refinement of private flat memories, for runs that stay inside the page directory,
and an access that does not.
-/

namespace SystemProgramming.IdealIndirection

variable {P : Platform}

namespace State

variable {s s' : State} {m : FlatMemory}

theorem lastWritten_append (events : List (Event P)) (e : Event P) :
    lastWritten (events ++ [e]) = (lastWritten events).step e := by
  rw [lastWritten, List.foldl_append]
  rfl

/-- What one call preserves, and what a read replies. -/
theorem Inv.step (h : s.Inv P) (hag : s.Agrees P m) {e : Event P} (hok : s.Permitted e)
    (hin : s.InDirectory e) (hstep : s.step e = some s') :
    s'.Inv P ∧ s'.Agrees P (m.step e) ∧ ∀ pid va n, e.call = .read pid va n →
      e.reply ≠ .segmentationFault →
        e.reply = .bytes ((List.range n).map fun k ↦ m pid (va + BitVec.ofNat 32 k)) := by
  obtain ⟨kernel, hit, call, reply⟩ := e
  unfold State.step at hstep
  split at hstep
  · cases hstep
  obtain ⟨⟨s₁, reply'⟩, hexec, hreply⟩ := Option.bind_eq_some_iff.mp hstep
  obtain ⟨rfl, rfl⟩ : reply' = reply ∧ s₁ = s' := by simpa using hreply
  cases call with
  | addProcess pid =>
      obtain ⟨s₂, hadd, heq⟩ := Option.map_eq_some_iff.mp hexec
      obtain ⟨rfl, rfl⟩ : s₂ = s₁ ∧ _ = reply' := by simpa using heq
      obtain ⟨hinv, hag'⟩ := h.addProcess hag (hok pid rfl) hadd
      exact ⟨hinv, hag', by simp⟩
  | removeProcess pid =>
      obtain ⟨s₂, hremove, heq⟩ := Option.map_eq_some_iff.mp hexec
      obtain ⟨rfl, rfl⟩ : s₂ = s₁ ∧ _ = reply' := by simpa using heq
      obtain ⟨hinv, hag'⟩ := h.removeProcess hag hremove
      exact ⟨hinv, hag', by simp⟩
  | read pid va n =>
      obtain ⟨hinv, hag', hreply'⟩ := h.read hag hin hexec
      refine ⟨hinv, hag', fun pid' va' n' hcall hne ↦ ?_⟩
      obtain ⟨rfl, rfl, rfl⟩ : pid = pid' ∧ va = va' ∧ n = n' := by simpa using hcall
      exact hreply'.resolve_left hne
  | write pid va buffer =>
      obtain ⟨hinv, ⟨rfl, hag'⟩ | ⟨rfl, hag'⟩⟩ := h.write hag hin hexec
      · exact ⟨hinv, hag', by simp⟩
      · exact ⟨hinv, hag', by simp⟩

/-- Runs in which only absent processes are added, and in which every translated
address has an entry in the page directory. -/
def InDirectoryStep (s : State) (e : Event P) (s' : State) : Prop :=
  Guarded (StepOf State.step) (fun s e ↦ s.Permitted e ∧ s.InDirectory e) s e s'

theorem inv_of_run {mem : Frame → Bytes} {events : List (Event P)}
    (hrun : Run InDirectoryStep (mmuCreate mem) events s) :
    s.Inv P ∧ s.Agrees P (lastWritten events) := by
  induction hrun with
  | nil => exact inv_mmuCreate mem
  | snoc _ hlast ih =>
      obtain ⟨⟨hok, hin⟩, hstep⟩ := hlast
      obtain ⟨hinv, hag, -⟩ := ih.1.step ih.2 hok hin hstep
      rw [lastWritten_append]
      exact ⟨hinv, hag⟩

end State

/-- Every read that passes the segmentation check replies the bytes last written by the
same process, whatever the other processes and the kernel have done. -/
theorem read_eq_lastWritten (P : Platform) (mem : Frame → Bytes) (events : List (State.Event P))
    (s : State) (hrun : Run State.InDirectoryStep (mmuCreate mem) events s)
    (pre post : List (State.Event P)) (e : State.Event P) (hevents : events = pre ++ e :: post)
    (pid : ℕ) (va : Addr32) (numBytes : ℕ) (hcall : e.call = .read pid va numBytes)
    (hpass : e.reply ≠ .segmentationFault) :
    e.reply = .bytes ((List.range numBytes).map fun k ↦
      lastWritten pre pid (va + BitVec.ofNat 32 k)) := by
  subst hevents
  obtain ⟨s₁, hpre, hrest⟩ := Run.append_iff.mp hrun
  obtain ⟨s₂, ⟨⟨hok, hin⟩, hstep⟩, -⟩ := Run.cons_iff.mp hrest
  obtain ⟨hinv, hag⟩ := State.inv_of_run hpre
  obtain ⟨-, -, hreply⟩ := hinv.step hag hok hin hstep
  exact hreply pid va numBytes hcall hpass

/-! ## A 32-bit machine -/

/-- The bits of an entry, in the order in which the processor reads them. -/
def entryWord (e : Entry) : ℕ :=
  e.present.toNat + 2 * e.readWrite.toNat + 4 * e.userSupervisor.toNat + 32 * e.accessed.toNat +
    64 * e.dirty.toNat + 4096 * e.baseAddr.toNat

def entryOfWord (n : ℕ) : Entry where
  baseAddr := BitVec.ofNat 20 (n / 4096)
  present := n.testBit 0
  readWrite := n.testBit 1
  userSupervisor := n.testBit 2
  accessed := n.testBit 5
  dirty := n.testBit 6

theorem entryOfWord_entryWord (e : Entry) : entryOfWord (entryWord e) = e := by
  obtain ⟨base, p, r, u, a, d⟩ := e
  have hbase := base.isLt
  have hdiv : entryWord ⟨base, p, r, u, a, d⟩ / 4096 = base.toNat := by
    cases p <;> cases r <;> cases u <;> cases a <;> cases d <;> simp [entryWord] <;> omega
  have hlow : entryWord ⟨base, p, r, u, a, d⟩ % 128 =
      p.toNat + 2 * r.toNat + 4 * u.toNat + 32 * a.toNat + 64 * d.toNat := by
    cases p <;> cases r <;> cases u <;> cases a <;> cases d <;> simp [entryWord] <;> omega
  have hbit : ∀ i < 7, (entryWord ⟨base, p, r, u, a, d⟩).testBit i =
      (p.toNat + 2 * r.toNat + 4 * u.toNat + 32 * a.toNat + 64 * d.toNat).testBit i := by
    intro i hi
    rw [← hlow, show (128 : ℕ) = 2 ^ 7 from rfl, Nat.testBit_mod_two_pow]
    simp [hi]
  ext1 <;> simp only [entryOfWord, hdiv, BitVec.ofNat_toNat, BitVec.setWidth_eq]
  all_goals
    rw [hbit _ (by decide)]
    clear hdiv hlow hbit
    revert p r u a d
    decide

def littleEndian : Layout Entry 4 where
  pos := Layout.int32_pos
  encode e := Layout.int32.encode (BitVec.ofNat 32 (entryWord e))
  decode b := entryOfWord (Layout.int32.decode b).toNat
  decode_encode e := by
    have hlt : entryWord e < 2 ^ 32 := by
      obtain ⟨base, p, r, u, a, d⟩ := e
      have hbase := base.isLt
      cases p <;> cases r <;> cases u <;> cases a <;> cases d <;> simp [entryWord] <;> omega
    rw [Layout.decode_encode, BitVec.toNat_ofNat, Nat.mod_eq_of_lt hlt, entryOfWord_entryWord]

/-- The segment that an address lies in. -/
def findSegment (segs : Segmentations) (va : Addr32) : Option Segment :=
  ([.stack, .mmap, .heap, .bss, .data, .text, .testing].map segs).find? fun seg ↦
    seg.start.toNat ≤ va.toNat ∧ va.toNat < seg.stop.toNat

def thirtyTwoBit : Platform where
  VIRTUAL_ADDR_SPACE := 32
  READ := 4
  WRITE := 2
  EXEC := 1
  MAX_PROCESS_ID := 1024
  layout := littleEndian
  addressInSegmentations segs va := (findSegment segs va).isSome
  findSegment := findSegment
  layout_zero := by decide
  shift_le := by decide
  le_shift := by decide

namespace State

/-- The first process is added. -/
theorem exists_run_addProcess : ∃ (e : Event thirtyTwoBit) (s : State),
    Run InDirectoryStep (mmuCreate fun _ _ ↦ 0) [e] s ∧ e.call = .addProcess 0 ∧
      s.frameOf thirtyTwoBit (.table 0 0) ≠ none ∧ s.frameOf thirtyTwoBit (.page 0 0 1) ≠ none ∧
      s.pageDirectories 0 ≠ none ∧ s.segmentations 0 = some (newSegmentations thirtyTwoBit) ∧
      s.currPid = 0 ∧ s.undefined = false := by
  obtain ⟨s, hadd, hrest⟩ :=
    exists_addProcess (P := thirtyTwoBit) (fun _ _ ↦ 0)
      (show 0 < thirtyTwoBit.MAX_PROCESS_ID by decide)
  refine ⟨⟨countingKernel thirtyTwoBit, false, .addProcess 0, .done⟩, s, Run.single ?_, rfl, hrest⟩
  have hexec : (mmuCreate fun _ _ ↦ 0).exec
      (⟨countingKernel thirtyTwoBit, false, .addProcess 0, .done⟩ : Event thirtyTwoBit) =
      some (s, .done) := by
    change Option.map _ _ = _
    rw [hadd]
    rfl
  refine ⟨⟨fun _ _ ↦ rfl, fun h ↦ h.elim⟩, ?_⟩
  rw [StepOf, State.step, hexec]
  rfl

/-- It writes a byte of its first page, and reads it through the TLB. -/
theorem exists_run_write_read : ∃ (e₁ e₂ e₃ : Event thirtyTwoBit) (s₂ s₃ : State) (l : Loc),
    Run InDirectoryStep (mmuCreate fun _ _ ↦ 0) [e₁, e₂] s₂ ∧
      s₂.tlb (pageAddress 0x1000) = some l ∧
      Run InDirectoryStep (mmuCreate fun _ _ ↦ 0) [e₁, e₂, e₃] s₃ ∧ e₁.call = .addProcess 0 ∧
      e₂.call = .write 0 0x1000 [7] ∧ e₃.call = .read 0 0x1000 1 ∧ e₂.reply = .done ∧
      e₃.reply ≠ .segmentationFault ∧ e₃.hit = true := by
  obtain ⟨e₁, s₁, hrun, hcall, htable, hpage, -, hsegs, hpid, hdef⟩ := exists_run_addProcess
  have htop : topLevel thirtyTwoBit 0x1000 < NUM_ENTRIES := by decide
  have hmax : 0 < thirtyTwoBit.MAX_PROCESS_ID := by decide
  have hone : 1 + (0x1000 : Addr32).toNat % PAGE_SIZE ≤ PAGE_SIZE := by decide
  have hin : thirtyTwoBit.addressInSegmentations (newSegmentations thirtyTwoBit) 0x1000 = true := by
    decide
  have hfind : thirtyTwoBit.findSegment (newSegmentations thirtyTwoBit) 0x1000 =
      some (newSegmentations thirtyTwoBit .testing) := rfl
  -- the page is found by a walk
  obtain ⟨s', l, hget, htlb, hsegs', hpid', hdef'⟩ := exists_getTableEntry (s := s₁)
    (countingKernel thirtyTwoBit) htop (by rw [hpid]; exact htable) (by rw [hpid]; exact hpage)
  let s₂ : State := s'.writeBytes thirtyTwoBit l 0x1000 [7]
  let e₂ : Event thirtyTwoBit := ⟨countingKernel thirtyTwoBit, false, .write 0 0x1000 [7], .done⟩
  have hexec₂ : s₁.exec e₂ = some (s₂, .done) :=
    mmuWrite_eq hmax hone hpid hsegs hin (by decide) hfind (by decide) hget
  have hstep₂ : s₁.step e₂ = some s₂ := by
    rw [State.step, hdef, hexec₂]
    rfl
  have hrun₂ : Run InDirectoryStep (mmuCreate fun _ _ ↦ 0) ([e₁] ++ [e₂]) s₂ :=
    hrun.snoc ⟨⟨by simp [Permitted, e₂], fun _ ↦ htop⟩, hstep₂⟩
  -- and it is resident behind the write
  obtain ⟨s'', l', heq, hserved⟩ := (inv_of_run hrun).1.getTableEntry htop hget
  cases heq
  obtain ⟨s₀, f, _, -, -, hpage₀, hroles, hwrite⟩ := hserved.writeBytes_roles [7]
  have hpage₂ : s₂.frameOf thirtyTwoBit
      (.page s₂.currPid ⟨topLevel thirtyTwoBit 0x1000, htop⟩ (secondLevel 0x1000)) ≠ none := by
    have hcurr : s₂.currPid = s₁.currPid := hpid'
    have hframe := (hroles (memcpy (s₀.mem f) (pageOffset 0x1000) [7]) _).trans hpage₀
    rw [← hwrite] at hframe
    rw [hcurr]
    exact ne_of_eq_of_ne hframe (Option.some_ne_none f)
  have htlb₂ : s₂.tlb (pageAddress 0x1000) = some l := htlb
  obtain ⟨s₃, hget₃⟩ := (inv_of_run hrun₂).1.exists_getTableEntry_hit
    (countingKernel thirtyTwoBit) htlb₂ htop hpage₂
  let e₃ : Event thirtyTwoBit := ⟨countingKernel thirtyTwoBit, true, .read 0 0x1000 1,
    .bytes (s₃.readBytes thirtyTwoBit l 0x1000 1)⟩
  have hperm : (newSegmentations thirtyTwoBit .testing).permissions ≠ 0 ∧
      thirtyTwoBit.READ ≠ 0 := by decide
  have hpid₂ : s₂.currPid = 0 := hpid'.trans hpid
  have hsegs₂ : s₂.segmentations 0 = some (newSegmentations thirtyTwoBit) :=
    (congrFun hsegs' 0).trans hsegs
  have hdef₂ : s₂.undefined = false := hdef'.trans hdef
  have hexec₃ : s₂.exec e₃ = some (s₃, e₃.reply) :=
    mmuRead_eq hmax hone hpid₂ hsegs₂ hin (by decide) hfind hperm hget₃
  have hstep₃ : s₂.step e₃ = some s₃ := by
    rw [State.step, hdef₂, hexec₃]
    simp
  have hrun₃ : Run InDirectoryStep (mmuCreate fun _ _ ↦ 0) ([e₁, e₂] ++ [e₃]) s₃ :=
    hrun₂.snoc ⟨⟨by simp [Permitted, e₃], fun _ ↦ htop⟩, hstep₃⟩
  exact ⟨e₁, e₂, e₃, s₂, s₃, l, hrun₂, htlb₂, hrun₃, hcall, rfl, rfl, rfl, by simp [e₃], rfl⟩

/-- It reads the first byte of its stack, whose index is outside the directory. -/
theorem exists_run_stackRead : ∃ (e₁ e₂ : Event thirtyTwoBit) (s₁ s₂ : State),
    Run InDirectoryStep (mmuCreate fun _ _ ↦ 0) [e₁] s₁ ∧ s₁.Permitted e₂ ∧
      s₁.step e₂ = some s₂ ∧ e₂.call = .read 0 0xBFFFE000 1 ∧ e₂.reply = .undefined ∧
      s₂.undefined = true := by
  obtain ⟨e₁, s₁, hrun, -, -, -, hadded, hsegs, hpid, hdef⟩ := exists_run_addProcess
  have htop : ¬ topLevel thirtyTwoBit 0xBFFFE000 < NUM_ENTRIES := by decide
  have hget := getTableEntry_outOfBounds (countingKernel thirtyTwoBit)
    (by rw [hpid]; exact hadded) htop
  let e₂ : Event thirtyTwoBit := ⟨countingKernel thirtyTwoBit, false, .read 0 0xBFFFE000 1,
    .undefined⟩
  have hin : thirtyTwoBit.addressInSegmentations (newSegmentations thirtyTwoBit) 0xBFFFE000 =
      true := by decide
  have hfind : thirtyTwoBit.findSegment (newSegmentations thirtyTwoBit) 0xBFFFE000 =
      some (newSegmentations thirtyTwoBit .stack) := rfl
  have hmax : 0 < thirtyTwoBit.MAX_PROCESS_ID := by decide
  have hperm : (newSegmentations thirtyTwoBit .stack).permissions ≠ 0 ∧
      thirtyTwoBit.READ ≠ 0 := by decide
  have hexec : s₁.exec e₂ = some ({ s₁.mmuTlbMiss with undefined := true }, .undefined) :=
    mmuRead_eq hmax (by decide) hpid hsegs hin (by decide) hfind hperm hget
  have hstep : s₁.step e₂ = some { s₁.mmuTlbMiss with undefined := true } := by
    rw [State.step, hdef, hexec]
    simp [e₂]
  exact ⟨e₁, e₂, s₁, _, hrun, by simp [Permitted, e₂], hstep, rfl, rfl, rfl⟩

end State

/-- A new process writes a byte and reads it. -/
theorem read_eq_lastWritten_new_process : ∃ (pre : List (State.Event thirtyTwoBit)) (s : State)
    (e : State.Event thirtyTwoBit),
    Run State.InDirectoryStep (mmuCreate fun _ _ ↦ 0) (pre ++ [e]) s ∧
      pre.map State.Event.call = [.addProcess 0, .write 0 0x1000 [7]] ∧
      e.call = .read 0 0x1000 1 ∧ e.reply = .bytes [7] := by
  obtain ⟨e₁, e₂, e₃, -, s, -, -, -, hrun, hcall₁, hcall₂, hcall₃, hdone, hreply, -⟩ :=
    State.exists_run_write_read
  refine ⟨[e₁, e₂], s, e₃, hrun, by simp [hcall₁, hcall₂], hcall₃, ?_⟩
  rw [read_eq_lastWritten thirtyTwoBit _ _ s hrun [e₁, e₂] [] e₃ rfl 0 0x1000 1 hcall₃ hreply]
  simp [lastWritten, FlatMemory.step, hcall₁, hcall₂, hdone]

/-- A stack address is in the segmentation, and its index is outside the directory. -/
theorem stack_read_outside_directory : ∃ (pre : List (State.Event thirtyTwoBit)) (s : State)
    (e : State.Event thirtyTwoBit),
    Run (Guarded (StepOf State.step) State.Permitted) (mmuCreate fun _ _ ↦ 0) (pre ++ [e]) s ∧
      e.call = .read 0 0xBFFFE000 1 ∧ e.reply ≠ .segmentationFault ∧
      e.reply ≠ .bytes ((List.range 1).map fun k ↦
        lastWritten pre 0 (0xBFFFE000 + BitVec.ofNat 32 k)) := by
  obtain ⟨e₁, e₂, s₁, s₂, hrun, hok, hstep, hcall, hreply, -⟩ := State.exists_run_stackRead
  refine ⟨[e₁], s₂, e₂, Run.snoc (hrun.mono fun s e t h ↦ ⟨h.1.1, h.2⟩) ⟨hok, hstep⟩, hcall, ?_, ?_⟩
  · simp [hreply]
  · simp [hreply]

end SystemProgramming.IdealIndirection
