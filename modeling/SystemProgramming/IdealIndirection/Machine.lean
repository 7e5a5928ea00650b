import SystemProgramming.IdealIndirection.Processes

/-!
# A kernel with free frames

While the frames that it counts off have no role, a kernel that evicts nothing lets a
process be added, and a resident page is read without asking it.
-/

namespace SystemProgramming.IdealIndirection

namespace State

variable {P : Platform} {s s' : State} {pid : ℕ} {va : Addr32} {l : Loc}

open Classical in
/-- Hand out the frames in order and evict nothing. -/
noncomputable def countingKernel (P : Platform) : Kernel P where
  choose s _ :=
    if ∀ r, s.frameOf P r ≠ some (BitVec.ofNat 20 s.handedOut.length) then
      some (none, BitVec.ofNat 20 s.handedOut.length)
    else none
  evicts_page s e l f h := by
    split at h <;> simp at h
  frame_free s e v f h := by
    split at h
    · next hfree =>
      obtain ⟨rfl, rfl⟩ : none = v ∧ _ = f := by simpa using h
      exact hfree
    · cases h

/-- The state with a frame that the kernel has counted off. -/
def handOut (s : State) (f : Frame) : State :=
  { s.writeFrame f (fun _ ↦ 0) with handedOut := f :: s.handedOut }

theorem ask_countingKernel {e : Option Loc} {f : Frame}
    (hf : f = BitVec.ofNat 20 s.handedOut.length) (hfree : ∀ r, s.frameOf P r ≠ some f) :
    s.askKernelForFrame (countingKernel P) e = some (s.handOut f, f) := by
  subst hf
  unfold askKernelForFrame countingKernel
  simp only [if_pos hfree]
  rfl

theorem frameOf_handOut (h : s.FrameInv P) {f : Frame} (hfree : ∀ r, s.frameOf P r ≠ some f)
    (r : Role) : (s.handOut f).frameOf P r = s.frameOf P r :=
  (frameOf_congr rfl rfl r).trans ((h.writeFrame_fresh hfree _).2 r)

theorem FrameInv.addTestingPage_eq (h : s.FrameInv P) {pd pt f : Frame} {i : Fin NUM_ENTRIES}
    (hpd : s.pageDirectories pid = some pd) (hpt : s.target P ⟨pd, 0⟩ = some pt)
    (hf : f = BitVec.ofNat 20 s.handedOut.length) (hfree : ∀ r, s.frameOf P r ≠ some f) :
    ∃ s', s.addTestingPage (countingKernel P) ⟨pd, 0⟩ i = some s' ∧
      s'.handedOut = f :: s.handedOut ∧
      ∀ r, s'.frameOf P r = if r = .page pid 0 i then some f else s.frameOf P r := by
  have hask := ask_countingKernel (P := P) (e := some ⟨pt, i⟩) hf hfree
  have hasked := h.ask hask
  have hbase := (target_eq_some_iff.mp hpt).2
  have htable : (s.handOut f).frameOf P (.table pid 0) = some pt :=
    hasked.tables _ _ _ ((frameOf_table hpd).trans hpt)
  let e : Entry := { (s.handOut f).entry P ⟨pt, i⟩ with
    baseAddr := f, present := true, readWrite := true, userSupervisor := true }
  refine ⟨(s.handOut f).setEntry P ⟨pt, i⟩ e, ?_, rfl, fun r ↦ ?_⟩
  · rw [State.addTestingPage, hbase, hask]
    rfl
  · rw [← frameOf_handOut h hfree]
    exact hasked.inv.frameOf_setEntry_table (l := ⟨pt, i⟩) htable e r

/-- The first process finds its frames. -/
theorem exists_addProcess (mem : Frame → Bytes) (hpid : pid < P.MAX_PROCESS_ID) :
    ∃ s', (mmuCreate mem).mmuAddProcess (countingKernel P) pid = some s' ∧
      s'.frameOf P (.table pid 0) ≠ none ∧ s'.frameOf P (.page pid 0 1) ≠ none ∧
      s'.pageDirectories pid ≠ none ∧ s'.segmentations pid = some (newSegmentations P) ∧
      s'.currPid = 0 ∧ s'.undefined = false := by
  set s₀ := mmuCreate mem with hs₀
  have hinv₀ : s₀.FrameInv P := (inv_mmuCreate mem).1.frames
  have hroles₀ : ∀ r, s₀.frameOf P r = none := by
    intro r
    cases r <;> rfl
  have hask₁ := ask_countingKernel (P := P) (s := s₀) (e := none) (f := 0#20) rfl (by simp [hroles₀])
  have hasked₁ := hinv₀.ask hask₁
  have hroles₁ : ∀ r, (s₀.handOut 0#20).frameOf P r = none := by
    intro r
    rw [frameOf_handOut hinv₀ (by simp [hroles₀]), hroles₀]
  set s₁ := s₀.handOut 0#20 with hs₁
  obtain ⟨hinv₂, hroles₂, hbytes₂⟩ := hasked₁.inv.addDirectory
    (show s₁.pageDirectories pid = none from rfl) (show ∀ r, s₁.frameOf P r ≠ some 0#20 by
      simp [hroles₁]) hasked₁.zero
    (Function.update s₁.segmentations pid (some (newSegmentations P)))
  set s₂ : State := { s₁ with
    pageDirectories := Function.update s₁.pageDirectories pid (some 0#20)
    segmentations := Function.update s₁.segmentations pid (some (newSegmentations P)) } with hs₂
  have hfree₂ : ∀ r, s₂.frameOf P r ≠ some 1#20 := by
    intro r
    rw [hroles₂, hroles₁]
    split <;> simp
  have hask₃ := ask_countingKernel (P := P) (s := s₂) (e := none) (f := 1#20) rfl hfree₂
  have hasked₃ := hinv₂.ask hask₃
  have hroles₃ := frameOf_handOut (P := P) hinv₂ hfree₂
  set s₃ := s₂.handOut 1#20 with hs₃
  have hpd₃ : s₃.pageDirectories pid = some 0#20 := Function.update_self ..
  set e : Entry := { s₃.entry P ⟨0#20, 0⟩ with
    baseAddr := 1#20, present := true, readWrite := true, userSupervisor := true } with he
  obtain ⟨hkeeps₄, hroles₄⟩ := hasked₃.inv.installTable (l := ⟨0#20, 0⟩) (e := e) hpd₃
    (by rw [← frameOf_table hpd₃, hroles₃, hroles₂, hroles₁]; simp) hasked₃.fresh hasked₃.zero
    (by simp [he, Entry.target])
  set s₄ := s₃.setEntry P ⟨0#20, 0⟩ e with hs₄
  have htarget₄ : s₄.target P ⟨0#20, 0⟩ = some 1#20 := by
    rw [hs₄, target_setEntry, if_pos rfl, he]
    simp [Entry.target]
  have hfree₄ : ∀ r, s₄.frameOf P r ≠ some 2#20 := by
    intro r
    rw [hroles₄, hroles₃, hroles₂, hroles₁]
    split
    · simp
    · split <;> simp
  have hempty : ∀ top second, s₄.pageBytes P pid top second = fun _ ↦ 0 := by
    intro top second
    rw [hkeeps₄.bytes, hasked₃.bytes, hbytes₂]
    simp [pageBytes, hroles₁]
  obtain ⟨s₅, hadd₅, hout₅, hroles₅⟩ :=
    hkeeps₄.inv.addTestingPage_eq (i := 1) (f := 2#20) hpd₃ htarget₄ rfl hfree₄
  have hkeeps₅ := hkeeps₄.inv.addTestingPage hpd₃ (by simp [htarget₄]) (hempty 0 1) hadd₅
  have hpd₅ : s₅.pageDirectories pid = some 0#20 := by
    rw [hkeeps₅.directories]
    exact hpd₃
  have htarget₅ : s₅.target P ⟨0#20, 0⟩ = some 1#20 := by
    rw [← frameOf_table hpd₅, hroles₅, if_neg (by simp), hroles₄, if_pos rfl]
  have hfree₅ : ∀ r, s₅.frameOf P r ≠ some 3#20 := by
    intro r
    rw [hroles₅, hroles₄, hroles₃, hroles₂, hroles₁]
    split
    · simp
    · split
      · simp
      · split <;> simp
  obtain ⟨s₆, hadd₆, -, hroles₆⟩ := hkeeps₅.inv.addTestingPage_eq (i := 2) (f := 3#20)
    hpd₅ htarget₅ (by rw [hout₅]; rfl) hfree₅
  have hkeeps₆ := hkeeps₅.inv.addTestingPage hpd₅ (by simp [htarget₅])
    (by rw [hkeeps₅.bytes, hempty]) hadd₆
  have hkeeps : Keeps P s₂ s₆ := ((hasked₃.toKeeps.trans hkeeps₄).trans hkeeps₅).trans hkeeps₆
  refine ⟨s₆, ?_, ?_, ?_, ?_, ?_, hkeeps.currPid, hkeeps.undefined⟩
  · simp only [mmuAddProcess, assert, hpid, if_true, Option.bind_eq_bind, Option.bind_some, hask₁,
      ← hs₂, hask₃, ← he, ← hs₄, hadd₅, hadd₆]
  · rw [hroles₆, if_neg (by simp), hroles₅, if_neg (by simp), hroles₄, if_pos rfl]
    simp
  · rw [hroles₆, if_neg (by simp), hroles₅, if_pos rfl]
    simp
  · rw [hkeeps₆.directories, hpd₅]
    simp
  · rw [hkeeps.segmentations]
    exact Function.update_self ..

theorem getTableEntry_outOfBounds (K : Kernel P) (hadded : s.pageDirectories s.currPid ≠ none)
    (htop : ¬ topLevel P va < NUM_ENTRIES) :
    s.getTableEntry K false va = some (.outOfBounds s.mmuTlbMiss) := by
  obtain ⟨pd, hpd⟩ := Option.ne_none_iff_exists'.mp hadded
  have hpd' : s.mmuTlbMiss.pageDirectories s.mmuTlbMiss.currPid = some pd := hpd
  simp [State.getTableEntry, State.walk, hpd', htop]

/-- A resident page is found without the kernel. -/
theorem exists_getTableEntry (K : Kernel P) (htop : topLevel P va < NUM_ENTRIES)
    (htable : s.frameOf P (.table s.currPid ⟨topLevel P va, htop⟩) ≠ none)
    (hpage : s.frameOf P (.page s.currPid ⟨topLevel P va, htop⟩ (secondLevel va)) ≠ none) :
    ∃ s' l, s.getTableEntry K false va = some (.pte s' l) ∧ s'.tlb (pageAddress va) = some l ∧
      s'.segmentations = s.segmentations ∧ s'.currPid = s.currPid ∧ s'.undefined = s.undefined := by
  obtain ⟨pt, ht⟩ := Option.ne_none_iff_exists'.mp htable
  obtain ⟨pd, hpd⟩ : ∃ pd, s.pageDirectories s.currPid = some pd := by
    cases hpd : s.pageDirectories s.currPid with
    | none => simp [frameOf, hpd] at htable
    | some pd => exact ⟨pd, rfl⟩
  have hpde := target_eq_some_iff.mp ((frameOf_table hpd).symm.trans ht)
  rw [frameOf_page ht] at hpage
  obtain ⟨f, hf⟩ := Option.ne_none_iff_exists'.mp hpage
  have hpte := target_eq_some_iff.mp hf
  have hwalk : s.mmuTlbMiss.walk K va = some (.pte s.mmuTlbMiss ⟨pt, secondLevel va⟩) := by
    have hpde' : s.mmuTlbMiss.entry P ⟨pd, ⟨topLevel P va, htop⟩⟩ =
        s.entry P ⟨pd, ⟨topLevel P va, htop⟩⟩ := rfl
    have hpd' : s.mmuTlbMiss.pageDirectories s.mmuTlbMiss.currPid = some pd := hpd
    simp [State.walk, hpd', htop, hpde', hpde]
  have hpte' : (s.mmuTlbMiss.entry P ⟨pt, secondLevel va⟩).present = true := hpte.1
  let l : Loc := ⟨pt, secondLevel va⟩
  let s' := s.mmuTlbMiss.setEntry P l { s.mmuTlbMiss.entry P l with accessed := true }
  have hget : s.getTableEntry K false va = some (.pte (s'.tlbAddPte va l) l) := by
    simp [State.getTableEntry, hwalk, State.access, hpte', s', l]
  exact ⟨_, l, hget, Function.update_self .., rfl, rfl, rfl⟩

/-- The TLB finds a resident page without a walk. -/
theorem Inv.exists_getTableEntry_hit (h : s.Inv P) (K : Kernel P)
    (hl : s.tlb (pageAddress va) = some l) (htop : topLevel P va < NUM_ENTRIES)
    (hpage : s.frameOf P (.page s.currPid ⟨topLevel P va, htop⟩ (secondLevel va)) ≠ none) :
    ∃ s', s.getTableEntry K true va = some (.pte s' l) := by
  obtain ⟨_, htable, hindex⟩ := h.tlb va l hl
  rw [frameOf_page htable, ← hindex] at hpage
  obtain ⟨f, hf⟩ := Option.ne_none_iff_exists'.mp hpage
  have hpresent : (s.entry P l).present = true := (target_eq_some_iff.mp hf).1
  simp [State.getTableEntry, hl, State.access, hpresent]

/-- A read that passes all checks. -/
theorem mmuRead_eq {K : Kernel P} {hit : Bool} {n : ℕ} {segs : Segmentations} {seg : Segment}
    {r : Lookup} (hmax : pid < P.MAX_PROCESS_ID) (hn : n + va.toNat % PAGE_SIZE ≤ PAGE_SIZE)
    (hpid : s.currPid = pid) (hsegs : s.segmentations pid = some segs)
    (hin : P.addressInSegmentations segs va = true) (hva : va ≠ 0)
    (hfind : P.findSegment segs va = some seg) (hperm : seg.permissions ≠ 0 ∧ P.READ ≠ 0)
    (hget : s.getTableEntry K hit va = some r) :
    s.mmuReadFromVirtualAddress K hit va pid n = some (match r with
      | .pte s' l => (s', .bytes (s'.readBytes P l va n))
      | .outOfBounds s' => ({ s' with undefined := true }, .undefined)) := by
  have hswitch : s.switchTo pid = s := by simp [State.switchTo, hpid]
  have hcheck : ¬ (P.addressInSegmentations segs va = false ∨ va = 0) := by
    rw [hin]
    exact fun h ↦ hva (h.resolve_left (by decide))
  simp only [mmuReadFromVirtualAddress, assert, hmax, hn, if_true, hswitch, hsegs,
    Option.bind_eq_bind, Option.bind_some, if_neg hcheck, hfind, hperm, not_true, if_false, hget,
    ne_eq, not_false_iff, and_self]
  cases r <;> rfl

/-- A write that passes all checks. -/
theorem mmuWrite_eq {K : Kernel P} {hit : Bool} {buffer : List UInt8} {segs : Segmentations}
    {seg : Segment} (hmax : pid < P.MAX_PROCESS_ID)
    (hn : buffer.length + va.toNat % PAGE_SIZE ≤ PAGE_SIZE) (hpid : s.currPid = pid)
    (hsegs : s.segmentations pid = some segs) (hin : P.addressInSegmentations segs va = true)
    (hva : va ≠ 0) (hfind : P.findSegment segs va = some seg)
    (hperm : seg.permissions &&& P.WRITE ≠ 0)
    (hget : s.getTableEntry K hit va = some (.pte s' l)) :
    s.mmuWriteToVirtualAddress K hit va pid buffer =
      some (s'.writeBytes P l va buffer, .done) := by
  have hswitch : s.switchTo pid = s := by simp [State.switchTo, hpid]
  have hcheck : ¬ (P.addressInSegmentations segs va = false ∨ va = 0) := by
    rw [hin]
    exact fun h ↦ hva (h.resolve_left (by decide))
  simp only [mmuWriteToVirtualAddress, assert, hmax, hn, if_true, hswitch, hsegs,
    Option.bind_eq_bind, Option.bind_some, if_neg hcheck, hfind, if_neg hperm, hget]
  rfl

end State

end SystemProgramming.IdealIndirection
