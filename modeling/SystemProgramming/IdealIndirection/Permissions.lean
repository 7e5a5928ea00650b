import SystemProgramming.IdealIndirection.Refinement

/-!
# Permissions

A read and a write test the permissions of the segment of their address before they look
for the page.  The test of a read accepts any permission.
-/

namespace SystemProgramming.IdealIndirection

variable {P : Platform}

def Segment.Contains (seg : Segment) (va : Addr32) : Prop :=
  seg.start.toNat ≤ va.toNat ∧ va.toNat < seg.stop.toNat

/-- What the missing header promises of the segment lookup. -/
structure Platform.FindsSegments (P : Platform) : Prop where
  read_ne : P.READ ≠ 0
  addressIn : ∀ segs va, P.addressInSegmentations segs va = true ↔ ∃ k, (segs k).Contains va
  found : ∀ segs va seg, P.findSegment segs va = some seg → ∃ k, segs k = seg ∧ seg.Contains va

/-- The address is not null and lies in a segment with the permission. -/
def Allowed (segs : Segmentations) (va : Addr32) (permission : ℕ) : Prop :=
  va ≠ 0 ∧ ∃ k, (segs k).Contains va ∧ (segs k).permissions &&& permission ≠ 0

/-- The segment of the address has the permission to read or none at all. -/
def ReadRestricted (P : Platform) (segs : Segmentations) (va : Addr32) : Prop :=
  va ≠ 0 → ∀ seg, P.findSegment segs va = some seg → seg.permissions ≠ 0 →
    Allowed segs va P.READ

namespace State

variable {s s' : State} {K : Kernel P} {hit : Bool} {va : Addr32} {pid : ℕ} {segs : Segmentations}

/-- One more segmentation fault, and otherwise the memory and the counters of before. -/
structure Refused (s s' : State) : Prop where
  mem : s'.mem = s.mem
  swap : s'.swap = s.swap
  handedOut : s'.handedOut = s.handedOut
  pageDirectories : s'.pageDirectories = s.pageDirectories
  numPageFaults : s'.numPageFaults = s.numPageFaults
  numSegmentationFaults : s'.numSegmentationFaults = s.numSegmentationFaults + 1

/-- An access is allowed, or it is refused without a trace. -/
def Enforced (s s' : State) (reply : Reply) (segs : Segmentations) (va : Addr32)
    (permission : ℕ) : Prop :=
  if reply = .segmentationFault then Refused s s' else Allowed segs va permission

theorem refused_switchTo (s : State) (pid : ℕ) :
    Refused s (s.switchTo pid).mmuRaiseSegmentationFault := by
  unfold switchTo
  split <;> exact ⟨rfl, rfl, rfl, rfl, rfl, rfl⟩

/-- A read is refused, or the segment of its address has some permission. -/
theorem mmuRead_cases {n : ℕ} {reply : Reply} (hsegs : s.segmentations pid = some segs)
    (h : s.mmuReadFromVirtualAddress K hit va pid n = some (s', reply)) :
    (reply = .segmentationFault ∧ Refused s s' ∧ ¬ (P.addressInSegmentations segs va = true ∧
      va ≠ 0 ∧ ∃ seg, P.findSegment segs va = some seg ∧ seg.permissions ≠ 0 ∧ P.READ ≠ 0)) ∨
    (reply ≠ .segmentationFault ∧ va ≠ 0 ∧ ∃ seg, P.findSegment segs va = some seg ∧
      seg.permissions ≠ 0) := by
  simp only [mmuReadFromVirtualAddress, Option.bind_eq_bind, Option.bind_eq_some_iff,
    assert_eq_some, switchTo_segmentations, hsegs, Option.some.injEq] at h
  obtain ⟨-, -, -, -, segs', rfl, h⟩ := h
  split at h
  · next hout =>
    obtain ⟨rfl, rfl⟩ : (s.switchTo pid).mmuRaiseSegmentationFault = s' ∧ _ = reply := by
      simpa using h
    refine Or.inl ⟨rfl, refused_switchTo s pid, fun hall ↦ ?_⟩
    rcases hout with hout | hva
    · rw [hout] at hall
      exact absurd hall.1 (by decide)
    · exact hall.2.1 hva
  · next hin =>
    push Not at hin
    obtain ⟨seg, hseg, h⟩ := Option.bind_eq_some_iff.mp h
    split at h
    · next hperm =>
      obtain ⟨rfl, rfl⟩ : (s.switchTo pid).mmuRaiseSegmentationFault = s' ∧ _ = reply := by
        simpa using h
      refine Or.inl ⟨rfl, refused_switchTo s pid, ?_⟩
      rintro ⟨-, -, seg', hseg', hperm'⟩
      obtain rfl : seg = seg' := Option.some.inj (hseg.symm.trans hseg')
      exact hperm hperm'
    · next hperm =>
      push Not at hperm
      refine Or.inr ⟨?_, hin.2, seg, hseg, hperm.1⟩
      obtain ⟨r, -, h⟩ := Option.bind_eq_some_iff.mp h
      rintro rfl
      cases r <;> simp at h

theorem mmuWrite_cases {buffer : List UInt8} {reply : Reply}
    (hsegs : s.segmentations pid = some segs)
    (h : s.mmuWriteToVirtualAddress K hit va pid buffer = some (s', reply)) :
    (reply = .segmentationFault ∧ Refused s s') ∨
    (reply ≠ .segmentationFault ∧ va ≠ 0 ∧ ∃ seg, P.findSegment segs va = some seg ∧
      seg.permissions &&& P.WRITE ≠ 0) := by
  simp only [mmuWriteToVirtualAddress, Option.bind_eq_bind, Option.bind_eq_some_iff,
    assert_eq_some, switchTo_segmentations, hsegs, Option.some.injEq] at h
  obtain ⟨-, -, -, -, segs', rfl, h⟩ := h
  have hfault : some ((s.switchTo pid).mmuRaiseSegmentationFault, Reply.segmentationFault) =
      some (s', reply) → reply = .segmentationFault ∧ Refused s s' := by
    intro heq
    obtain ⟨rfl, rfl⟩ : (s.switchTo pid).mmuRaiseSegmentationFault = s' ∧ _ = reply := by
      simpa using heq
    exact ⟨rfl, refused_switchTo s pid⟩
  split at h
  · exact Or.inl (hfault h)
  · next hin =>
    push Not at hin
    split at h
    · exact Or.inl (hfault h)
    · next seg hseg =>
      split at h
      · exact Or.inl (hfault h)
      · next hperm =>
        refine Or.inr ⟨?_, hin.2, seg, hseg, hperm⟩
        obtain ⟨r, -, h⟩ := Option.bind_eq_some_iff.mp h
        rintro rfl
        cases r <;> simp at h

/-- The accesses of any process in any state.  What a read enforces is that the segment
has a permission. -/
theorem permissions_enforced (hP : P.FindsSegments) (hsegs : s.segmentations pid = some segs) :
    (∀ n s' reply, s.mmuReadFromVirtualAddress K hit va pid n = some (s', reply) →
      (Enforced s s' reply segs va P.READ ↔ ReadRestricted P segs va)) ∧
    (∀ buffer s' reply, s.mmuWriteToVirtualAddress K hit va pid buffer = some (s', reply) →
      Enforced s s' reply segs va P.WRITE) := by
  constructor
  · intro n s' reply h
    rcases mmuRead_cases hsegs h with ⟨rfl, hrefused, hfails⟩ | ⟨hreply, hva, seg, hseg, hperm⟩
    · rw [Enforced, if_pos rfl]
      refine iff_of_true hrefused fun hva seg hseg hperm ↦ ?_
      obtain ⟨k, rfl, hin⟩ := hP.found segs va seg hseg
      have haddr := (hP.addressIn segs va).mpr ⟨k, hin⟩
      exact absurd ⟨haddr, hva, _, hseg, hperm, hP.read_ne⟩ hfails
    · rw [Enforced, if_neg hreply]
      exact ⟨fun hallowed _ _ _ _ ↦ hallowed, fun hrestricted ↦ hrestricted hva seg hseg hperm⟩
  · intro buffer s' reply h
    rcases mmuWrite_cases hsegs h with ⟨rfl, hrefused⟩ | ⟨hreply, hva, seg, hseg, hperm⟩
    · rw [Enforced, if_pos rfl]
      exact hrefused
    · rw [Enforced, if_neg hreply]
      obtain ⟨k, rfl, hin⟩ := hP.found segs va seg hseg
      exact ⟨hva, k, hin, hperm⟩

theorem thirtyTwoBit_findsSegments : thirtyTwoBit.FindsSegments where
  read_ne := by decide
  addressIn segs va := by
    change (findSegment segs va).isSome = true ↔ _
    rw [findSegment, List.find?_isSome]
    constructor
    · rintro ⟨seg, hmem, hin⟩
      obtain ⟨k, -, rfl⟩ := List.mem_map.mp hmem
      exact ⟨k, by simpa [Segment.Contains] using hin⟩
    · rintro ⟨k, hin⟩
      refine ⟨segs k, List.mem_map_of_mem ?_, by simpa [Segment.Contains] using hin⟩
      cases k <;> decide
  found segs va seg h := by
    obtain ⟨k, -, rfl⟩ := List.mem_map.mp (List.mem_of_find?_eq_some h)
    exact ⟨k, rfl, by simpa [Segment.Contains] using List.find?_some h⟩

/-- A new process reads its first page, and is refused a write to its code. -/
theorem permissions_enforced_new_process : ∃ (s s₁ s₂ : State) (buffer : List UInt8),
    s.mmuReadFromVirtualAddress (countingKernel thirtyTwoBit) false 0x1000 0 1 =
      some (s₁, .bytes buffer) ∧
    Enforced s s₁ (.bytes buffer) (newSegmentations thirtyTwoBit) 0x1000 thirtyTwoBit.READ ∧
    s.mmuWriteToVirtualAddress (countingKernel thirtyTwoBit) false 0x08048000 0 [7] =
      some (s₂, .segmentationFault) ∧
    Enforced s s₂ .segmentationFault (newSegmentations thirtyTwoBit) 0x08048000
      thirtyTwoBit.WRITE := by
  obtain ⟨e, s, -, -, htable, hpage, -, hsegs, hpid, -⟩ := exists_run_addProcess
  have htop : topLevel thirtyTwoBit 0x1000 < NUM_ENTRIES := by decide
  obtain ⟨s₁, l, hget, -⟩ := exists_getTableEntry (s := s) (countingKernel thirtyTwoBit) htop
    (by rw [hpid]; exact htable) (by rw [hpid]; exact hpage)
  have hmax : 0 < thirtyTwoBit.MAX_PROCESS_ID := by decide
  have hone : 1 + (0x1000 : Addr32).toNat % PAGE_SIZE ≤ PAGE_SIZE := by decide
  have hfind : thirtyTwoBit.findSegment (newSegmentations thirtyTwoBit) 0x1000 =
      some (newSegmentations thirtyTwoBit .testing) := rfl
  have hread := mmuRead_eq hmax hone hpid hsegs (by decide) (by decide) hfind (by decide) hget
  have hwrite : s.mmuWriteToVirtualAddress (countingKernel thirtyTwoBit) false 0x08048000 0 [7] =
      some (s.mmuRaiseSegmentationFault, .segmentationFault) := by
    have hswitch : s.switchTo 0 = s := by simp [switchTo, hpid]
    have hlength : [(7 : UInt8)].length + (0x08048000 : Addr32).toNat % PAGE_SIZE ≤ PAGE_SIZE := by
      decide
    have hpass : ¬ (thirtyTwoBit.addressInSegmentations (newSegmentations thirtyTwoBit)
        0x08048000 = false ∨ (0x08048000 : Addr32) = 0) := by decide
    have hcode : thirtyTwoBit.findSegment (newSegmentations thirtyTwoBit) 0x08048000 =
        some (newSegmentations thirtyTwoBit .text) := rfl
    have hperm : (newSegmentations thirtyTwoBit .text).permissions &&& thirtyTwoBit.WRITE = 0 := by
      decide
    simp only [mmuWriteToVirtualAddress, assert, hmax, hlength, if_true, hswitch, hsegs,
      Option.bind_eq_bind, Option.bind_some, if_neg hpass, hcode, hperm, Option.pure_def]
  have hreads := (permissions_enforced thirtyTwoBit_findsSegments hsegs).1 1 _ _ hread
  have hwrites := (permissions_enforced thirtyTwoBit_findsSegments hsegs).2 _ _ _ hwrite
  refine ⟨s, s₁, _, _, hread, hreads.mpr fun hva seg hseg _ ↦ ⟨hva, .testing, ?_, ?_⟩, hwrite,
    hwrites⟩
  · exact ⟨by decide, by decide⟩
  · decide

/-- A page that can be written and not read. -/
def writeOnly : Segmentations
  | .testing => ⟨0x1000, 0x3000, thirtyTwoBit.WRITE, false⟩
  | _ => ⟨0, 0, 0, false⟩

theorem write_only_segment_is_read : thirtyTwoBit.FindsSegments ∧ ∃ (s s' : State)
    (buffer : List UInt8), s.segmentations 0 = some writeOnly ∧
    s.mmuReadFromVirtualAddress (countingKernel thirtyTwoBit) false 0x1000 0 1 =
      some (s', .bytes buffer) ∧
    ¬ Enforced s s' (.bytes buffer) writeOnly 0x1000 thirtyTwoBit.READ := by
  refine ⟨thirtyTwoBit_findsSegments, ?_⟩
  obtain ⟨e, s, -, -, htable, hpage, -, -, hpid, -⟩ := exists_run_addProcess
  set s₁ : State := { s with segmentations := fun _ ↦ some writeOnly } with hs₁
  have htop : topLevel thirtyTwoBit 0x1000 < NUM_ENTRIES := by decide
  have hroles (r : Role) : s₁.frameOf thirtyTwoBit r = s.frameOf thirtyTwoBit r :=
    frameOf_congr rfl rfl r
  have hpid₁ : s₁.currPid = 0 := hpid
  obtain ⟨s₂, l, hget, -⟩ := exists_getTableEntry (s := s₁) (countingKernel thirtyTwoBit) htop
    (by rw [hroles, hpid₁]; exact htable) (by rw [hroles, hpid₁]; exact hpage)
  have hsegs : s₁.segmentations 0 = some writeOnly := rfl
  have hfind : thirtyTwoBit.findSegment writeOnly 0x1000 = some (writeOnly .testing) := rfl
  have hone : 1 + (0x1000 : Addr32).toNat % PAGE_SIZE ≤ PAGE_SIZE := by decide
  have hread := mmuRead_eq (by decide) hone hpid₁ hsegs (by decide) (by decide) hfind
    (by decide) hget
  refine ⟨s₁, s₂, _, rfl, hread, ?_⟩
  rw [Enforced, if_neg (by simp)]
  rintro ⟨-, k, -, hperm⟩
  revert hperm
  cases k <;> decide

end State

end SystemProgramming.IdealIndirection
