import SystemProgramming.IdealIndirection.Refinement

/-!
# The TLB is only a cache

An entry of the TLB is the table entry that a walk of the page directory finds.  A run is
therefore matched, call by call, by one in which the TLB never answers; the two differ in
the number of misses only.
-/

namespace SystemProgramming.IdealIndirection

namespace State

variable {P : Platform} {s s' : State} {K : Kernel P} {va : Addr32} {l : Loc} {n c pid : ℕ}

/-! ## The walk finds what the TLB holds -/

theorem Inv.walk_of_tlb (h : s.Inv P) (hl : s.tlb (pageAddress va) = some l) (K : Kernel P) :
    s.walk K va = some (.pte s l) := by
  obtain ⟨htop, htable, hindex⟩ := h.tlb va l hl
  obtain ⟨pd, hpd⟩ : ∃ pd, s.pageDirectories s.currPid = some pd := by
    cases hpd : s.pageDirectories s.currPid with
    | none => simp [frameOf, hpd] at htable
    | some pd => exact ⟨pd, rfl⟩
  have hpde := target_eq_some_iff.mp ((frameOf_table hpd).symm.trans htable)
  have hloc : (⟨l.frame, secondLevel va⟩ : Loc) = l := Loc.ext rfl hindex.symm
  simp only [State.walk, hpd, Option.bind_eq_bind, Option.bind_some, htop, dite_true, hpde.1,
    if_true, hpde.2, hloc, Option.pure_def]

/-! ## The number of misses does not matter -/

/-- The state with another number of misses. -/
def withMisses (s : State) (n : ℕ) : State := { s with numTlbMisses := n }

def Lookup.withMisses : Lookup → ℕ → Lookup
  | .pte s l, n => .pte (s.withMisses n) l
  | .outOfBounds s, n => .outOfBounds (s.withMisses n)

def Lookup.state : Lookup → State
  | .pte s _ => s
  | .outOfBounds s => s

theorem withMisses_self (h : s.numTlbMisses = c) : s.withMisses c = s := by
  subst h
  rfl

theorem frameOf_withMisses (r : Role) : (s.withMisses n).frameOf P r = s.frameOf P r :=
  frameOf_congr rfl rfl r

theorem evict_withMisses (v : Option Loc) :
    (s.withMisses n).evict P v = (s.evict P v).withMisses n := by
  cases v <;> rfl

/-- The kernel that sees `c` misses whatever happens. -/
def Kernel.seeing (K : Kernel P) (c : ℕ) : Kernel P where
  choose s e := K.choose (s.withMisses c) e
  evicts_page s e l f h := by
    obtain ⟨htarget, pid, top, ht⟩ := K.evicts_page (s.withMisses c) e l f h
    exact ⟨htarget, pid, top, (frameOf_withMisses _).symm.trans ht⟩
  frame_free s e v f h r := by
    have hfree := K.frame_free (s.withMisses c) e v f h r
    rwa [evict_withMisses, frameOf_withMisses] at hfree

theorem askKernelForFrame_withMisses (hc : s.numTlbMisses = c) {e : Option Loc} {f : Frame}
    (h : s.askKernelForFrame K e = some (s', f)) :
    (s.withMisses n).askKernelForFrame (K.seeing c) e = some (s'.withMisses n, f) ∧
      s'.numTlbMisses = c := by
  obtain ⟨⟨v, f'⟩, hchoose, heq⟩ := Option.map_eq_some_iff.mp h
  obtain ⟨rfl, rfl⟩ := Prod.mk.inj heq
  have hseen : (K.seeing c).choose (s.withMisses n) e = some (v, f') := by
    change K.choose ((s.withMisses n).withMisses c) e = _
    rw [← hchoose, ← withMisses_self hc]
    rfl
  constructor
  · simp only [askKernelForFrame, hseen, Option.map_some, evict_withMisses]
    rfl
  · rw [← hc]
    cases v <;> rfl

theorem readPageFromDisk_withMisses :
    (s.withMisses n).readPageFromDisk P l = (s.readPageFromDisk P l).withMisses n := by
  unfold readPageFromDisk
  have hswap : (s.withMisses n).swap = s.swap := rfl
  rw [hswap]
  cases s.swap l <;> rfl

theorem numTlbMisses_readPageFromDisk : (s.readPageFromDisk P l).numTlbMisses = s.numTlbMisses := by
  unfold readPageFromDisk
  split <;> rfl

/-- The assignment of a frame to an entry and its setting to present. -/
theorem setEntry_withMisses (e : Entry) :
    (s.withMisses n).setEntry P l e = (s.setEntry P l e).withMisses n := rfl

theorem loadTable_withMisses (hc : s.numTlbMisses = c) (h : s.loadTable K l = some s') :
    (s.withMisses n).loadTable (K.seeing c) l = some (s'.withMisses n) ∧ s'.numTlbMisses = c := by
  simp only [State.loadTable, Option.bind_eq_bind, Option.bind_eq_some_iff, Option.pure_def,
    Option.some.injEq] at h
  obtain ⟨⟨s₁, f⟩, hask, rfl⟩ := h
  obtain ⟨hask', hc'⟩ := askKernelForFrame_withMisses (n := n) (s := s.mmuRaisePageFault) hc hask
  have hraise : (s.withMisses n).mmuRaisePageFault = s.mmuRaisePageFault.withMisses n := rfl
  constructor
  · simp only [State.loadTable, hraise, hask', Option.bind_eq_bind, Option.bind_some,
      setEntry_withMisses, readPageFromDisk_withMisses, Option.pure_def]
    rfl
  · rw [← hc']
    exact numTlbMisses_readPageFromDisk

theorem loadPage_withMisses (hc : s.numTlbMisses = c) (h : s.loadPage K l = some s') :
    (s.withMisses n).loadPage (K.seeing c) l = some (s'.withMisses n) ∧ s'.numTlbMisses = c := by
  simp only [State.loadPage, Option.bind_eq_bind, Option.bind_eq_some_iff, Option.pure_def,
    Option.some.injEq] at h
  obtain ⟨⟨s₁, f⟩, hask, rfl⟩ := h
  obtain ⟨hask', hc'⟩ := askKernelForFrame_withMisses (n := n) (s := s.mmuRaisePageFault) hc hask
  have hraise : (s.withMisses n).mmuRaisePageFault = s.mmuRaisePageFault.withMisses n := rfl
  constructor
  · simp only [State.loadPage, hraise, hask', Option.bind_eq_bind, Option.bind_some,
      setEntry_withMisses, readPageFromDisk_withMisses, Option.pure_def]
    rfl
  · rw [← hc']
    exact numTlbMisses_readPageFromDisk

theorem walk_withMisses (hc : s.numTlbMisses = c) {r : Lookup} (h : s.walk K va = some r) :
    (s.withMisses n).walk (K.seeing c) va = some (r.withMisses n) ∧ r.state.numTlbMisses = c := by
  obtain ⟨pd, hpd, h⟩ := Option.bind_eq_some_iff.mp h
  have hpd' : (s.withMisses n).pageDirectories (s.withMisses n).currPid = some pd := hpd
  simp only [State.walk, hpd', Option.bind_eq_bind, Option.bind_some]
  split at h
  · next htop =>
    obtain ⟨s₁, hs₁, h⟩ := Option.bind_eq_some_iff.mp h
    obtain rfl := Option.some.inj h
    rw [dif_pos htop]
    have hentry : (s.withMisses n).entry P ⟨pd, ⟨topLevel P va, htop⟩⟩ =
        s.entry P ⟨pd, ⟨topLevel P va, htop⟩⟩ := rfl
    rw [hentry]
    split at hs₁
    · next hp =>
      obtain rfl := Option.some.inj hs₁
      rw [if_pos hp]
      exact ⟨rfl, hc⟩
    · next hp =>
      obtain ⟨hload, hc'⟩ := loadTable_withMisses (n := n) hc hs₁
      rw [if_neg hp, hload]
      exact ⟨rfl, hc'⟩
  · next htop =>
    obtain rfl := Option.some.inj h
    rw [dif_neg htop]
    exact ⟨rfl, hc⟩

theorem access_withMisses (hc : s.numTlbMisses = c) {r : Lookup} (h : s.access K va l = some r) :
    (s.withMisses n).access (K.seeing c) va l = some (r.withMisses n) := by
  obtain ⟨s₁, hs₁, h⟩ := Option.bind_eq_some_iff.mp h
  obtain rfl := Option.some.inj h
  have hentry : (s.withMisses n).entry P l = s.entry P l := rfl
  simp only [State.access, hentry, Option.bind_eq_bind]
  split at hs₁
  · next hp =>
    obtain rfl := Option.some.inj hs₁
    rw [if_pos hp]
    rfl
  · next hp =>
    rw [if_neg hp, (loadPage_withMisses (n := n) hc hs₁).1]
    rfl

/-- A lookup that the TLB answers comes out of the walk as well. -/
theorem Inv.getTableEntry_withMisses (h : s.Inv P) {hit : Bool} {r : Lookup}
    (hget : s.getTableEntry K hit va = some r) :
    ∃ c, (s.withMisses n).getTableEntry (K.seeing c) false va = some (r.withMisses (n + 1)) := by
  have hmiss : (s.withMisses n).mmuTlbMiss = s.withMisses (n + 1) := rfl
  unfold State.getTableEntry at hget
  simp only [State.getTableEntry, Bool.false_eq_true, if_false, hmiss]
  split at hget
  · next l hl =>
    have htlb : s.tlb (pageAddress va) = some l := by
      cases hit with
      | true => exact hl
      | false => cases hl
    have hinv : (s.withMisses (n + 1)).Inv P := h.congr rfl rfl rfl rfl fun _ _ hl ↦ ⟨rfl, hl⟩
    refine ⟨s.numTlbMisses, ?_⟩
    rw [hinv.walk_of_tlb htlb]
    exact access_withMisses rfl hget
  · obtain ⟨r', hwalk, hr⟩ := Option.bind_eq_some_iff.mp hget
    refine ⟨s.numTlbMisses + 1, ?_⟩
    have hcount : s.mmuTlbMiss.numTlbMisses = s.numTlbMisses + 1 := rfl
    obtain ⟨hwalk', hc⟩ := walk_withMisses (n := n + 1) hcount hwalk
    have hsame : s.mmuTlbMiss.withMisses (n + 1) = s.withMisses (n + 1) := rfl
    rw [← hsame, hwalk']
    cases r' with
    | pte s₁ l => exact access_withMisses hc hr
    | outOfBounds s₁ =>
        obtain rfl := Option.some.inj hr
        rfl

/-! ## The calls -/

theorem switchTo_withMisses (pid : ℕ) :
    (s.withMisses n).switchTo pid = (s.switchTo pid).withMisses n := by
  unfold State.switchTo
  have hpid : (s.withMisses n).currPid = s.currPid := rfl
  rw [hpid]
  split <;> rfl

theorem Inv.read_withMisses (h : s.Inv P) {hit : Bool} {k : ℕ} {reply : Reply} (n : ℕ)
    (hread : s.mmuReadFromVirtualAddress K hit va pid k = some (s', reply)) :
    ∃ c n', (s.withMisses n).mmuReadFromVirtualAddress (K.seeing c) false va pid k =
      some (s'.withMisses n', reply) := by
  simp only [mmuReadFromVirtualAddress, Option.bind_eq_bind, Option.bind_eq_some_iff,
    assert_eq_some] at hread
  obtain ⟨-, hpid, -, hk, segs, hsegs, hread⟩ := hread
  have hsegs' : ((s.switchTo pid).withMisses n).segmentations pid = some segs := hsegs
  simp only [mmuReadFromVirtualAddress, assert, hpid, hk, if_true, Option.bind_eq_bind,
    Option.bind_some, switchTo_withMisses, hsegs']
  split at hread
  · next hout =>
    obtain ⟨rfl, rfl⟩ := Prod.mk.inj (Option.some.inj hread)
    exact ⟨0, n, by rw [if_pos hout]; rfl⟩
  · next hin =>
    obtain ⟨seg, hseg, hread⟩ := Option.bind_eq_some_iff.mp hread
    simp only [if_neg hin, hseg, Option.bind_some]
    split at hread
    · next hperm =>
      obtain ⟨rfl, rfl⟩ := Prod.mk.inj (Option.some.inj hread)
      exact ⟨0, n, by rw [if_pos hperm]; rfl⟩
    · next hperm =>
      obtain ⟨r, hget, hread⟩ := Option.bind_eq_some_iff.mp hread
      obtain ⟨c, hget'⟩ := (h.switchTo pid).getTableEntry_withMisses (n := n) hget
      refine ⟨c, n + 1, ?_⟩
      rw [if_neg hperm, hget']
      cases r <;> obtain ⟨rfl, rfl⟩ := Prod.mk.inj (Option.some.inj hread) <;> rfl

theorem Inv.write_withMisses (h : s.Inv P) {hit : Bool} {buffer : List UInt8} {reply : Reply}
    (n : ℕ) (hwrite : s.mmuWriteToVirtualAddress K hit va pid buffer = some (s', reply)) :
    ∃ c n', (s.withMisses n).mmuWriteToVirtualAddress (K.seeing c) false va pid buffer =
      some (s'.withMisses n', reply) := by
  simp only [mmuWriteToVirtualAddress, Option.bind_eq_bind, Option.bind_eq_some_iff,
    assert_eq_some] at hwrite
  obtain ⟨-, hpid, -, hk, segs, hsegs, hwrite⟩ := hwrite
  have hsegs' : ((s.switchTo pid).withMisses n).segmentations pid = some segs := hsegs
  simp only [mmuWriteToVirtualAddress, assert, hpid, hk, if_true, Option.bind_eq_bind,
    Option.bind_some, switchTo_withMisses, hsegs']
  split at hwrite
  · next hout =>
    obtain ⟨rfl, rfl⟩ := Prod.mk.inj (Option.some.inj hwrite)
    exact ⟨0, n, by rw [if_pos hout]; rfl⟩
  · next hin =>
    simp only [if_neg hin]
    cases hseg : P.findSegment segs va with
    | none =>
        rw [hseg] at hwrite
        obtain ⟨rfl, rfl⟩ := Prod.mk.inj (Option.some.inj hwrite)
        exact ⟨0, n, rfl⟩
    | some seg =>
        simp only [hseg] at hwrite ⊢
        split at hwrite
        · next hperm =>
          obtain ⟨rfl, rfl⟩ := Prod.mk.inj (Option.some.inj hwrite)
          exact ⟨0, n, by rw [if_pos hperm]; rfl⟩
        · next hperm =>
          obtain ⟨r, hget, hwrite⟩ := Option.bind_eq_some_iff.mp hwrite
          obtain ⟨c, hget'⟩ := (h.switchTo pid).getTableEntry_withMisses (n := n) hget
          refine ⟨c, n + 1, ?_⟩
          rw [if_neg hperm, hget']
          cases r <;> obtain ⟨rfl, rfl⟩ := Prod.mk.inj (Option.some.inj hwrite) <;> rfl

theorem addTestingPage_withMisses (hc : s.numTlbMisses = c) {i : Fin NUM_ENTRIES}
    (h : s.addTestingPage K l i = some s') :
    (s.withMisses n).addTestingPage (K.seeing c) l i = some (s'.withMisses n) ∧
      s'.numTlbMisses = c := by
  obtain ⟨⟨s₁, f⟩, hask, h⟩ := Option.bind_eq_some_iff.mp h
  obtain rfl := Option.some.inj h
  obtain ⟨hask', hc'⟩ := askKernelForFrame_withMisses (n := n) hc hask
  refine ⟨?_, hc'⟩
  have hentry : (s.withMisses n).entry P l = s.entry P l := rfl
  simp only [State.addTestingPage, hentry, hask', Option.bind_eq_bind, Option.bind_some]
  rfl

theorem addProcess_withMisses (n : ℕ) (h : s.mmuAddProcess K pid = some s') :
    (s.withMisses n).mmuAddProcess (K.seeing s.numTlbMisses) pid = some (s'.withMisses n) := by
  simp only [mmuAddProcess, Option.bind_eq_bind, Option.bind_eq_some_iff, assert_eq_some] at h
  obtain ⟨-, hpid, ⟨s₁, pd⟩, hask₁, ⟨s₃, pt⟩, hask₃, s₅, hadd₅, hadd₆⟩ := h
  obtain ⟨hask₁', hc₁⟩ := askKernelForFrame_withMisses (n := n) rfl hask₁
  set s₂ : State := { s₁ with
    pageDirectories := Function.update s₁.pageDirectories pid (some pd)
    segmentations := Function.update s₁.segmentations pid (some (newSegmentations P)) } with hs₂
  obtain ⟨hask₃', hc₃⟩ := askKernelForFrame_withMisses (n := n) (s := s₂) hc₁ hask₃
  obtain ⟨hadd₅', hc₅⟩ := addTestingPage_withMisses (n := n) (s := s₃.setEntry P ⟨pd, 0⟩ _) hc₃ hadd₅
  obtain ⟨hadd₆', -⟩ := addTestingPage_withMisses (n := n) hc₅ hadd₆
  have hassert : assert (pid < P.MAX_PROCESS_ID) = some () := if_pos hpid
  refine Option.bind_eq_some_iff.mpr ⟨(), hassert, ?_⟩
  refine Option.bind_eq_some_iff.mpr ⟨_, hask₁', ?_⟩
  refine Option.bind_eq_some_iff.mpr ⟨_, hask₃', ?_⟩
  exact Option.bind_eq_some_iff.mpr ⟨_, hadd₅', hadd₆'⟩

theorem foldl_withMisses {ι : Type*} {f : State → ι → State}
    (hf : ∀ s i n, f (s.withMisses n) i = (f s i).withMisses n) (is : List ι) (s : State) (n : ℕ) :
    is.foldl f (s.withMisses n) = (is.foldl f s).withMisses n := by
  induction is generalizing s with
  | nil => rfl
  | cons i is ih => rw [List.foldl_cons, List.foldl_cons, hf, ih]

theorem returnFrameToKernel_withMisses (f : Frame) :
    (s.withMisses n).returnFrameToKernel f = (s.returnFrameToKernel f).withMisses n := rfl

theorem removeTable_withMisses (pt : Frame) :
    (s.withMisses n).removeTable P pt = (s.removeTable P pt).withMisses n := by
  unfold State.removeTable
  apply foldl_withMisses
  intro s vpn2 n
  have hentry : (s.withMisses n).entry P ⟨pt, vpn2⟩ = s.entry P ⟨pt, vpn2⟩ := rfl
  simp only [hentry]
  split <;> rfl

theorem removeDirectory_withMisses (pd : Frame) :
    (s.withMisses n).removeDirectory P pd = (s.removeDirectory P pd).withMisses n := by
  unfold State.removeDirectory
  apply foldl_withMisses
  intro s vpn1 n
  have hentry : (s.withMisses n).entry P ⟨pd, vpn1⟩ = s.entry P ⟨pd, vpn1⟩ := rfl
  simp only [hentry, removeTable_withMisses, returnFrameToKernel_withMisses]
  split <;> rfl

theorem removeProcess_withMisses (n : ℕ) (h : s.mmuRemoveProcess P pid = some s') :
    (s.withMisses n).mmuRemoveProcess P pid = some (s'.withMisses n) := by
  have hrelease : (s.withMisses n).releaseFrames P pid = (s.releaseFrames P pid).withMisses n := by
    have hpd : (s.withMisses n).pageDirectories = s.pageDirectories := rfl
    unfold releaseFrames
    rw [hpd]
    cases s.pageDirectories pid with
    | none => rfl
    | some pd =>
        simp only [removeDirectory_withMisses, returnFrameToKernel_withMisses]
  simp only [mmuRemoveProcess, Option.bind_eq_bind, Option.bind_eq_some_iff, assert_eq_some] at h
  obtain ⟨-, hpid, h⟩ := h
  obtain rfl := Option.some.inj h
  have hassert : assert (pid < P.MAX_PROCESS_ID) = some () := if_pos hpid
  refine Option.bind_eq_some_iff.mpr ⟨(), hassert, ?_⟩
  rw [hrelease]
  generalize s.releaseFrames P pid = s₁
  have hcurr : (s₁.withMisses n).currPid = s₁.currPid := rfl
  simp only [hcurr]
  split <;> rfl

/-- The same call with the same reply, for which the kernel makes the choices it made. -/
structure Missing (e e' : Event P) : Prop where
  hit : e'.hit = false
  call : e'.call = e.call
  reply : e'.reply = e.reply
  kernel : ∃ c, e'.kernel = e.kernel.seeing c

theorem Inv.exec_withMisses (h : s.Inv P) {e : Event P} {reply : Reply} (n : ℕ)
    (hexec : s.exec e = some (s', reply)) : ∃ e' n', Missing e e' ∧
      (s.withMisses n).exec e' = some (s'.withMisses n', reply) := by
  obtain ⟨kernel, hit, call, r⟩ := e
  cases call with
  | addProcess pid =>
      obtain ⟨s₁, hadd, heq⟩ := Option.map_eq_some_iff.mp hexec
      obtain ⟨rfl, rfl⟩ := Prod.mk.inj heq
      refine ⟨⟨kernel.seeing s.numTlbMisses, false, .addProcess pid, r⟩, n, ⟨rfl, rfl, rfl, _, rfl⟩, ?_⟩
      exact Option.map_eq_some_iff.mpr ⟨_, addProcess_withMisses n hadd, rfl⟩
  | removeProcess pid =>
      obtain ⟨s₁, hremove, heq⟩ := Option.map_eq_some_iff.mp hexec
      obtain ⟨rfl, rfl⟩ := Prod.mk.inj heq
      refine ⟨⟨kernel.seeing 0, false, .removeProcess pid, r⟩, n, ⟨rfl, rfl, rfl, _, rfl⟩, ?_⟩
      exact Option.map_eq_some_iff.mpr ⟨_, removeProcess_withMisses n hremove, rfl⟩
  | read pid va k =>
      obtain ⟨c, n', hread⟩ := h.read_withMisses n hexec
      exact ⟨⟨kernel.seeing c, false, .read pid va k, r⟩, n', ⟨rfl, rfl, rfl, _, rfl⟩, hread⟩
  | write pid va buffer =>
      obtain ⟨c, n', hwrite⟩ := h.write_withMisses n hexec
      exact ⟨⟨kernel.seeing c, false, .write pid va buffer, r⟩, n', ⟨rfl, rfl, rfl, _, rfl⟩, hwrite⟩

theorem Inv.step_withMisses (h : s.Inv P) {e : Event P} (n : ℕ) (hstep : s.step e = some s') :
    ∃ e' n', Missing e e' ∧ (s.withMisses n).step e' = some (s'.withMisses n') := by
  unfold State.step at hstep
  split at hstep
  · cases hstep
  · next hdefined =>
    obtain ⟨⟨s₁, reply⟩, hexec, hreply⟩ := Option.bind_eq_some_iff.mp hstep
    obtain ⟨rfl, rfl⟩ : reply = e.reply ∧ s₁ = s' := by simpa using hreply
    obtain ⟨e', n', hmissing, hexec'⟩ := h.exec_withMisses n hexec
    refine ⟨e', n', hmissing, ?_⟩
    have hdefined' : ¬ (s.withMisses n).undefined = true := hdefined
    simp [State.step, hdefined', hexec', hmissing.reply]

/-- The condition of a step is about the call. -/
theorem Missing.inDirectoryStep {e e' : Event P} (h : Missing e e')
    (hstep : InDirectoryStep s e s') (n : ℕ) {n' : ℕ}
    (hstep' : (s.withMisses n).step e' = some (s'.withMisses n')) :
    InDirectoryStep (s.withMisses n) e' (s'.withMisses n') := by
  obtain ⟨⟨hok, hin⟩, -⟩ := hstep
  refine ⟨⟨?_, ?_⟩, hstep'⟩
  · intro pid hcall
    exact hok pid (h.call ▸ hcall)
  · rw [InDirectory, h.call]
    exact hin

end State

/-- In every reachable state an entry of the TLB is what a walk of the current page
directory finds, and there is a run with the same calls and replies in which every lookup
misses.  Its state differs in the number of misses only. -/
theorem tlb_is_cache (P : Platform) (mem : Frame → Bytes) (events : List (State.Event P))
    (s : State) (hrun : Run State.InDirectoryStep (mmuCreate mem) events s) :
    (∀ va l, s.tlb (State.pageAddress va) = some l →
      ∀ K : State.Kernel P, s.walk K va = some (.pte s l)) ∧
    ∃ events' n, List.Forall₂ State.Missing events events' ∧
      Run State.InDirectoryStep (mmuCreate mem) events' (s.withMisses n) := by
  constructor
  · intro va l hl K
    exact (State.inv_of_run hrun).1.walk_of_tlb hl K
  · induction hrun with
    | nil => exact ⟨[], 0, .nil, .nil⟩
    | snoc hprev hlast ih =>
        obtain ⟨events', n, hmissing, hrun'⟩ := ih
        obtain ⟨e', n', hmiss, hstep'⟩ := (State.inv_of_run hprev).1.step_withMisses n hlast.2
        refine ⟨events' ++ [e'], n', ?_, hrun'.snoc (hmiss.inDirectoryStep hlast n hstep')⟩
        exact List.rel_append hmissing (.cons hmiss .nil)

/-- A write puts an entry into the TLB, and a read hits it. -/
theorem tlb_is_cache_new_process : ∃ (e₁ e₂ e₃ : State.Event thirtyTwoBit) (s₂ s₃ : State) (l : Loc)
    (events' : List (State.Event thirtyTwoBit)) (n : ℕ),
    [e₁, e₂, e₃].map State.Event.call =
        [.addProcess 0, .write 0 0x1000 [7], .read 0 0x1000 1] ∧ e₃.hit = true ∧
      Run State.InDirectoryStep (mmuCreate fun _ _ ↦ 0) [e₁, e₂] s₂ ∧
      s₂.tlb (State.pageAddress 0x1000) = some l ∧
      (∀ K : State.Kernel thirtyTwoBit, s₂.walk K 0x1000 = some (.pte s₂ l)) ∧
      Run State.InDirectoryStep (mmuCreate fun _ _ ↦ 0) [e₁, e₂, e₃] s₃ ∧
      List.Forall₂ State.Missing [e₁, e₂, e₃] events' ∧
      Run State.InDirectoryStep (mmuCreate fun _ _ ↦ 0) events' (s₃.withMisses n) := by
  obtain ⟨e₁, e₂, e₃, s₂, s₃, l, hrun₂, htlb, hrun, hcall₁, hcall₂, hcall₃, -, -, hhit⟩ :=
    State.exists_run_write_read
  obtain ⟨hwalk, -⟩ := tlb_is_cache thirtyTwoBit _ [e₁, e₂] s₂ hrun₂
  obtain ⟨-, events', n, hmissing, hrun'⟩ := tlb_is_cache thirtyTwoBit _ [e₁, e₂, e₃] s₃ hrun
  exact ⟨e₁, e₂, e₃, s₂, s₃, l, events', n, by simp [hcall₁, hcall₂, hcall₃], hhit, hrun₂, htlb,
    hwalk 0x1000 l htlb, hrun, hmissing, hrun'⟩

/-- The page of a stack address has no entry that a walk of the page directory finds. -/
theorem stack_page_has_no_entry : ∃ (e₁ e₂ : State.Event thirtyTwoBit) (s₁ s₂ : State),
    Run (Guarded (StepOf State.step) State.Permitted) (mmuCreate fun _ _ ↦ 0) [e₁] s₁ ∧
      s₁.Permitted e₂ ∧ s₁.step e₂ = some s₂ ∧ e₂.call = .read 0 0xBFFFE000 1 ∧
      e₂.reply ≠ .segmentationFault ∧ ∀ (K : State.Kernel thirtyTwoBit) (s' : State) (l : Loc),
        s₁.walk K 0xBFFFE000 ≠ some (.pte s' l) := by
  obtain ⟨e₁, e₂, s₁, s₂, hrun, hok, hstep, hcall, hreply, -⟩ := State.exists_run_stackRead
  refine ⟨e₁, e₂, s₁, s₂, hrun.mono fun s e t h ↦ ⟨h.1.1, h.2⟩, hok, hstep, hcall,
    by simp [hreply], fun K s' l hwalk ↦ ?_⟩
  have htop : ¬ State.topLevel thirtyTwoBit 0xBFFFE000 < NUM_ENTRIES := by decide
  obtain ⟨pd, -, hwalk⟩ := Option.bind_eq_some_iff.mp hwalk
  rw [dif_neg htop] at hwalk
  simp at hwalk

end SystemProgramming.IdealIndirection
