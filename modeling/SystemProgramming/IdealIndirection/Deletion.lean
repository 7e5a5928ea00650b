import SystemProgramming.IdealIndirection.Accounting

/-!
# The end of the memory management unit

`mmu_delete` removes every process that there can be.  What the kernel has handed out to the
processes, and what it has saved for them, is then given back.
-/

namespace SystemProgramming.IdealIndirection

namespace State

variable {P : Platform} {s s' : State} {K : Kernel P} {va : Addr32} {f : Frame} {pid : ℕ}
  {reply : Reply}

def removeProcesses (P : Platform) (s : State) (pids : List ℕ) : Option State :=
  pids.foldlM (fun s pid ↦ s.mmuRemoveProcess P pid) s

def removeSwapFiles (s : State) : State := { s with swap := fun _ ↦ none }

/-- The TLB is deleted with the unit. -/
def mmuDelete (P : Platform) (s : State) : Option State := do
  let s ← s.removeProcesses P (List.range P.MAX_PROCESS_ID)
  return s.tlbFlush.removeSwapFiles

/-! ## Processes that can be removed -/

/-- Only the processes below the bound have a directory. -/
def Bounded (P : Platform) (s : State) : Prop :=
  ∀ pid, s.pageDirectories pid ≠ none → pid < P.MAX_PROCESS_ID

theorem Bounded.congr (h : s.Bounded P) (hdir : s'.pageDirectories = s.pageDirectories) :
    s'.Bounded P := fun pid hpid ↦ h pid (hdir ▸ hpid)

theorem pageDirectories_ask {e : Option Loc} (h : s.askKernelForFrame K e = some (s', f)) :
    s'.pageDirectories = s.pageDirectories := by
  obtain ⟨⟨victim, f'⟩, -, heq⟩ := Option.map_eq_some_iff.mp h
  obtain ⟨rfl, -⟩ := Prod.mk.inj heq
  cases victim with
  | none => rfl
  | some l => rfl

theorem pageDirectories_addTestingPage {pde : Loc} {i : Fin NUM_ENTRIES}
    (h : s.addTestingPage K pde i = some s') : s'.pageDirectories = s.pageDirectories := by
  obtain ⟨⟨s₁, f⟩, hask, heq⟩ := Option.bind_eq_some_iff.mp h
  have hask' := pageDirectories_ask hask
  obtain rfl := Option.some.inj heq
  exact hask'

theorem pageDirectories_addProcess (h : s.mmuAddProcess K pid = some s') :
    pid < P.MAX_PROCESS_ID ∧ ∀ pid', pid' ≠ pid →
      s'.pageDirectories pid' = s.pageDirectories pid' := by
  simp only [mmuAddProcess, Option.bind_eq_bind, Option.bind_eq_some_iff, assert_eq_some] at h
  obtain ⟨-, hpid, ⟨s₁, pd⟩, hdirectory, ⟨s₂, pt⟩, htable, s₃, hfirst, hsecond⟩ := h
  refine ⟨hpid, fun pid' hne ↦ ?_⟩
  have htable' := pageDirectories_ask htable
  have hfirst' := pageDirectories_addTestingPage hfirst
  rw [pageDirectories_addTestingPage hsecond, hfirst']
  change s₂.pageDirectories pid' = _
  rw [htable', ← pageDirectories_ask hdirectory]
  exact Function.update_of_ne hne _ _

theorem pageDirectories_read {hit : Bool} {n : ℕ} (hinv : s.Inv P)
    (hok : s.Translates P (.read pid va n) → topLevel P va < NUM_ENTRIES)
    (h : s.mmuReadFromVirtualAddress K hit va pid n = some (s', reply)) :
    s'.pageDirectories = s.pageDirectories := by
  simp only [mmuReadFromVirtualAddress, Option.bind_eq_bind, Option.bind_eq_some_iff,
    assert_eq_some, switchTo_segmentations] at h
  obtain ⟨-, -, -, -, segs, hsegs, h⟩ := h
  have hswitch := switchTo_pageDirectories (s := s) pid
  split at h
  · obtain ⟨rfl, -⟩ := Prod.mk.inj (Option.some.inj h)
    exact hswitch
  · next hin =>
    push Not at hin
    obtain ⟨seg, hseg, h⟩ := Option.bind_eq_some_iff.mp h
    split at h
    · obtain ⟨rfl, -⟩ := Prod.mk.inj (Option.some.inj h)
      exact hswitch
    · next hperm =>
      push Not at hperm
      have htop := hok ⟨segs, seg, hsegs, by simpa using hin.1, hin.2, hseg, hperm⟩
      obtain ⟨r, hget, h⟩ := Option.bind_eq_some_iff.mp h
      obtain ⟨s₁, l, rfl, hserved⟩ := (hinv.switchTo pid).getTableEntry htop hget
      obtain ⟨rfl, -⟩ := Prod.mk.inj (Option.some.inj h)
      exact hserved.directories.trans hswitch

theorem pageDirectories_write {hit : Bool} {buffer : List UInt8} (hinv : s.Inv P)
    (hok : s.Translates P (.write pid va buffer) → topLevel P va < NUM_ENTRIES)
    (h : s.mmuWriteToVirtualAddress K hit va pid buffer = some (s', reply)) :
    s'.pageDirectories = s.pageDirectories := by
  simp only [mmuWriteToVirtualAddress, Option.bind_eq_bind, Option.bind_eq_some_iff,
    assert_eq_some, switchTo_segmentations] at h
  obtain ⟨-, -, -, -, segs, hsegs, h⟩ := h
  have hswitch := switchTo_pageDirectories (s := s) pid
  split at h
  · obtain ⟨rfl, -⟩ := Prod.mk.inj (Option.some.inj h)
    exact hswitch
  · next hin =>
    push Not at hin
    split at h
    · obtain ⟨rfl, -⟩ := Prod.mk.inj (Option.some.inj h)
      exact hswitch
    · next seg hseg =>
      split at h
      · obtain ⟨rfl, -⟩ := Prod.mk.inj (Option.some.inj h)
        exact hswitch
      · next hperm =>
        have htop := hok ⟨segs, seg, hsegs, by simpa using hin.1, hin.2, hseg, hperm⟩
        obtain ⟨r, hget, h⟩ := Option.bind_eq_some_iff.mp h
        obtain ⟨s₁, l, rfl, hserved⟩ := (hinv.switchTo pid).getTableEntry htop hget
        obtain ⟨rfl, -⟩ := Prod.mk.inj (Option.some.inj h)
        exact hserved.directories.trans hswitch

theorem pageDirectories_removeProcess (h : s.mmuRemoveProcess P pid = some s') :
    s'.pageDirectories = Function.update s.pageDirectories pid none := by
  simp only [mmuRemoveProcess, Option.bind_eq_bind, Option.bind_eq_some_iff, Option.pure_def,
    Option.some.injEq] at h
  obtain ⟨-, -, hs'⟩ := h
  have hpurged : Purged s (s.releaseFrames P pid) _ := purged_releaseFrames
  obtain ⟨swap, out, back, heq, -⟩ := hpurged
  rw [← hs', heq]
  split <;> rfl

theorem Bounded.step (h : s.Bounded P) (hinv : s.Inv P) {e : Event P} (hin : s.InDirectory e)
    (hstep : s.step e = some s') : s'.Bounded P := by
  obtain ⟨kernel, hit, call, reply⟩ := e
  unfold State.step at hstep
  split at hstep
  · cases hstep
  obtain ⟨⟨s₁, reply'⟩, hexec, hreply⟩ := Option.bind_eq_some_iff.mp hstep
  obtain ⟨rfl, rfl⟩ : reply' = reply ∧ s₁ = s' := by simpa using hreply
  cases call with
  | addProcess pid =>
      obtain ⟨s₂, hadd, heq⟩ := Option.map_eq_some_iff.mp hexec
      obtain ⟨rfl, -⟩ := Prod.mk.inj heq
      obtain ⟨hpid, hothers⟩ := pageDirectories_addProcess hadd
      intro pid' hpid'
      by_cases heq : pid' = pid
      · rwa [heq]
      · exact h pid' (hothers pid' heq ▸ hpid')
  | removeProcess pid =>
      obtain ⟨s₂, hremove, heq⟩ := Option.map_eq_some_iff.mp hexec
      obtain ⟨rfl, -⟩ := Prod.mk.inj heq
      intro pid' hpid'
      rw [pageDirectories_removeProcess hremove] at hpid'
      by_cases heq : pid' = pid
      · exact absurd (by rw [heq, Function.update_self]) hpid'
      · exact h pid' (by rwa [Function.update_of_ne heq] at hpid')
  | read pid va n => exact h.congr (pageDirectories_read hinv hin hexec)
  | write pid va buffer => exact h.congr (pageDirectories_write hinv hin hexec)

theorem bounded_of_run {mem : Frame → Bytes} {events : List (Event P)}
    (hrun : Run InDirectoryStep (mmuCreate mem) events s) : s.Bounded P := by
  induction hrun with
  | nil => exact fun _ hpid ↦ absurd rfl hpid
  | snoc hprev hlast ih =>
      obtain ⟨⟨-, hin⟩, hstep⟩ := hlast
      exact ih.step (inv_of_run hprev).1 hin hstep

/-! ## The loop over the processes -/

theorem returnedFrames_congr (h : ∀ r : Role, r.process = pid → s'.frameOf P r = s.frameOf P r) :
    returnedFrames P s' pid = returnedFrames P s pid :=
  List.filterMap_congr fun r hr ↦ h r (mem_processRoles.mp hr)

theorem exists_removeProcess (hpid : pid < P.MAX_PROCESS_ID) :
    ∃ s', s.mmuRemoveProcess P pid = some s' := by
  simp [mmuRemoveProcess, assert, hpid]

theorem removeProcesses_cons (s : State) (pid : ℕ) (pids : List ℕ) :
    s.removeProcesses P (pid :: pids) =
      (s.mmuRemoveProcess P pid).bind fun s ↦ s.removeProcesses P pids := rfl

/-- The frames of the processes are given back one process after the other, and the other
processes keep theirs. -/
theorem exists_removeProcesses {pids : List ℕ} {m : FlatMemory} (hnodup : pids.Nodup)
    (hpids : ∀ pid ∈ pids, pid < P.MAX_PROCESS_ID) (hinv : s.Inv P) (hagrees : s.Agrees P m)
    (h : Accounts P s none) : ∃ s' m', s.removeProcesses P pids = some s' ∧ s'.Inv P ∧
      s'.Agrees P m' ∧ Accounts P s' none ∧
      Returns s s' (pids.flatMap (returnedFrames P s)) ∧
      ∀ r, s'.frameOf P r = if r.process ∈ pids then none else s.frameOf P r := by
  induction pids generalizing s m with
  | nil => exact ⟨s, m, rfl, hinv, hagrees, h, Returns.refl s, by simp⟩
  | cons pid pids ih =>
    obtain ⟨hnew, hnodup⟩ := List.nodup_cons.mp hnodup
    obtain ⟨s₁, hremove⟩ := exists_removeProcess (s := s) (hpids pid (by simp))
    obtain ⟨hinv₁, hagrees₁⟩ := hinv.removeProcess hagrees hremove
    obtain ⟨hreturns, hroles⟩ := returns_removeProcess hremove
    obtain ⟨s', m', hrest, hinv', hagrees', haccounts, hreturns', hroles'⟩ := ih hnodup
      (fun pid hpid ↦ hpids pid (by simp [hpid])) hinv₁ hagrees₁
      (h.removeProcess hinv.frames hremove)
    have hkept : pids.flatMap (returnedFrames P s₁) = pids.flatMap (returnedFrames P s) := by
      refine List.flatMap_congr fun pid' hpid' ↦ returnedFrames_congr fun r hr ↦ ?_
      rw [hroles, if_neg]
      rintro rfl
      exact hnew (hr ▸ hpid')
    refine ⟨s', m', ?_, hinv', hagrees', haccounts, ?_, fun r ↦ ?_⟩
    · rw [removeProcesses_cons, hremove]
      exact hrest
    · rw [hkept] at hreturns'
      exact hreturns.trans hreturns'
    · rw [hroles', hroles]
      by_cases hr : r.process = pid <;> simp [hr]

theorem frameOf_of_not_added {r : Role} (h : s.pageDirectories r.process = none) :
    s.frameOf P r = none := by
  cases r <;> simp_all [frameOf, Role.process]

/-- The frames that all processes give back. -/
def allReturnedFrames (P : Platform) (s : State) : List Frame :=
  (List.range P.MAX_PROCESS_ID).flatMap (returnedFrames P s)

theorem FrameInv.nodup_allReturnedFrames (h : s.FrameInv P) : (allReturnedFrames P s).Nodup := by
  refine List.nodup_flatMap.mpr ⟨fun pid _ ↦ h.nodup_returnedFrames pid, ?_⟩
  refine List.nodup_range.imp fun {pid pid'} hne f hf hf' ↦ hne ?_
  obtain ⟨r, rfl, hr⟩ := mem_returnedFrames.mp hf
  obtain ⟨r', rfl, hr'⟩ := mem_returnedFrames.mp hf'
  rw [h.unique r r' f hr hr']

theorem Accounts.allReturnedFrames_perm (h : Accounts P s none) (hinv : s.FrameInv P)
    (hbounded : s.Bounded P) : (allReturnedFrames P s).Perm s.handedOut := by
  refine (List.perm_ext_iff_of_nodup hinv.nodup_allReturnedFrames h.nodup).mpr fun f ↦ ?_
  simp only [allReturnedFrames, List.mem_flatMap, List.mem_range, mem_returnedFrames, h.mem_iff,
    reduceCtorEq, or_false]
  constructor
  · rintro ⟨pid, -, r, -, hr⟩
    exact ⟨r, hr⟩
  · rintro ⟨r, hr⟩
    refine ⟨r.process, hbounded _ fun hnone ↦ ?_, r, rfl, hr⟩
    rw [frameOf_of_not_added hnone] at hr
    cases hr

end State

/-- After any calls `mmu_delete` passes every frame that the kernel has handed out to
`return_frame_to_kernel`, each one once, and has removed all swap files when it comes to
`remove_swap_files`. -/
theorem mmuDelete_releases (P : Platform) (mem : Frame → Bytes) (events : List (State.Event P))
    (s : State) (hrun : Run State.InDirectoryStep (mmuCreate mem) events s) :
    ∃ (s₁ : State) (frames : List Frame),
      s.removeProcesses P (List.range P.MAX_PROCESS_ID) = some s₁ ∧
      s.mmuDelete P = some s₁.tlbFlush.removeSwapFiles ∧
      s₁.returned = s.returned ++ frames ∧ frames.Perm s.handedOut ∧
      frames.Nodup ∧ s₁.handedOut = [] ∧ (∀ l, s₁.swap l = none) ∧
      ∀ pid, s₁.pageDirectories pid = none ∧ s₁.segmentations pid = none := by
  obtain ⟨hinv, hagrees⟩ := State.inv_of_run hrun
  have haccounts := State.accounts_of_run hrun
  obtain ⟨s₁, m₁, hremoved, hinv₁, -, haccounts₁, hreturns, hroles⟩ :=
    State.exists_removeProcesses List.nodup_range (fun pid ↦ List.mem_range.mp) hinv hagrees
      haccounts
  have hbounded := State.bounded_of_run hrun
  have hempty : ∀ r, s₁.frameOf P r = none := by
    intro r
    rw [hroles]
    split
    · rfl
    · next hr =>
      refine State.frameOf_of_not_added (by_contra fun hadded ↦ hr ?_)
      exact List.mem_range.mpr (hbounded _ hadded)
  have hdirectories : ∀ pid, s₁.pageDirectories pid = none := fun pid ↦ hempty (.directory pid)
  refine ⟨s₁, State.allReturnedFrames P s, hremoved, ?_, hreturns.returned,
    haccounts.allReturnedFrames_perm hinv.frames hbounded, hinv.frames.nodup_allReturnedFrames,
    ?_, fun l ↦ ?_, fun pid ↦ ⟨hdirectories pid, ?_⟩⟩
  · rw [State.mmuDelete, hremoved]
    rfl
  · refine List.eq_nil_iff_forall_not_mem.mpr fun f hf ↦ ?_
    rcases (haccounts₁.mem_iff f).mp hf with ⟨r, hr⟩ | hr
    · rw [hempty] at hr
      cases hr
    · cases hr
  · by_contra hswap
    obtain ⟨pid, top, htable⟩ := hinv₁.frames.swap_table l hswap
    rw [hempty] at htable
    cases htable
  · by_contra hsegs
    exact hinv₁.added pid hsegs (hdirectories pid)

/-- A process is added, writes a byte and reads it, and the unit is deleted. -/
theorem mmuDelete_releases_new_process : ∃ (events : List (State.Event thirtyTwoBit)) (s : State)
      (s₁ : State), events.map State.Event.call =
        [.addProcess 0, .write 0 0x1000 [7], .read 0 0x1000 1] ∧
    Run State.InDirectoryStep (mmuCreate fun _ _ ↦ 0) events s ∧
    s.mmuDelete thirtyTwoBit = some s₁.tlbFlush.removeSwapFiles ∧ s₁.handedOut = [] := by
  obtain ⟨e₁, e₂, e₃, -, s, -, -, -, hrun, hcall₁, hcall₂, hcall₃, -⟩ :=
    State.exists_run_write_read
  obtain ⟨s₁, _, -, hdelete, -, -, -, hempty, -⟩ := mmuDelete_releases thirtyTwoBit _ _ s hrun
  exact ⟨[e₁, e₂, e₃], s, s₁, by simp [hcall₁, hcall₂, hcall₃], hrun, hdelete, hempty⟩

end SystemProgramming.IdealIndirection
