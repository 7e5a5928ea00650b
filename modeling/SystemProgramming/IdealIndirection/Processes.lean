import SystemProgramming.IdealIndirection.FlatMemory

/-!
# Processes come and go

The flat memories survive the addition and the removal of processes.
-/

namespace SystemProgramming.IdealIndirection

variable {P : Platform}

namespace State

variable {s s' : State} {m : FlatMemory} {K : Kernel P} {va : Addr32} {l : Loc}

/-! ## Adding a process -/

variable {pid : ℕ}

/-- A new directory is empty. -/
theorem FrameInv.addDirectory (h : s.FrameInv P) {pd : Frame} (hnone : s.pageDirectories pid = none)
    (hfresh : ∀ r, s.frameOf P r ≠ some pd) (hzero : s.mem pd = fun _ ↦ 0)
    (segs : ℕ → Option Segmentations) :
    let s' := { s with pageDirectories := Function.update s.pageDirectories pid (some pd)
                       segmentations := segs }
    s'.FrameInv P ∧ (∀ r, s'.frameOf P r = if r = .directory pid then some pd else s.frameOf P r) ∧
      ∀ pid' top second, s'.pageBytes P pid' top second = s.pageBytes P pid' top second := by
  intro s'
  have htable : ∀ pid' top, s'.frameOf P (.table pid' top) = s.frameOf P (.table pid' top) := by
    intro pid' top
    by_cases hp : pid' = pid
    · subst hp
      have hempty : s'.target P ⟨pd, top⟩ = none := target_of_zero hzero
      rw [frameOf_table (s := s') (Function.update_self ..), hempty]
      simp [frameOf, hnone]
    · simp only [frameOf, s', Function.update_of_ne hp]
      rfl
  have hroles : ∀ r, s'.frameOf P r = if r = .directory pid then some pd else s.frameOf P r := by
    intro r
    cases r with
    | directory pid' => simp [frameOf, s', Function.update_apply]
    | table pid' top => rw [htable, if_neg (by simp)]
    | page pid' top second =>
        rw [if_neg (by simp)]
        cases ht : s.frameOf P (.table pid' top) with
        | none => rw [frameOf_page_of_none ht, frameOf_page_of_none ((htable _ _).trans ht)]
        | some pt =>
            rw [frameOf_page ht, frameOf_page ((htable _ _).trans ht)]
            rfl
  refine ⟨⟨?_, fun l hl ↦ ?_⟩, hroles, fun pid' top second ↦ ?_⟩
  · refine unique_of_update h.unique hroles fun f hf ↦ ?_
    obtain rfl : pd = f := Option.some.inj hf
    exact hfresh
  · obtain ⟨pid', top, ht⟩ := h.swap_table l hl
    exact ⟨pid', top, by rw [htable, ht]⟩
  · simp only [pageBytes, hroles, reduceCtorEq, if_false]
    rfl

theorem FrameInv.addTestingPage (h : s.FrameInv P) {pd : Frame} {i : Fin NUM_ENTRIES}
    (hpd : s.pageDirectories pid = some pd) (hpt : s.target P ⟨pd, 0⟩ ≠ none)
    (hzero : s.pageBytes P pid 0 i = fun _ ↦ 0)
    (hadd : s.addTestingPage K ⟨pd, 0⟩ i = some s') : Keeps P s s' := by
  simp only [State.addTestingPage, Option.bind_eq_bind, Option.bind_eq_some_iff, Option.pure_def,
    Option.some.injEq] at hadd
  obtain ⟨⟨s₁, f⟩, hask, rfl⟩ := hadd
  have hasked := h.ask hask
  obtain ⟨pt, htarget⟩ := Option.ne_none_iff_exists'.mp hpt
  have hbase : (s.entry P ⟨pd, 0⟩).baseAddr = pt := (target_eq_some_iff.mp htarget).2
  have ht : s₁.frameOf P (.table pid 0) = some pt :=
    hasked.tables pid 0 pt ((frameOf_table hpd).trans htarget)
  rw [hbase]
  refine hasked.toKeeps.trans (hasked.inv.installPage (l := ⟨pt, i⟩) ht
    (Or.inr ⟨hasked.fresh, ?_⟩) ?_).1
  · rw [hasked.bytes, hzero, hasked.zero]
  · simp [Entry.target]

/-- The states that `mmu_add_process` goes through: a frame for the directory, the empty
directory, a frame for the first table, the table, and its two pages. -/
structure Adding (K : Kernel P) (pid : ℕ) (s s₁ s₂ s₃ s₄ s₅ s' : State) (pd pt : Frame) :
    Prop where
  directory : s.askKernelForFrame K none = some (s₁, pd)
  added : s₂ = { s₁ with
    pageDirectories := Function.update s₁.pageDirectories pid (some pd)
    segmentations := Function.update s₁.segmentations pid (some (newSegmentations P)) }
  inv₂ : s₂.FrameInv P
  roles₂ : ∀ r, s₂.frameOf P r = if r = .directory pid then some pd else s₁.frameOf P r
  bytes₂ : ∀ pid' top second, s₂.pageBytes P pid' top second = s₁.pageBytes P pid' top second
  table : s₂.askKernelForFrame K none = some (s₃, pt)
  keeps₄ : Keeps P s₃ s₄
  roles₄ : ∀ r, s₄.frameOf P r = if r = .table pid 0 then some pt else s₃.frameOf P r
  handedOut₄ : s₄.handedOut = s₃.handedOut
  directory₄ : s₄.pageDirectories pid = some pd
  page₁ : s₄.addTestingPage K ⟨pd, 0⟩ 1 = some s₅
  page₂ : s₅.addTestingPage K ⟨pd, 0⟩ 2 = some s'
  keeps₅ : Keeps P s₄ s₅
  keeps₆ : Keeps P s₅ s'

theorem FrameInv.addProcess (h : s.FrameInv P) (hnone : s.pageDirectories pid = none)
    (hadd : s.mmuAddProcess K pid = some s') :
    ∃ s₁ s₂ s₃ s₄ s₅ pd pt, Adding K pid s s₁ s₂ s₃ s₄ s₅ s' pd pt := by
  simp only [mmuAddProcess, Option.bind_eq_bind, Option.bind_eq_some_iff] at hadd
  obtain ⟨-, -, ⟨s₁, pd⟩, hask, ⟨s₃, pt⟩, hask', s₅, hpage₁, hpage₂⟩ := hadd
  have hasked := h.ask hask
  have hnone₁ : s₁.pageDirectories pid = none := by rw [hasked.directories, hnone]
  set segs := Function.update s₁.segmentations pid (some (newSegmentations P)) with hsegs
  obtain ⟨hinv₂, hroles₂, hbytes₂⟩ :=
    hasked.inv.addDirectory hnone₁ hasked.fresh hasked.zero segs
  set s₂ := { s₁ with pageDirectories := Function.update s₁.pageDirectories pid (some pd)
                      segmentations := segs } with hs₂
  have hasked₃ := hinv₂.ask hask'
  have hpd₃ : s₃.pageDirectories pid = some pd := by
    rw [hasked₃.directories]
    exact Function.update_self _ _ _
  have habsent : s₃.target P ⟨pd, 0⟩ = none := by
    rw [← frameOf_table hpd₃, hasked₃.table_eq, hroles₂, if_neg (by simp)]
    simp [frameOf, hnone₁]
  set e : Entry := { s₃.entry P ⟨pd, 0⟩ with
    baseAddr := pt, present := true, readWrite := true, userSupervisor := true } with he
  obtain ⟨hkeeps₄, hroles₄⟩ := hasked₃.inv.installTable (l := ⟨pd, 0⟩) (e := e) hpd₃ habsent
    hasked₃.fresh hasked₃.zero (by simp [he, Entry.target])
  set s₄ := s₃.setEntry P ⟨pd, 0⟩ e with hs₄
  have htarget₄ : s₄.target P ⟨pd, 0⟩ ≠ none := by
    rw [hs₄, target_setEntry, if_pos rfl, he]
    simp [Entry.target]
  have hempty₄ : ∀ top second, s₄.pageBytes P pid top second = fun _ ↦ 0 := by
    intro top second
    rw [hkeeps₄.bytes, hasked₃.bytes, hbytes₂, hasked.bytes]
    simp [pageBytes, frameOf, hnone]
  have hkeeps₅ := hkeeps₄.inv.addTestingPage (hkeeps₄.directories.symm ▸ hpd₃) htarget₄
    (hempty₄ 0 1) hpage₁
  have hpd₄ : s₄.pageDirectories pid = some pd := by rw [hkeeps₄.directories, hpd₃]
  have hpd₅ : s₅.pageDirectories pid = some pd := by rw [hkeeps₅.directories, hpd₄]
  have htarget₅ : s₅.target P ⟨pd, 0⟩ ≠ none := by
    obtain ⟨pt', hpt'⟩ := Option.ne_none_iff_exists'.mp htarget₄
    have htable := hkeeps₅.tables pid 0 pt' ((frameOf_table hpd₄).trans hpt')
    rw [frameOf_table hpd₅] at htable
    simp [htable]
  have hkeeps₆ := hkeeps₅.inv.addTestingPage hpd₅ htarget₅
    (by rw [hkeeps₅.bytes, hempty₄]) hpage₂
  exact ⟨s₁, s₂, s₃, s₄, s₅, pd, pt, hask, rfl, hinv₂, hroles₂, hbytes₂, hask', hkeeps₄, hroles₄,
    rfl, hpd₄, hpage₁, hpage₂, hkeeps₅, hkeeps₆⟩

theorem Inv.addProcess (h : s.Inv P) (hag : s.Agrees P m) (hnone : s.pageDirectories pid = none)
    (hadd : s.mmuAddProcess K pid = some s') :
    s'.Inv P ∧ s'.Agrees P (Function.update m pid fun _ ↦ 0) := by
  obtain ⟨s₁, s₂, s₃, s₄, s₅, pd, pt, ha⟩ := h.frames.addProcess hnone hadd
  have hasked := h.frames.ask ha.directory
  have hasked₃ := ha.inv₂.ask ha.table
  have hkeeps : Keeps P s₂ s' :=
    ((hasked₃.toKeeps.trans ha.keeps₄).trans ha.keeps₅).trans ha.keeps₆
  have hbytes : ∀ pid' top second, s'.pageBytes P pid' top second =
      s.pageBytes P pid' top second := by
    intro pid' top second
    rw [hkeeps.bytes, ha.bytes₂, hasked.bytes]
  have hdir : s'.pageDirectories = Function.update s.pageDirectories pid (some pd) := by
    rw [hkeeps.directories, ha.added, ← hasked.directories]
  have hseg : s'.segmentations =
      Function.update s.segmentations pid (some (newSegmentations P)) := by
    rw [hkeeps.segmentations, ha.added, ← hasked.segmentations]
  constructor
  · refine ⟨hkeeps.inv, fun va l hl ↦ ?_, fun pid' hs ↦ ?_⟩
    · have htlb : s'.tlb = s.tlb := by
        rw [hkeeps.tlb, ha.added]
        exact hasked.tlb
      have hpid : s'.currPid = s.currPid := by
        rw [hkeeps.currPid, ha.added]
        exact hasked.currPid
      obtain ⟨htop, htable, hindex⟩ := h.tlb va l (htlb ▸ hl)
      refine ⟨htop, ?_, hindex⟩
      rw [hpid]
      apply hkeeps.tables
      rw [ha.roles₂, if_neg (by simp)]
      exact hasked.tables _ _ _ htable
    · rw [hdir, Function.update_apply]
      split
      · simp
      · next hne =>
        apply h.added
        rwa [hseg, Function.update_of_ne hne] at hs
  · intro pid' va htop hadded
    rw [hbytes]
    by_cases hp : pid' = pid
    · rw [hp, Function.update_self]
      simp [pageBytes, frameOf, hnone]
    · rw [Function.update_of_ne hp]
      exact hag pid' va htop (by rwa [hdir, Function.update_of_ne hp] at hadded)

/-! ## Removing a process -/

def Role.process : Role → ℕ
  | .directory pid | .table pid _ | .page pid _ _ => pid

/-- Nothing but swap files and the kernel's lists of frames has changed. -/
def Purged (s s' : State) (purge : Loc → Prop) : Prop :=
  ∃ swap handedOut returned,
    s' = { s with swap := swap, handedOut := handedOut, returned := returned } ∧
    (∀ l, purge l → swap l = none) ∧ ∀ l, ¬ purge l → swap l = s.swap l

theorem Purged.trans {s'' : State} {p q : Loc → Prop} (h : Purged s s' p) (h' : Purged s' s'' q) :
    Purged s s'' fun l ↦ p l ∨ q l := by
  obtain ⟨swap, out, back, rfl, hp, hkeep⟩ := h
  obtain ⟨swap', out', back', rfl, hq, hkeep'⟩ := h'
  refine ⟨swap', out', back', rfl, fun l hl ↦ ?_, fun l hl ↦ ?_⟩
  · by_cases hql : q l
    · exact hq l hql
    · rw [hkeep' l hql]
      exact hp l (hl.resolve_right hql)
  · push Not at hl
    rw [hkeep' l hl.2]
    exact hkeep l hl.1

theorem Purged.congr {p q : Loc → Prop} (h : Purged s s' p) (hpq : ∀ l, p l ↔ q l) :
    Purged s s' q := by
  obtain ⟨swap, out, back, rfl, hp, hkeep⟩ := h
  exact ⟨swap, out, back, rfl, fun l hl ↦ hp l ((hpq l).mpr hl),
    fun l hl ↦ hkeep l fun hpl ↦ hl ((hpq l).mp hpl)⟩

theorem Purged.target_eq {p : Loc → Prop} (h : Purged s s' p) (l : Loc) :
    s'.target P l = s.target P l := by
  obtain ⟨swap, out, back, rfl, -, -⟩ := h
  rfl

theorem Purged.refl (s : State) : Purged s s fun _ ↦ False :=
  ⟨s.swap, s.handedOut, s.returned, rfl, fun _ hl ↦ hl.elim, fun _ _ ↦ rfl⟩

theorem purged_returnFrameToKernel (f : Frame) :
    Purged s (s.returnFrameToKernel f) fun _ ↦ False :=
  ⟨s.swap, s.handedOut.erase f, s.returned ++ [f], rfl, fun _ hl ↦ hl.elim, fun _ _ ↦ rfl⟩

theorem purged_removeSwapFile (l : Loc) : Purged s (s.removeSwapFile l) fun l' ↦ l' = l := by
  refine ⟨Function.update s.swap l none, s.handedOut, s.returned, rfl, fun l' hl ↦ ?_,
    fun l' hl ↦ ?_⟩
  · rw [hl, Function.update_self]
  · exact Function.update_of_ne hl _ _

/-- A loop over entries purges what its rounds purge. -/
theorem purged_foldl {ι : Type*} {f : State → ι → State} {p : State → ι → Loc → Prop}
    (hstep : ∀ s i, Purged s (f s i) (p s i))
    (hsame : ∀ s s' q i l, Purged s s' q → (p s' i l ↔ p s i l)) (is : List ι) (s : State) :
    Purged s (is.foldl f s) fun l ↦ ∃ i ∈ is, p s i l := by
  induction is generalizing s with
  | nil => exact (Purged.refl s).congr (by simp)
  | cons i is ih =>
      refine ((hstep s i).trans (ih (f s i))).congr fun l ↦ ?_
      have hrest : ∀ j, p (f s i) j l ↔ p s j l := fun j ↦ hsame s _ _ j l (hstep s i)
      simp only [hrest, List.exists_mem_cons_iff]

theorem purged_removeTable (pt : Frame) :
    Purged s (s.removeTable P pt) fun l ↦ l.frame = pt := by
  refine (purged_foldl (p := fun _ i l ↦ l = ⟨pt, i⟩) (fun s i ↦ ?_) (fun _ _ _ _ _ _ ↦ Iff.rfl)
    _ s).congr fun l ↦ ?_
  · split
    · exact ((purged_returnFrameToKernel _).trans (purged_removeSwapFile _)).congr (by simp)
    · exact purged_removeSwapFile _
  · constructor
    · rintro ⟨i, -, rfl⟩
      rfl
    · rintro rfl
      exact ⟨l.index, List.mem_finRange _, rfl⟩

theorem purged_removeDirectory (pd : Frame) : Purged s (s.removeDirectory P pd)
    fun l ↦ ∃ top, s.target P ⟨pd, top⟩ = some l.frame := by
  refine (purged_foldl (p := fun s top l ↦ s.target P ⟨pd, top⟩ = some l.frame) (fun s top ↦ ?_)
    (fun s s' q top l hp ↦ by rw [hp.target_eq]) _ s).congr (by simp)
  split
  · next hpresent =>
    refine ((purged_removeTable _).trans (purged_returnFrameToKernel _)).congr fun l ↦ ?_
    rw [target_eq_some_iff]
    simp [hpresent, eq_comm]
  · next habsent =>
    have hnone : s.target P ⟨pd, top⟩ = none := by simp [target_eq_none_iff, habsent]
    exact (Purged.refl s).congr (by simp [hnone])

/-- The directory of the process is given up, and the swap files of its tables with it. -/
theorem Inv.purge (h : s.Inv P) {purge : Loc → Prop} {s₁ : State} (hp : Purged s s₁ purge)
    (htables : ∀ l, purge l ↔ ∃ top, s.frameOf P (.table pid top) = some l.frame)
    (hs' : s'.mem = s₁.mem ∧ s'.swap = s₁.swap ∧
      s'.pageDirectories = Function.update s₁.pageDirectories pid none ∧
      s'.segmentations = Function.update s₁.segmentations pid none)
    (htlb : ∀ va l, s'.tlb (pageAddress va) = some l →
      s'.currPid = s.currPid ∧ s.currPid ≠ pid ∧ s.tlb (pageAddress va) = some l) :
    s'.Inv P ∧ ∀ pid' top second, pid' ≠ pid →
      s'.pageBytes P pid' top second = s.pageBytes P pid' top second := by
  obtain ⟨swap, out, back, rfl, hpurge, hkeep⟩ := hp
  obtain ⟨hmem, hswap, hdir, hseg⟩ := hs'
  have htarget : ∀ l, s'.target P l = s.target P l := by
    intro l
    rw [target, target, entry, entry, hmem]
  have hroles : ∀ r, s'.frameOf P r = if r.process = pid then none else s.frameOf P r := by
    intro r
    by_cases hp : r.process = pid
    · rw [if_pos hp]
      cases r <;> simp_all [frameOf, Role.process]
    · rw [if_neg hp]
      cases r <;> simp_all [frameOf, Role.process]
  have htable : ∀ {pid' top l}, pid' ≠ pid → s.frameOf P (.table pid' top) = some l →
      s'.frameOf P (.table pid' top) = some l := by
    intro pid' top l hne ht
    rw [hroles, if_neg (show ¬ (Role.table pid' top).process = pid from hne), ht]
  refine ⟨⟨⟨fun r r' f hr hr' ↦ ?_, fun l hl ↦ ?_⟩, fun va l hl ↦ ?_, fun pid' hs ↦ ?_⟩,
    fun pid' top second hne ↦ ?_⟩
  · rw [hroles] at hr hr'
    split at hr
    · cases hr
    · split at hr'
      · cases hr'
      · exact h.frames.unique r r' f hr hr'
  · rw [hswap] at hl
    have hnot : ¬ purge l := fun hpl ↦ hl (hpurge l hpl)
    obtain ⟨pid', top, ht⟩ := h.frames.swap_table l (by rwa [← hkeep l hnot])
    have hne : pid' ≠ pid := by
      rintro rfl
      exact hnot ((htables l).mpr ⟨top, ht⟩)
    exact ⟨pid', top, htable hne ht⟩
  · obtain ⟨hpid, hne, hold⟩ := htlb va l hl
    obtain ⟨htop, ht, hindex⟩ := h.tlb va l hold
    exact ⟨htop, by rw [hpid]; exact htable hne ht, hindex⟩
  · rw [hdir, Function.update_apply]
    rw [hseg, Function.update_apply] at hs
    split
    · next heq => exact absurd (if_pos heq) hs
    · next hne => exact h.added pid' (by rwa [if_neg hne] at hs)
  · have hrole : ∀ r : Role, r.process = pid' → s'.frameOf P r = s.frameOf P r := by
      intro r hr
      rw [hroles, if_neg (by rw [hr]; exact hne)]
    simp only [pageBytes, hrole (.table pid' top) rfl, hrole (.page pid' top second) rfl, hmem,
      hswap]
    cases ht : s.frameOf P (.table pid' top) with
    | none => rfl
    | some pt =>
        have hnot : ¬ purge ⟨pt, second⟩ := by
          intro hpl
          obtain ⟨top', ht'⟩ := (htables _).mp hpl
          have hr := h.frames.unique _ _ pt ht ht'
          exact hne (congrArg Role.process hr)
        simp only [hkeep _ hnot]

theorem purged_releaseFrames : Purged s (s.releaseFrames P pid)
    fun l ↦ ∃ top, s.frameOf P (.table pid top) = some l.frame := by
  unfold releaseFrames
  split
  · next hpd => exact (Purged.refl s).congr (by simp [frameOf, hpd])
  · next pd hpd =>
    refine ((purged_removeDirectory (P := P) pd).trans (purged_returnFrameToKernel pd)).congr
      fun l ↦ ?_
    simp [frameOf_table hpd]

theorem Inv.removeProcess (h : s.Inv P) (hag : s.Agrees P m)
    (hremove : s.mmuRemoveProcess P pid = some s') : s'.Inv P ∧ s'.Agrees P m := by
  simp only [mmuRemoveProcess, Option.bind_eq_bind, Option.bind_eq_some_iff, Option.pure_def,
    Option.some.injEq] at hremove
  obtain ⟨-, -, hs'⟩ := hremove
  have hpurged : Purged s (s.releaseFrames P pid) _ := purged_releaseFrames
  generalize s.releaseFrames P pid = s₁ at hs' hpurged
  obtain ⟨swap, out, back, rfl, -, -⟩ := id hpurged
  have hfields : s'.mem = s.mem ∧ s'.swap = swap ∧
      s'.pageDirectories = Function.update s.pageDirectories pid none ∧
      s'.segmentations = Function.update s.segmentations pid none := by
    rw [← hs']
    split <;> exact ⟨rfl, rfl, rfl, rfl⟩
  have htlb : ∀ va l, s'.tlb (pageAddress va) = some l →
      s'.currPid = s.currPid ∧ s.currPid ≠ pid ∧ s.tlb (pageAddress va) = some l := by
    intro va l hl
    rw [← hs'] at hl ⊢
    split at hl
    · cases hl
    · next hne => exact ⟨by rw [if_neg hne], hne, hl⟩
  obtain ⟨hinv, hbytes⟩ := h.purge hpurged (fun _ ↦ Iff.rfl) hfields htlb
  refine ⟨hinv, fun pid' va htop hadded ↦ ?_⟩
  rw [hfields.2.2.1] at hadded
  have hne : pid' ≠ pid := by
    rintro rfl
    exact hadded (Function.update_self ..)
  rw [hbytes _ _ _ hne]
  exact hag pid' va htop (by rwa [Function.update_of_ne hne] at hadded)

theorem inv_mmuCreate (mem : Frame → Bytes) :
    (mmuCreate mem).Inv P ∧ (mmuCreate mem).Agrees P fun _ _ ↦ 0 := by
  have hnone : ∀ r, (mmuCreate mem).frameOf P r = none := by
    intro r
    cases r <;> rfl
  refine ⟨⟨⟨?_, ?_⟩, ?_, ?_⟩, ?_⟩
  · simp [hnone]
  · simp [mmuCreate]
  · simp [mmuCreate]
  · simp [mmuCreate]
  · intro pid va htop hadded
    exact absurd rfl hadded

end State

end SystemProgramming.IdealIndirection
