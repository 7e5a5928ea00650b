import SystemProgramming.IdealIndirection.Refinement

/-!
# The frames that the kernel has handed out

Between the calls they are the frames with a role.  In the middle of a call one more frame
may be waiting for the entry that will point to it.
-/

namespace SystemProgramming.IdealIndirection

namespace State

variable {P : Platform} {s s' : State} {K : Kernel P} {va : Addr32} {l : Loc} {f : Frame}
  {pid : ℕ} {top : Fin NUM_ENTRIES}

/-- The kernel's list names the frames with a role and the pending one, each once. -/
structure Accounts (P : Platform) (s : State) (pending : Option Frame) : Prop where
  nodup : s.handedOut.Nodup
  mem_iff : ∀ f, f ∈ s.handedOut ↔ (∃ r, s.frameOf P r = some f) ∨ pending = some f

theorem Accounts.congr {pending : Option Frame} (h : Accounts P s pending)
    (hout : s'.handedOut = s.handedOut) (hroles : ∀ r, s'.frameOf P r = s.frameOf P r) :
    Accounts P s' pending where
  nodup := hout ▸ h.nodup
  mem_iff f := by
    rw [hout, h.mem_iff]
    simp only [hroles]

/-- The pending frame is given a role. -/
theorem Accounts.install {r₀ : Role} (h : Accounts P s (some f)) (hnone : s.frameOf P r₀ = none)
    (hout : s'.handedOut = s.handedOut)
    (hroles : ∀ r, s'.frameOf P r = if r = r₀ then some f else s.frameOf P r) :
    Accounts P s' none where
  nodup := hout ▸ h.nodup
  mem_iff f' := by
    rw [hout, h.mem_iff]
    constructor
    · rintro (⟨r, hr⟩ | hf)
      · have hne : r ≠ r₀ := by
          rintro rfl
          simp [hnone] at hr
        exact Or.inl ⟨r, by rw [hroles, if_neg hne, hr]⟩
      · exact Or.inl ⟨r₀, by rw [hroles, if_pos rfl, hf]⟩
    · rintro (⟨r, hr⟩ | hf)
      · rw [hroles] at hr
        split at hr
        · exact Or.inr hr
        · exact Or.inl ⟨r, hr⟩
      · cases hf

/-! ## The kernel -/

/-- The frame of an evicted page is taken back. -/
theorem Accounts.evict (h : Accounts P s none) (hinv : s.FrameInv P)
    (hpresent : s.target P l ≠ none) (ht : s.frameOf P (.table pid top) = some l.frame) :
    Accounts P (s.evict P (some l)) none := by
  obtain ⟨-, hroles⟩ := hinv.evict_some hpresent ht
  obtain ⟨f, hf⟩ := Option.ne_none_iff_exists'.mp hpresent
  have hbase : (s.entry P l).baseAddr = f := (target_eq_some_iff.mp hf).2
  have hpage : s.frameOf P (.page pid top l.index) = some f := (frameOf_page ht).trans hf
  have hout : (s.evict P (some l)).handedOut = s.handedOut.erase f := by
    rw [← hbase]
    rfl
  refine ⟨hout ▸ h.nodup.erase f, fun f' ↦ ?_⟩
  rw [hout, h.nodup.mem_erase_iff, h.mem_iff]
  constructor
  · rintro ⟨hne, ⟨r, hr⟩ | hr⟩
    · refine Or.inl ⟨r, ?_⟩
      rw [hroles, if_neg, hr]
      rintro rfl
      exact hne (Option.some.inj (hr.symm.trans hpage))
    · cases hr
  · rintro (⟨r, hr⟩ | hr)
    · rw [hroles] at hr
      split at hr
      · cases hr
      · next hne =>
        refine ⟨?_, Or.inl ⟨r, hr⟩⟩
        rintro rfl
        exact hne (hinv.unique _ _ _ hr hpage)
    · cases hr

theorem Accounts.ask (h : Accounts P s none) (hinv : s.FrameInv P) {e : Option Loc}
    (hask : s.askKernelForFrame K e = some (s', f)) : Accounts P s' (some f) := by
  have hfresh := (hinv.ask hask).fresh
  obtain ⟨⟨victim, f'⟩, hchoose, heq⟩ := Option.map_eq_some_iff.mp hask
  obtain ⟨rfl, rfl⟩ := Prod.mk.inj heq
  obtain ⟨hinv₁, haccounts⟩ : (s.evict P victim).FrameInv P ∧
      Accounts P (s.evict P victim) none := by
    cases victim with
    | none => exact ⟨hinv, h⟩
    | some l =>
        obtain ⟨hpresent, pid, top, ht⟩ := K.evicts_page s e l f' hchoose
        exact ⟨(hinv.evict_some hpresent ht).1.inv, h.evict hinv hpresent ht⟩
  have hfree := K.frame_free s e victim f' hchoose
  have hroles : ∀ r, frameOf P { (s.evict P victim).writeFrame f' (fun _ ↦ 0) with
      handedOut := f' :: (s.evict P victim).handedOut } r = (s.evict P victim).frameOf P r :=
    fun r ↦ (frameOf_congr rfl rfl r).trans ((hinv₁.writeFrame_fresh hfree _).2 r)
  have hnew : f' ∉ (s.evict P victim).handedOut := by
    rw [haccounts.mem_iff]
    rintro (⟨r, hr⟩ | hr)
    · exact hfree r hr
    · cases hr
  refine ⟨List.nodup_cons.mpr ⟨hnew, haccounts.nodup⟩, fun f ↦ ?_⟩
  change f ∈ f' :: (s.evict P victim).handedOut ↔ _
  rw [List.mem_cons, haccounts.mem_iff]
  simp only [hroles, reduceCtorEq, or_false, Option.some.injEq]
  rw [or_comm, eq_comm]

/-! ## Accesses -/

theorem Accounts.raisePageFault {pending : Option Frame} (h : Accounts P s pending) :
    Accounts P s.mmuRaisePageFault pending :=
  h.congr rfl (frameOf_congr rfl rfl)

theorem Accounts.loadTable (h : Accounts P s none) (hinv : s.FrameInv P)
    (hl : s.pageDirectories pid = some l.frame) (habsent : s.target P l = none)
    (hload : s.loadTable K l = some s') : Accounts P s' none := by
  obtain ⟨-, s₁, f, hask, hout, hnone, hroles⟩ := hinv.loadTable_roles hl habsent hload
  exact (h.raisePageFault.ask hinv.keeps_raisePageFault.inv hask).install hnone hout hroles

theorem Accounts.loadPage (h : Accounts P s none) (hinv : s.FrameInv P)
    (hl : s.frameOf P (.table pid top) = some l.frame) (habsent : s.target P l = none)
    (hload : s.loadPage K l = some s') : Accounts P s' none := by
  obtain ⟨-, s₁, f, hask, hout, hnone, hroles⟩ := hinv.loadPage_roles hl habsent hload
  exact (h.raisePageFault.ask hinv.keeps_raisePageFault.inv hask).install hnone hout hroles

/-- Setting flags changes no role. -/
theorem FrameInv.frameOf_setFlags (hinv : s.FrameInv P)
    (hl : s.frameOf P (.table pid top) = some l.frame) {e : Entry}
    (he : e.target = s.target P l) (r : Role) : (s.setEntry P l e).frameOf P r = s.frameOf P r := by
  rw [hinv.frameOf_setEntry_table hl, he]
  split
  · next heq => rw [heq, frameOf_page hl]
  · rfl

theorem Accounts.access (h : Accounts P s none) (hinv : s.FrameInv P)
    (hl : s.frameOf P (.table pid top) = some l.frame) {r : Lookup}
    (haccess : s.access K va l = some r) : ∃ s', r = .pte s' l ∧ Accounts P s' none := by
  obtain ⟨s₁, hs₁, hr⟩ := Option.bind_eq_some_iff.mp haccess
  obtain rfl := Option.some.inj hr
  obtain ⟨hkeeps, haccounts⟩ : Keeps P s s₁ ∧ Accounts P s₁ none := by
    split at hs₁
    · obtain rfl := Option.some.inj hs₁
      exact ⟨hinv.keeps_refl, h⟩
    · next habsent =>
      have hnone : s.target P l = none := by simp [target_eq_none_iff, habsent]
      exact ⟨(hinv.loadPage hl hnone hs₁).1, h.loadPage hinv hl hnone hs₁⟩
  refine ⟨_, rfl, haccounts.congr rfl fun r ↦ ?_⟩
  rw [← hkeeps.inv.frameOf_setFlags (hkeeps.tables _ _ _ hl)
    (e := { s₁.entry P l with accessed := true }) rfl]
  exact frameOf_congr rfl rfl r

theorem Accounts.walk (h : Accounts P s none) (hinv : s.FrameInv P)
    (htop : topLevel P va < NUM_ENTRIES) (hwalk : s.walk K va = some (.pte s' l)) :
    Accounts P s' none := by
  obtain ⟨pd, hpd, hwalk⟩ := Option.bind_eq_some_iff.mp hwalk
  rw [dif_pos htop] at hwalk
  obtain ⟨s₁, hs₁, hr⟩ := Option.bind_eq_some_iff.mp hwalk
  obtain ⟨rfl, -⟩ := Lookup.pte.inj (Option.some.inj hr)
  split at hs₁
  · obtain rfl := Option.some.inj hs₁
    exact h
  · next habsent => exact h.loadTable hinv hpd (by simp [target_eq_none_iff, habsent]) hs₁

theorem Accounts.getTableEntry (h : Accounts P s none) (hinv : s.Inv P)
    (htop : topLevel P va < NUM_ENTRIES) {hit : Bool}
    (hget : s.getTableEntry K hit va = some (.pte s' l)) : Accounts P s' none := by
  unfold State.getTableEntry at hget
  split at hget
  · next l' hl =>
    have htlb : s.tlb (pageAddress va) = some l' := by
      cases hit with
      | true => exact hl
      | false => cases hl
    obtain ⟨htop', htable, -⟩ := hinv.tlb va l' htlb
    obtain ⟨s₁, hr, haccounts⟩ := h.access hinv.frames htable hget
    obtain ⟨rfl, -⟩ := Lookup.pte.inj hr
    exact haccounts
  · obtain ⟨r, hwalk, hr⟩ := Option.bind_eq_some_iff.mp hget
    have hmiss : s.mmuTlbMiss.FrameInv P := hinv.frames.congr rfl rfl rfl
    have hmissed : Accounts P s.mmuTlbMiss none := h.congr rfl (frameOf_congr rfl rfl)
    obtain ⟨s₁, l', rfl, hkeeps, htable, -⟩ := hmiss.walk htop hwalk
    have haccounts : Accounts P s₁ none := hmissed.walk hmiss htop hwalk
    obtain ⟨s₂, hr', haccounts'⟩ := haccounts.access hkeeps.inv htable hr
    obtain ⟨rfl, -⟩ := Lookup.pte.inj hr'
    exact haccounts'

theorem Accounts.switchTo (h : Accounts P s none) (pid : ℕ) : Accounts P (s.switchTo pid) none := by
  unfold State.switchTo
  split
  · exact h.congr rfl (frameOf_congr rfl rfl)
  · exact h

theorem Accounts.segmentationFault (h : Accounts P s none) :
    Accounts P s.mmuRaiseSegmentationFault none :=
  h.congr rfl (frameOf_congr rfl rfl)

theorem Accounts.read (h : Accounts P s none) (hinv : s.Inv P) {hit : Bool} {n : ℕ} {reply : Reply}
    (hok : s.Translates P (.read pid va n) → topLevel P va < NUM_ENTRIES)
    (hread : s.mmuReadFromVirtualAddress K hit va pid n = some (s', reply)) :
    Accounts P s' none := by
  simp only [mmuReadFromVirtualAddress, Option.bind_eq_bind, Option.bind_eq_some_iff,
    assert_eq_some, switchTo_segmentations] at hread
  obtain ⟨-, -, -, -, segs, hsegs, hread⟩ := hread
  have hswitch := h.switchTo pid
  split at hread
  · obtain ⟨rfl, -⟩ := Prod.mk.inj (Option.some.inj hread)
    exact hswitch.segmentationFault
  · next hin =>
    push Not at hin
    obtain ⟨seg, hseg, hread⟩ := Option.bind_eq_some_iff.mp hread
    split at hread
    · obtain ⟨rfl, -⟩ := Prod.mk.inj (Option.some.inj hread)
      exact hswitch.segmentationFault
    · next hperm =>
      push Not at hperm
      have htop := hok ⟨segs, seg, hsegs, by simpa using hin.1, hin.2, hseg, hperm⟩
      obtain ⟨r, hget, hread⟩ := Option.bind_eq_some_iff.mp hread
      obtain ⟨s₁, l, rfl, -⟩ := (hinv.switchTo pid).getTableEntry htop hget
      obtain ⟨rfl, -⟩ := Prod.mk.inj (Option.some.inj hread)
      exact hswitch.getTableEntry (hinv.switchTo pid) htop hget

/-- A write to a page changes no role. -/
theorem Served.frameOf_writeBytes (h : Served P s va s' l) (buffer : List UInt8) (r : Role) :
    (s'.writeBytes P l va buffer).frameOf P r = s'.frameOf P r := by
  obtain ⟨htop, htable⟩ := h.table
  obtain ⟨_, hpage, -⟩ := h.pageBytes_eq
  set e : Entry := { s'.entry P l with dirty := true } with he
  have hroles₁ : ∀ r, (s'.setEntry P l e).frameOf P r = s'.frameOf P r :=
    h.inv.frames.frameOf_setFlags htable rfl
  have hbase : ((s'.setEntry P l e).entry P l).baseAddr = (s'.entry P l).baseAddr := by
    rw [entry_setEntry_self, he]
  have hunique := h.inv.frames.unique
  rw [← hroles₁]
  apply frameOf_writeFrame
  · intro pid hd
    rw [hbase] at hd
    exact Role.noConfusion (hunique (.directory pid) _ _ hd hpage)
  · intro pid top ht
    rw [hbase, hroles₁] at ht
    exact Role.noConfusion (hunique _ _ _ ht hpage)

theorem Accounts.write (h : Accounts P s none) (hinv : s.Inv P) {hit : Bool}
    {buffer : List UInt8} {reply : Reply}
    (hok : s.Translates P (.write pid va buffer) → topLevel P va < NUM_ENTRIES)
    (hwrite : s.mmuWriteToVirtualAddress K hit va pid buffer = some (s', reply)) :
    Accounts P s' none := by
  simp only [mmuWriteToVirtualAddress, Option.bind_eq_bind, Option.bind_eq_some_iff,
    assert_eq_some, switchTo_segmentations] at hwrite
  obtain ⟨-, -, -, -, segs, hsegs, hwrite⟩ := hwrite
  have hswitch := h.switchTo pid
  split at hwrite
  · obtain ⟨rfl, -⟩ := Prod.mk.inj (Option.some.inj hwrite)
    exact hswitch.segmentationFault
  · next hin =>
    push Not at hin
    split at hwrite
    · obtain ⟨rfl, -⟩ := Prod.mk.inj (Option.some.inj hwrite)
      exact hswitch.segmentationFault
    · next seg hseg =>
      split at hwrite
      · obtain ⟨rfl, -⟩ := Prod.mk.inj (Option.some.inj hwrite)
        exact hswitch.segmentationFault
      · next hperm =>
        have htop := hok ⟨segs, seg, hsegs, by simpa using hin.1, hin.2, hseg, hperm⟩
        obtain ⟨r, hget, hwrite⟩ := Option.bind_eq_some_iff.mp hwrite
        obtain ⟨s₁, l, rfl, hserved⟩ := (hinv.switchTo pid).getTableEntry htop hget
        obtain ⟨rfl, -⟩ := Prod.mk.inj (Option.some.inj hwrite)
        have haccounts := hswitch.getTableEntry (hinv.switchTo pid) htop hget
        exact haccounts.congr rfl (hserved.frameOf_writeBytes buffer)

/-! ## A new process -/

theorem Accounts.addTestingPage (h : Accounts P s none) (hinv : s.FrameInv P) {pd pt : Frame}
    {i : Fin NUM_ENTRIES} (hpd : s.pageDirectories pid = some pd)
    (htable : s.frameOf P (.table pid 0) = some pt)
    (hempty : s.frameOf P (.page pid 0 i) = none)
    (hadd : s.addTestingPage K ⟨pd, 0⟩ i = some s') : Accounts P s' none ∧
      ∀ j, j ≠ i → s.frameOf P (.page pid 0 j) = none → s'.frameOf P (.page pid 0 j) = none := by
  obtain ⟨⟨s₁, f⟩, hask, hadd⟩ := Option.bind_eq_some_iff.mp hadd
  obtain rfl := Option.some.inj hadd
  have hbase : (s.entry P ⟨pd, 0⟩).baseAddr = pt :=
    (target_eq_some_iff.mp ((frameOf_table hpd).symm.trans htable)).2
  rw [hbase] at hask ⊢
  have hasked := hinv.ask hask
  have hroles := hasked.inv.frameOf_setEntry_table (l := ⟨pt, i⟩) (hasked.tables pid 0 pt htable)
    { s₁.entry P ⟨pt, i⟩ with
      baseAddr := f, present := true, readWrite := true, userSupervisor := true }
  refine ⟨(h.ask hinv hask).install (hasked.page_none pid 0 i hempty) rfl hroles, ?_⟩
  intro j hne hj
  rw [hroles, if_neg (by simpa using hne)]
  exact hasked.page_none pid 0 j hj

theorem Accounts.addProcess (h : Accounts P s none) (hinv : s.FrameInv P)
    (hnone : s.pageDirectories pid = none) (hadd : s.mmuAddProcess K pid = some s') :
    Accounts P s' none := by
  obtain ⟨s₁, s₂, s₃, s₄, s₅, pd, pt, ha⟩ := hinv.addProcess hnone hadd
  have hasked := hinv.ask ha.directory
  have hasked₃ := ha.inv₂.ask ha.table
  have hnone₁ : s₁.frameOf P (.directory pid) = none := by
    change s₁.pageDirectories pid = none
    rw [hasked.directories, hnone]
  have hout₂ : s₂.handedOut = s₁.handedOut := by rw [ha.added]
  have h₂ : Accounts P s₂ none :=
    (h.ask hinv ha.directory).install hnone₁ hout₂ ha.roles₂
  have htable : s₃.frameOf P (.table pid 0) = none := by
    rw [hasked₃.table_eq, ha.roles₂, if_neg (by simp), hasked.table_eq]
    simp [frameOf, hnone]
  have h₄ : Accounts P s₄ none := (h₂.ask ha.inv₂ ha.table).install htable ha.handedOut₄ ha.roles₄
  have hempty : ∀ i, s₄.frameOf P (.page pid 0 i) = none := by
    intro i
    rw [ha.roles₄, if_neg (by simp)]
    apply hasked₃.page_none
    rw [ha.roles₂, if_neg (by simp)]
    apply hasked.page_none
    simp [frameOf, hnone]
  have htable₄ : s₄.frameOf P (.table pid 0) = some pt := by rw [ha.roles₄, if_pos rfl]
  obtain ⟨h₅, hempty₅⟩ := h₄.addTestingPage ha.keeps₄.inv ha.directory₄ htable₄ (hempty 1) ha.page₁
  have hpd₅ : s₅.pageDirectories pid = some pd := by
    rw [ha.keeps₅.directories, ha.directory₄]
  have htable₅ := ha.keeps₅.tables pid 0 pt htable₄
  exact (h₅.addTestingPage ha.keeps₅.inv hpd₅ htable₅ (hempty₅ 2 (by decide) (hempty 2)) ha.page₂).1

/-! ## The removal of a process -/

/-- The roles of a process, in the order in which their frames are given back. -/
def processRoles (pid : ℕ) : List Role :=
  ((List.finRange NUM_ENTRIES).flatMap fun top ↦
    (List.finRange NUM_ENTRIES).map (Role.page pid top) ++ [.table pid top]) ++ [.directory pid]

/-- The frames that `mmu_remove_process` passes to `return_frame_to_kernel`, in order. -/
def returnedFrames (P : Platform) (s : State) (pid : ℕ) : List Frame :=
  (processRoles pid).filterMap (s.frameOf P)

theorem mem_processRoles {r : Role} : r ∈ processRoles pid ↔ r.process = pid := by
  simp only [processRoles, List.mem_append, List.mem_flatMap, List.mem_map, List.mem_singleton,
    List.mem_finRange, true_and]
  constructor
  · rintro (⟨top, ⟨second, rfl⟩ | rfl⟩ | rfl) <;> rfl
  · rintro rfl
    cases r with
    | directory pid => exact Or.inr rfl
    | table pid top => exact Or.inl ⟨top, Or.inr rfl⟩
    | page pid top second => exact Or.inl ⟨top, Or.inl ⟨second, rfl⟩⟩

theorem nodup_processRoles (pid : ℕ) : (processRoles pid).Nodup := by
  have hpages : ∀ top, ((List.finRange NUM_ENTRIES).map (Role.page pid top)).Nodup := fun top ↦
    (List.nodup_finRange _).map fun i j h ↦ (Role.page.inj h).2.2
  unfold processRoles
  rw [List.nodup_append, List.nodup_flatMap]
  refine ⟨⟨fun top _ ↦ ?_, ?_⟩, List.nodup_singleton _, ?_⟩
  · rw [List.nodup_append]
    refine ⟨hpages top, List.nodup_singleton _, ?_⟩
    simp
  · refine (List.nodup_finRange _).imp fun {i j} hne ↦ ?_
    intro r hi hj
    simp only [List.mem_append, List.mem_map, List.mem_singleton] at hi hj
    apply hne
    rcases hi with ⟨_, -, rfl⟩ | rfl <;> rcases hj with ⟨_, -, h⟩ | h <;> cases h <;> rfl
  · intro r hr b hb
    obtain rfl := List.mem_singleton.mp hb
    rintro rfl
    simp at hr

theorem mem_returnedFrames : f ∈ returnedFrames P s pid ↔
    ∃ r : Role, r.process = pid ∧ s.frameOf P r = some f := by
  simp only [returnedFrames, List.mem_filterMap, mem_processRoles]

theorem FrameInv.nodup_returnedFrames (h : s.FrameInv P) (pid : ℕ) :
    (returnedFrames P s pid).Nodup :=
  (nodup_processRoles pid).filterMap fun r r' f hr hr' ↦ h.unique r r' f hr hr'

/-- The frames are passed to `return_frame_to_kernel`, in this order. -/
structure Returns (s s' : State) (frames : List Frame) : Prop where
  handedOut : s'.handedOut = s.handedOut.diff frames
  returned : s'.returned = s.returned ++ frames

theorem Returns.refl (s : State) : Returns s s [] :=
  ⟨rfl, (List.append_nil _).symm⟩

theorem Returns.trans {s'' : State} {frames frames' : List Frame} (h : Returns s s' frames)
    (h' : Returns s' s'' frames') : Returns s s'' (frames ++ frames') :=
  ⟨by rw [h'.handedOut, h.handedOut, List.diff_append],
    by rw [h'.returned, h.returned, List.append_assoc]⟩

theorem returns_returnFrameToKernel (s : State) (f : Frame) :
    Returns s (s.returnFrameToKernel f) [f] :=
  ⟨by rw [List.diff_cons, List.diff_nil]; rfl, rfl⟩

/-- A loop gives back what its rounds give back. -/
theorem returns_foldl {ι : Type*} {step : State → ι → State} (frames : State → ι → List Frame)
    (hstep : ∀ s i, Returns s (step s i) (frames s i))
    (hsame : ∀ s i j, frames (step s i) j = frames s j) (is : List ι) (s : State) :
    Returns s (is.foldl step s) (is.flatMap (frames s)) := by
  induction is generalizing s with
  | nil => exact Returns.refl s
  | cons i is ih =>
    have hframes : frames (step s i) = frames s := funext (hsame s i)
    have hrest := ih (step s i)
    rw [hframes] at hrest
    exact (hstep s i).trans hrest

theorem returns_removeTable (pt : Frame) : Returns s (s.removeTable P pt)
    ((List.finRange NUM_ENTRIES).flatMap fun i ↦ (s.target P ⟨pt, i⟩).toList) := by
  unfold State.removeTable
  refine returns_foldl (fun s i ↦ (s.target P ⟨pt, i⟩).toList) (fun s i ↦ ?_) (fun s i j ↦ ?_) _ s
  · cases hp : (s.entry P ⟨pt, i⟩).present with
    | false =>
        rw [target_eq_none_iff.mpr hp]
        exact ⟨rfl, (Returns.refl s).returned⟩
    | true =>
        rw [target_eq_some_iff.mpr ⟨hp, rfl⟩, if_pos rfl, Option.toList_some]
        exact ⟨(returns_returnFrameToKernel s _).handedOut, rfl⟩
  · split <;> rfl

/-- What is given back for one entry of a page directory. -/
def returnedTable (P : Platform) (s : State) (pd : Frame) (top : Fin NUM_ENTRIES) : List Frame :=
  match s.target P ⟨pd, top⟩ with
  | none => []
  | some pt => ((List.finRange NUM_ENTRIES).flatMap fun i ↦ (s.target P ⟨pt, i⟩).toList) ++ [pt]

theorem returnedTable_congr (h : ∀ l, s'.target P l = s.target P l) (pd : Frame)
    (top : Fin NUM_ENTRIES) : returnedTable P s' pd top = returnedTable P s pd top := by
  simp only [returnedTable, h]

theorem returns_removeDirectory (pd : Frame) : Returns s (s.removeDirectory P pd)
    ((List.finRange NUM_ENTRIES).flatMap (returnedTable P s pd)) := by
  unfold State.removeDirectory
  refine returns_foldl (fun s ↦ returnedTable P s pd) (fun s top ↦ ?_) (fun s top top' ↦ ?_) _ s
  · cases hp : (s.entry P ⟨pd, top⟩).present with
    | false =>
        rw [returnedTable, target_eq_none_iff.mpr hp]
        exact Returns.refl s
    | true =>
        rw [returnedTable, target_eq_some_iff.mpr ⟨hp, rfl⟩, if_pos rfl]
        exact (returns_removeTable _).trans (returns_returnFrameToKernel _ _)
  · split
    · have hpurged := (purged_removeTable (P := P) (s := s)
        (s.entry P ⟨pd, top⟩).baseAddr).trans (purged_returnFrameToKernel (s.entry P ⟨pd, top⟩).baseAddr)
      exact returnedTable_congr hpurged.target_eq pd top'
    · rfl

/-- The two loops and the directory, role by role. -/
theorem returns_releaseFrames :
    Returns s (s.releaseFrames P pid) (returnedFrames P s pid) := by
  unfold releaseFrames
  cases hpd : s.pageDirectories pid with
  | none =>
      have hnone : returnedFrames P s pid = [] := by
        rw [List.eq_nil_iff_forall_not_mem]
        intro f hf
        obtain ⟨r, rfl, hr⟩ := mem_returnedFrames.mp hf
        cases r <;> simp_all [frameOf, Role.process]
      rw [hnone]
      exact Returns.refl s
  | some pd =>
      have hrole : ∀ top, s.frameOf P (.table pid top) = s.target P ⟨pd, top⟩ :=
        fun top ↦ frameOf_table hpd
      have htable : ∀ top, ((List.finRange NUM_ENTRIES).map (Role.page pid top) ++
          [Role.table pid top]).filterMap (s.frameOf P) = returnedTable P s pd top := by
        intro top
        rw [List.filterMap_append, List.filterMap_map, returnedTable]
        cases ht : s.target P ⟨pd, top⟩ with
        | none =>
            have hpages : ∀ i, s.frameOf P (.page pid top i) = none :=
              fun i ↦ frameOf_page_of_none ((hrole top).trans ht)
            simp [hpages, hrole, ht]
        | some pt =>
            have hpages : s.frameOf P ∘ Role.page pid top = fun i ↦ s.target P ⟨pt, i⟩ :=
              funext fun i ↦ frameOf_page ((hrole top).trans ht)
            rw [hpages, List.filterMap_eq_flatMap_toList]
            simp [hrole, ht]
      have hframes : returnedFrames P s pid =
          (List.finRange NUM_ENTRIES).flatMap (returnedTable P s pd) ++ [pd] := by
        have hdirectory : s.frameOf P (.directory pid) = some pd := hpd
        rw [returnedFrames, processRoles, List.filterMap_append, List.filterMap_flatMap,
          funext htable]
        simp [hdirectory]
      rw [hframes]
      exact (returns_removeDirectory pd).trans (returns_returnFrameToKernel _ pd)

theorem returns_removeProcess (hremove : s.mmuRemoveProcess P pid = some s') :
    Returns s s' (returnedFrames P s pid) ∧
      ∀ r, s'.frameOf P r = if r.process = pid then none else s.frameOf P r := by
  simp only [mmuRemoveProcess, Option.bind_eq_bind, Option.bind_eq_some_iff, Option.pure_def,
    Option.some.injEq] at hremove
  obtain ⟨-, -, hs'⟩ := hremove
  have hpurged : Purged s (s.releaseFrames P pid) _ := purged_releaseFrames
  have hreturns : Returns s (s.releaseFrames P pid) (returnedFrames P s pid) :=
    returns_releaseFrames
  generalize s.releaseFrames P pid = s₁ at hs' hpurged hreturns
  obtain ⟨swap, out, back, rfl, -, -⟩ := hpurged
  obtain ⟨hout, hback, hmem, hdir⟩ : s'.handedOut = out ∧ s'.returned = back ∧ s'.mem = s.mem ∧
      s'.pageDirectories = Function.update s.pageDirectories pid none := by
    rw [← hs']
    split <;> exact ⟨rfl, rfl, rfl, rfl⟩
  have htarget : ∀ l, s'.target P l = s.target P l := by
    intro l
    rw [target, target, entry, entry, hmem]
  refine ⟨⟨hout.trans hreturns.handedOut, hback.trans hreturns.returned⟩, fun r ↦ ?_⟩
  split
  · cases r <;> simp_all [frameOf, Role.process]
  · cases r <;> simp_all [frameOf, Role.process]

theorem Accounts.returnedFrames_perm (h : Accounts P s none) (hinv : s.FrameInv P) (pid : ℕ) :
    (returnedFrames P s pid ++ s.handedOut.diff (returnedFrames P s pid)).Perm s.handedOut := by
  have hsub : returnedFrames P s pid ⊆ s.handedOut := by
    intro f hf
    obtain ⟨r, -, hr⟩ := mem_returnedFrames.mp hf
    exact (h.mem_iff f).mpr (Or.inl ⟨r, hr⟩)
  apply List.subperm_append_diff_self_of_count_le
  intro f hf
  rw [List.count_eq_one_of_mem (hinv.nodup_returnedFrames pid) hf]
  exact List.one_le_count_iff.mpr (hsub hf)

theorem Accounts.removeProcess (h : Accounts P s none) (hinv : s.FrameInv P)
    (hremove : s.mmuRemoveProcess P pid = some s') : Accounts P s' none := by
  obtain ⟨⟨hout, -⟩, hroles⟩ := returns_removeProcess hremove
  refine ⟨hout ▸ h.nodup.diff, fun f ↦ ?_⟩
  rw [hout, h.nodup.mem_sdiff_iff, h.mem_iff, mem_returnedFrames]
  simp only [reduceCtorEq, or_false, hroles]
  constructor
  · rintro ⟨⟨r, hr⟩, hkept⟩
    refine ⟨r, ?_⟩
    rw [if_neg fun hpid ↦ hkept ⟨r, hpid, hr⟩, hr]
  · rintro ⟨r, hr⟩
    split at hr
    · cases hr
    · next hpid =>
      refine ⟨⟨r, hr⟩, ?_⟩
      rintro ⟨r', hpid', hr'⟩
      rw [hinv.unique r r' f hr hr'] at hpid
      exact hpid hpid'

theorem Accounts.step (h : Accounts P s none) (hinv : s.Inv P) {e : Event P} (hok : s.Permitted e)
    (hin : s.InDirectory e) (hstep : s.step e = some s') : Accounts P s' none := by
  obtain ⟨kernel, hit, call, reply⟩ := e
  unfold State.step at hstep
  split at hstep
  · cases hstep
  obtain ⟨⟨s₁, reply'⟩, hexec, hreply⟩ := Option.bind_eq_some_iff.mp hstep
  obtain ⟨rfl, rfl⟩ : reply' = reply ∧ s₁ = s' := by simpa using hreply
  cases call with
  | addProcess pid =>
      obtain ⟨s₂, hadd, heq⟩ := Option.map_eq_some_iff.mp hexec
      obtain ⟨rfl, -⟩ := Prod.mk.inj heq
      exact h.addProcess hinv.frames (hok pid rfl) hadd
  | removeProcess pid =>
      obtain ⟨s₂, hremove, heq⟩ := Option.map_eq_some_iff.mp hexec
      obtain ⟨rfl, -⟩ := Prod.mk.inj heq
      exact h.removeProcess hinv.frames hremove
  | read pid va n => exact h.read hinv hin hexec
  | write pid va buffer => exact h.write hinv hin hexec

theorem accounts_of_run {mem : Frame → Bytes} {events : List (Event P)}
    (hrun : Run InDirectoryStep (mmuCreate mem) events s) : Accounts P s none := by
  induction hrun with
  | nil =>
      refine ⟨List.nodup_nil, fun f ↦ ?_⟩
      have hnone : ∀ r, (mmuCreate mem).frameOf P r = none := by
        intro r
        cases r <;> rfl
      simp only [hnone, reduceCtorEq, exists_false, or_self, iff_false]
      exact List.not_mem_nil
  | snoc hprev hlast ih =>
      obtain ⟨⟨hok, hin⟩, hstep⟩ := hlast
      exact ih.step (inv_of_run hprev).1 hok hin hstep

end State

/-- The frames handed out and not taken back are those with a role, each with one only.
The removal of a process passes the frames of its roles to `return_frame_to_kernel`, each
once, and no other. -/
theorem frames_accounted (P : Platform) (mem : Frame → Bytes) (events : List (State.Event P))
    (s : State) (hrun : Run State.InDirectoryStep (mmuCreate mem) events s) :
    s.handedOut.Nodup ∧ (∀ f, f ∈ s.handedOut ↔ ∃! r, s.frameOf P r = some f) ∧
    ∀ pid s', s.mmuRemoveProcess P pid = some s' → ∃ frames : List Frame,
      s'.returned = s.returned ++ frames ∧ frames.Nodup ∧
      (∀ f, f ∈ frames ↔ ∃ r : State.Role, r.process = pid ∧ s.frameOf P r = some f) ∧
      (frames ++ s'.handedOut).Perm s.handedOut := by
  have haccounts := State.accounts_of_run hrun
  have hinv := (State.inv_of_run hrun).1.frames
  refine ⟨haccounts.nodup, fun f ↦ ?_, fun pid s' hremove ↦ ?_⟩
  · rw [haccounts.mem_iff]
    constructor
    · rintro (⟨r, hr⟩ | hr)
      · exact ⟨r, hr, fun r' hr' ↦ hinv.unique r' r f hr' hr⟩
      · cases hr
    · rintro ⟨r, hr, -⟩
      exact Or.inl ⟨r, hr⟩
  · obtain ⟨⟨hout, hback⟩, -⟩ := State.returns_removeProcess hremove
    refine ⟨State.returnedFrames P s pid, hback, hinv.nodup_returnedFrames pid,
      fun f ↦ State.mem_returnedFrames, ?_⟩
    rw [hout]
    exact haccounts.returnedFrames_perm hinv pid

/-- A process is added, writes a byte and reads it. -/
theorem frames_accounted_new_process : ∃ (events : List (State.Event thirtyTwoBit)) (s : State),
    events.map State.Event.call = [.addProcess 0, .write 0 0x1000 [7], .read 0 0x1000 1] ∧
      Run State.InDirectoryStep (mmuCreate fun _ _ ↦ 0) events s ∧ s.handedOut.Nodup ∧
      ∀ f, f ∈ s.handedOut ↔ ∃! r, s.frameOf thirtyTwoBit r = some f := by
  obtain ⟨e₁, e₂, e₃, -, s, -, -, -, hrun, hcall₁, hcall₂, hcall₃, -⟩ :=
    State.exists_run_write_read
  obtain ⟨hnodup, hmem, -⟩ := frames_accounted thirtyTwoBit _ [e₁, e₂, e₃] s hrun
  exact ⟨[e₁, e₂, e₃], s, by simp [hcall₁, hcall₂, hcall₃], hrun, hnodup, hmem⟩

/-- The directory entry of a stack address is none of the entries that hold a table. -/
theorem stack_entry_has_no_role : ∃ (e₁ e₂ : State.Event thirtyTwoBit) (s₁ s₂ : State),
    Run (Guarded (StepOf State.step) State.Permitted) (mmuCreate fun _ _ ↦ 0) [e₁] s₁ ∧
      s₁.Permitted e₂ ∧ s₁.step e₂ = some s₂ ∧ e₂.call = .read 0 0xBFFFE000 1 ∧
      s₂.undefined = true ∧
      ∀ top : Fin NUM_ENTRIES, top.val ≠ State.topLevel thirtyTwoBit 0xBFFFE000 := by
  obtain ⟨e₁, e₂, s₁, s₂, hrun, hok, hstep, hcall, -, hundefined⟩ := State.exists_run_stackRead
  refine ⟨e₁, e₂, s₁, s₂, hrun.mono fun s e t h ↦ ⟨h.1.1, h.2⟩, hok, hstep, hcall, hundefined, ?_⟩
  intro top htop
  have hlt : State.topLevel thirtyTwoBit 0xBFFFE000 < NUM_ENTRIES := htop ▸ top.isLt
  revert hlt
  decide

end SystemProgramming.IdealIndirection
