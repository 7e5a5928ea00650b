import SystemProgramming.IdealIndirection.Frames

/-!
# Page faults and evictions

Each step of a page fault keeps what every page holds.
-/

namespace SystemProgramming.IdealIndirection

namespace State

variable {P : Platform} {s s' s'' : State}

/-- Pages have moved and tables have been filled, and nothing else has happened. -/
structure Keeps (P : Platform) (s s' : State) : Prop where
  inv : s'.FrameInv P
  bytes : ∀ pid top second, s'.pageBytes P pid top second = s.pageBytes P pid top second
  tables : ∀ pid top pt, s.frameOf P (.table pid top) = some pt →
    s'.frameOf P (.table pid top) = some pt
  directories : s'.pageDirectories = s.pageDirectories
  segmentations : s'.segmentations = s.segmentations
  currPid : s'.currPid = s.currPid
  tlb : s'.tlb = s.tlb
  undefined : s'.undefined = s.undefined

theorem Keeps.trans (h : Keeps P s s') (h' : Keeps P s' s'') : Keeps P s s'' where
  inv := h'.inv
  bytes pid top second := (h'.bytes pid top second).trans (h.bytes pid top second)
  tables pid top pt ht := h'.tables pid top pt (h.tables pid top pt ht)
  directories := h'.directories.trans h.directories
  segmentations := h'.segmentations.trans h.segmentations
  currPid := h'.currPid.trans h.currPid
  tlb := h'.tlb.trans h.tlb
  undefined := h'.undefined.trans h.undefined

theorem FrameInv.keeps_refl (h : s.FrameInv P) : Keeps P s s :=
  ⟨h, fun _ _ _ ↦ rfl, fun _ _ _ ht ↦ ht, rfl, rfl, rfl, rfl, rfl⟩

theorem FrameInv.keeps_raisePageFault (h : s.FrameInv P) : Keeps P s s.mmuRaisePageFault :=
  ⟨h.congr rfl rfl rfl, fun _ _ _ ↦ pageBytes_congr rfl rfl rfl _ _ _, fun _ _ _ ht ↦ ht, rfl, rfl,
    rfl, rfl, rfl⟩

/-! ## Asking the kernel -/

/-- What is known of a frame that the kernel has just handed out. -/
structure Asked (P : Platform) (s s' : State) (f : Frame) : Prop extends Keeps P s s' where
  table_eq : ∀ pid top, s'.frameOf P (.table pid top) = s.frameOf P (.table pid top)
  page_none : ∀ pid top second, s.frameOf P (.page pid top second) = none →
    s'.frameOf P (.page pid top second) = none
  fresh : ∀ r, s'.frameOf P r ≠ some f
  zero : s'.mem f = fun _ ↦ 0

theorem FrameInv.evict_some (h : s.FrameInv P) {l : Loc} (hpresent : s.target P l ≠ none)
    {pid : ℕ} {top : Fin NUM_ENTRIES} (ht : s.frameOf P (.table pid top) = some l.frame) :
    Keeps P s (s.evict P (some l)) ∧
      ∀ r, (s.evict P (some l)).frameOf P r =
        if r = .page pid top l.index then none else s.frameOf P r := by
  set e : Entry := { s.entry P l with present := false } with he
  have hroles : ∀ r, (s.evict P (some l)).frameOf P r =
      if r = .page pid top l.index then none else s.frameOf P r := by
    intro r
    have hset := h.frameOf_setEntry_table ht e r
    rw [show e.target = none from rfl] at hset
    rw [← hset]
    exact frameOf_congr rfl rfl r
  obtain ⟨f, hf⟩ : ∃ f, s.target P l = some f := Option.ne_none_iff_exists'.mp hpresent
  have hbase : (s.entry P l).baseAddr = f := (target_eq_some_iff.mp hf).2
  have hpage : s.frameOf P (.page pid top l.index) = some f := (frameOf_page ht).trans hf
  have htable : ∀ pid' top', (s.evict P (some l)).frameOf P (.table pid' top') =
      s.frameOf P (.table pid' top') := by
    intro pid' top'
    rw [hroles, if_neg (by simp)]
  have hmem : ∀ f', f' ≠ l.frame → (s.evict P (some l)).mem f' = s.mem f' :=
    fun f' hne ↦ mem_setEntry_of_ne hne e
  refine ⟨⟨⟨?_, ?_⟩, ?_, ?_, rfl, rfl, rfl, rfl, rfl⟩, hroles⟩
  · exact unique_of_update h.unique hroles (by simp)
  · intro l' hl'
    by_cases heq : l' = l
    · exact ⟨pid, top, by rw [htable, heq, ht]⟩
    · have hold : s.swap l' ≠ none := by
        have hswap : (s.evict P (some l)).swap l' = s.swap l' := Function.update_of_ne heq _ _
        rwa [hswap] at hl'
      obtain ⟨pid', top', ht'⟩ := h.swap_table l' hold
      exact ⟨pid', top', by rw [htable, ht']⟩
  · intro pid' top' second
    unfold pageBytes
    rw [htable]
    cases ht' : s.frameOf P (.table pid' top') with
    | none => rfl
    | some pt =>
        by_cases heq : Role.page pid' top' second = .page pid top l.index
        · obtain ⟨rfl, rfl, rfl⟩ : pid' = pid ∧ top' = top ∧ second = l.index := by simpa using heq
          obtain rfl : l.frame = pt := Option.some.inj (ht.symm.trans ht')
          have hswap : (s.evict P (some l)).swap ⟨l.frame, l.index⟩ = some (s.mem f) := by
            rw [← hbase]
            exact Function.update_self _ _ _
          simp only [hroles, if_true, hpage, hswap, Option.getD_some]
        · have hrole := (hroles (.page pid' top' second)).trans (if_neg heq)
          cases hpg : s.frameOf P (.page pid' top' second) with
          | some f' =>
              have hne : f' ≠ l.frame := by
                rintro rfl
                exact Role.noConfusion (h.unique _ _ l.frame hpg ht)
              simp only [hrole, hpg, hmem f' hne]
          | none =>
              have hne : (⟨pt, second⟩ : Loc) ≠ l := by
                rintro rfl
                have hrole' := h.unique _ _ pt ht' ht
                exact heq (by simpa using hrole')
              have hswap : (s.evict P (some l)).swap ⟨pt, second⟩ = s.swap ⟨pt, second⟩ :=
                Function.update_of_ne hne _ _
              simp only [hrole, hpg, hswap]
  · intro pid' top' pt ht'
    rw [htable, ht']

theorem FrameInv.writeFrame_fresh (h : s.FrameInv P) {f : Frame}
    (hfresh : ∀ r, s.frameOf P r ≠ some f) (bytes : Bytes) :
    Keeps P s (s.writeFrame f bytes) ∧ ∀ r, (s.writeFrame f bytes).frameOf P r = s.frameOf P r := by
  have hroles : ∀ r, (s.writeFrame f bytes).frameOf P r = s.frameOf P r :=
    frameOf_writeFrame (fun pid ↦ hfresh (.directory pid)) (fun pid top ↦ hfresh _) bytes
  refine ⟨⟨⟨?_, ?_⟩, ?_, ?_, rfl, rfl, rfl, rfl, rfl⟩, hroles⟩
  · intro r r' f' hr hr'
    rw [hroles] at hr hr'
    exact h.unique r r' f' hr hr'
  · intro l hl
    obtain ⟨pid, top, ht⟩ := h.swap_table l hl
    exact ⟨pid, top, by rw [hroles, ht]⟩
  · intro pid top second
    unfold pageBytes
    rw [hroles, hroles]
    cases s.frameOf P (.table pid top) with
    | none => rfl
    | some pt =>
        cases hpg : s.frameOf P (.page pid top second) with
        | none => rfl
        | some f' =>
            have hne : f' ≠ f := by
              rintro rfl
              exact hfresh _ hpg
            simp [State.writeFrame, hne]
  · intro pid top pt ht
    rw [hroles, ht]

theorem FrameInv.ask (h : s.FrameInv P) {K : Kernel P} {e : Option Loc} {f : Frame}
    (hask : s.askKernelForFrame K e = some (s', f)) : Asked P s s' f := by
  obtain ⟨⟨victim, f'⟩, hchoose, heq⟩ := Option.map_eq_some_iff.mp hask
  obtain ⟨rfl, rfl⟩ : _ = s' ∧ f' = f := by simpa using heq
  have hfree := K.frame_free s e victim f' hchoose
  obtain ⟨hkeeps, htable, hpage⟩ : Keeps P s (s.evict P victim) ∧
      (∀ pid top, (s.evict P victim).frameOf P (.table pid top) = s.frameOf P (.table pid top)) ∧
      ∀ pid top second, s.frameOf P (.page pid top second) = none →
        (s.evict P victim).frameOf P (.page pid top second) = none := by
    cases victim with
    | none => exact ⟨h.keeps_refl, fun _ _ ↦ rfl, fun _ _ _ hp ↦ hp⟩
    | some l =>
        obtain ⟨hpresent, pid, top, ht⟩ := K.evicts_page s e l f' hchoose
        obtain ⟨hk, hroles⟩ := h.evict_some hpresent ht
        refine ⟨hk, fun pid' top' ↦ by rw [hroles, if_neg (by simp)], fun _ _ _ hp ↦ ?_⟩
        rw [hroles]
        split
        · rfl
        · exact hp
  obtain ⟨hwrite, hroles⟩ := hkeeps.inv.writeFrame_fresh hfree fun _ ↦ 0
  have hall := hkeeps.trans hwrite
  have hsame : ∀ r, frameOf P { (s.evict P victim).writeFrame f' (fun _ ↦ 0) with
      handedOut := f' :: (s.evict P victim).handedOut } r = (s.evict P victim).frameOf P r :=
    fun r ↦ (frameOf_congr rfl rfl r).trans (hroles r)
  refine ⟨⟨hall.inv.congr rfl rfl rfl, ?_, ?_, hall.directories, hall.segmentations, hall.currPid,
    hall.tlb, hall.undefined⟩, ?_, ?_, ?_, ?_⟩
  · intro pid top second
    rw [← hall.bytes]
    exact pageBytes_congr rfl rfl rfl pid top second
  · intro pid top pt ht
    rw [hsame, htable, ht]
  · intro pid top
    rw [hsame, htable]
  · intro pid top second hp
    rw [hsame, hpage pid top second hp]
  · intro r
    rw [hsame]
    exact hfree r
  · exact Function.update_self _ _ _

/-! ## Installing what the kernel handed out -/

/-- An absent directory entry is made to point to an empty table. -/
theorem FrameInv.installTable (h : s.FrameInv P) {pid : ℕ} {l : Loc} {f : Frame} {e : Entry}
    (hl : s.pageDirectories pid = some l.frame) (habsent : s.target P l = none)
    (hfresh : ∀ r, s.frameOf P r ≠ some f) (hzero : s.mem f = fun _ ↦ 0)
    (he : e.target = some f) :
    Keeps P s (s.setEntry P l e) ∧
      ∀ r, (s.setEntry P l e).frameOf P r =
        if r = .table pid l.index then some f else s.frameOf P r := by
  have hne : f ≠ l.frame := by
    rintro rfl
    exact hfresh (.directory pid) hl
  have hroles : ∀ r, (s.setEntry P l e).frameOf P r =
      if r = .table pid l.index then some f else s.frameOf P r := by
    intro r
    rw [← he]
    refine h.frameOf_setEntry_directory hl habsent (fun f' hf' ↦ ?_) r
    obtain rfl : f = f' := Option.some.inj (he.symm.trans hf')
    exact ⟨hne, hzero⟩
  have hold : s.frameOf P (.table pid l.index) = none := (frameOf_table hl).trans habsent
  refine ⟨⟨⟨?_, ?_⟩, ?_, ?_, rfl, rfl, rfl, rfl, rfl⟩, hroles⟩
  · refine unique_of_update h.unique hroles fun f' hf' ↦ ?_
    obtain rfl : f = f' := Option.some.inj hf'
    exact hfresh
  · intro l' hl'
    obtain ⟨pid', top', ht'⟩ := h.swap_table l' hl'
    refine ⟨pid', top', ?_⟩
    rw [hroles]
    split
    · next heq =>
      rw [heq, hold] at ht'
      cases ht'
    · exact ht'
  · intro pid' top' second
    unfold pageBytes
    rw [hroles, hroles, if_neg (by simp : Role.page pid' top' second ≠ .table pid l.index)]
    by_cases heq : Role.table pid' top' = .table pid l.index
    · obtain ⟨rfl, rfl⟩ : pid' = pid ∧ top' = l.index := by simpa using heq
      have hswap : s.swap ⟨f, second⟩ = none := by
        by_contra hswap
        obtain ⟨pid'', top'', ht''⟩ := h.swap_table _ hswap
        exact hfresh _ ht''
      simp only [if_true, hold, frameOf_page_of_none hold]
      change (s.swap ⟨f, second⟩).getD _ = _
      rw [hswap]
      rfl
    · rw [if_neg heq]
      cases ht' : s.frameOf P (.table pid' top') with
      | none => rfl
      | some pt =>
          cases hpg : s.frameOf P (.page pid' top' second) with
          | none => rfl
          | some f' =>
              have hne' : f' ≠ l.frame := by
                rintro rfl
                exact Role.noConfusion (h.unique _ (.directory pid) l.frame hpg hl)
              exact mem_setEntry_of_ne hne' e
  · intro pid' top' pt ht'
    rw [hroles]
    split
    · next heq =>
      rw [heq, hold] at ht'
      cases ht'
    · exact ht'

/-- An absent table entry is made to point to a frame with the bytes of its page, or a
present one keeps its frame. -/
theorem FrameInv.installPage (h : s.FrameInv P) {pid : ℕ} {top : Fin NUM_ENTRIES} {l : Loc}
    {f : Frame} {e : Entry} (hl : s.frameOf P (.table pid top) = some l.frame)
    (hf : s.target P l = some f ∨ (∀ r, s.frameOf P r ≠ some f) ∧
      s.mem f = s.pageBytes P pid top l.index) (he : e.target = some f) :
    Keeps P s (s.setEntry P l e) ∧
      ∀ r, (s.setEntry P l e).frameOf P r =
        if r = .page pid top l.index then some f else s.frameOf P r := by
  have hroles : ∀ r, (s.setEntry P l e).frameOf P r =
      if r = .page pid top l.index then some f else s.frameOf P r := by
    intro r
    rw [← he]
    exact h.frameOf_setEntry_table hl e r
  have htable : ∀ pid' top', (s.setEntry P l e).frameOf P (.table pid' top') =
      s.frameOf P (.table pid' top') := by
    intro pid' top'
    rw [hroles, if_neg (by simp)]
  have hne : f ≠ l.frame := by
    rintro rfl
    rcases hf with hpresent | ⟨hfresh, -⟩
    · exact Role.noConfusion (h.unique _ _ l.frame ((frameOf_page hl).trans hpresent) hl)
    · exact hfresh _ hl
  have hbytes : s.mem f = s.pageBytes P pid top l.index := by
    rcases hf with hpresent | ⟨-, hbytes⟩
    · have hpg : s.frameOf P (.page pid top l.index) = some f := (frameOf_page hl).trans hpresent
      simp only [pageBytes, hl, hpg]
    · exact hbytes
  refine ⟨⟨⟨?_, ?_⟩, ?_, ?_, rfl, rfl, rfl, rfl, rfl⟩, hroles⟩
  · rcases hf with hpresent | ⟨hfresh, -⟩
    · intro r r' f' hr hr'
      have hsame : ∀ r, (s.setEntry P l e).frameOf P r = s.frameOf P r := by
        intro r
        rw [hroles]
        split
        · next heq => rw [heq, frameOf_page hl, hpresent]
        · rfl
      rw [hsame] at hr hr'
      exact h.unique r r' f' hr hr'
    · refine unique_of_update h.unique hroles fun f' hf' ↦ ?_
      obtain rfl : f = f' := Option.some.inj hf'
      exact hfresh
  · intro l' hl'
    obtain ⟨pid', top', ht'⟩ := h.swap_table l' hl'
    exact ⟨pid', top', (htable pid' top').trans ht'⟩
  · intro pid' top' second
    by_cases heq : Role.page pid' top' second = .page pid top l.index
    · obtain ⟨rfl, rfl, rfl⟩ : pid' = pid ∧ top' = top ∧ second = l.index := by simpa using heq
      rw [← hbytes]
      simp only [pageBytes, htable, hl, hroles, if_true]
      exact mem_setEntry_of_ne hne e
    · have hrole := (hroles (.page pid' top' second)).trans (if_neg heq)
      simp only [pageBytes, htable, hrole]
      cases ht' : s.frameOf P (.table pid' top') with
      | none => rfl
      | some pt =>
          cases hpg : s.frameOf P (.page pid' top' second) with
          | none => rfl
          | some f' =>
              have hne' : f' ≠ l.frame := by
                rintro rfl
                exact Role.noConfusion (h.unique _ _ l.frame hpg hl)
              exact mem_setEntry_of_ne hne' e
  · intro pid' top' pt ht'
    rw [htable, ht']

/-- An entry is rewritten without a change to any role. -/
theorem FrameInv.keeps_setEntry (h : s.FrameInv P) {l : Loc} {e : Entry}
    (hroles : ∀ r, (s.setEntry P l e).frameOf P r = s.frameOf P r)
    (hpage : ∀ pid top second, s.frameOf P (.page pid top second) ≠ some l.frame) :
    Keeps P s (s.setEntry P l e) := by
  refine ⟨⟨?_, ?_⟩, ?_, ?_, rfl, rfl, rfl, rfl, rfl⟩
  · intro r r' f hr hr'
    rw [hroles] at hr hr'
    exact h.unique r r' f hr hr'
  · intro l' hl'
    obtain ⟨pid, top, ht⟩ := h.swap_table l' hl'
    exact ⟨pid, top, by rw [hroles, ht]⟩
  · intro pid top second
    simp only [pageBytes, hroles]
    cases s.frameOf P (.table pid top) with
    | none => rfl
    | some pt =>
        cases hpg : s.frameOf P (.page pid top second) with
        | none => rfl
        | some f =>
            have hne : f ≠ l.frame := by
              rintro rfl
              exact hpage pid top second hpg
            exact mem_setEntry_of_ne hne e
  · intro pid top pt ht
    rw [hroles, ht]

/-! ## Page faults -/

variable {K : Kernel P} {l : Loc} {va : Addr32} {pid : ℕ} {top : Fin NUM_ENTRIES}

/-- The new table gets the frame that the kernel has handed out. -/
theorem FrameInv.loadTable_roles (h : s.FrameInv P) (hl : s.pageDirectories pid = some l.frame)
    (habsent : s.target P l = none) (hload : s.loadTable K l = some s') :
    Keeps P s s' ∧ ∃ s₁ f, s.mmuRaisePageFault.askKernelForFrame K none = some (s₁, f) ∧
      s'.handedOut = s₁.handedOut ∧ s₁.frameOf P (.table pid l.index) = none ∧
      ∀ r, s'.frameOf P r = if r = .table pid l.index then some f else s₁.frameOf P r := by
  simp only [State.loadTable, Option.bind_eq_bind, Option.bind_eq_some_iff, Option.pure_def,
    Option.some.injEq] at hload
  obtain ⟨⟨s₁, f⟩, hask, rfl⟩ := hload
  have hfault := h.keeps_raisePageFault
  have hasked := hfault.inv.ask hask
  have hl₁ : s₁.pageDirectories pid = some l.frame := by
    rw [hasked.directories, hfault.directories, hl]
  have habsent₁ : s₁.target P l = none := by
    have htable : s₁.frameOf P (.table pid l.index) = none := by
      rw [hasked.table_eq]
      exact (frameOf_table hl).trans habsent
    exact (frameOf_table hl₁).symm.trans htable
  set e₁ : Entry := { s₁.entry P l with baseAddr := f } with he₁
  have htarget₁ : e₁.target = none := by
    simp [he₁, Entry.target, target_eq_none_iff.mp habsent₁]
  have hne : f ≠ l.frame := by
    rintro rfl
    exact hasked.fresh (.directory pid) hl₁
  set s₂ := s₁.setEntry P l e₁ with hs₂
  have hroles : ∀ r, s₂.frameOf P r = s₁.frameOf P r := by
    intro r
    rw [hs₂, hasked.inv.frameOf_setEntry_directory hl₁ habsent₁ (by simp [htarget₁]), htarget₁]
    split
    · next heq => rw [heq, frameOf_table hl₁, habsent₁]
    · rfl
  have hkeeps₂ : Keeps P s₁ s₂ := by
    refine hasked.inv.keeps_setEntry hroles fun pid' top' second hpg ↦ ?_
    exact Role.noConfusion (hasked.inv.unique _ (.directory pid) l.frame hpg hl₁)
  -- a directory has no swap file
  have hread : s₂.readPageFromDisk P l = s₂ := by
    have hswap : s₂.swap l = none := by
      by_contra hswap
      obtain ⟨pid', top', ht'⟩ := hkeeps₂.inv.swap_table l hswap
      rw [hroles] at ht'
      exact Role.noConfusion (hasked.inv.unique _ (.directory pid) l.frame ht' hl₁)
    simp [readPageFromDisk, hswap]
  rw [hread]
  have hentry : s₂.entry P l = e₁ := entry_setEntry_self l e₁
  obtain ⟨hinstall, hroles'⟩ := hkeeps₂.inv.installTable (l := l) (f := f)
    (e := { s₂.entry P l with present := true, readWrite := true, userSupervisor := true })
    hl₁ (by rw [target, hentry, htarget₁]) (fun r ↦ by rw [hroles]; exact hasked.fresh r)
    ((mem_setEntry_of_ne hne e₁).trans hasked.zero) (by simp [Entry.target, hentry, he₁])
  refine ⟨((hfault.trans hasked.toKeeps).trans hkeeps₂).trans hinstall, s₁, f, hask, rfl, ?_, ?_⟩
  · exact (frameOf_table hl₁).trans habsent₁
  · intro r
    rw [hroles', hroles]

theorem FrameInv.loadTable (h : s.FrameInv P) (hl : s.pageDirectories pid = some l.frame)
    (habsent : s.target P l = none) (hload : s.loadTable K l = some s') :
    Keeps P s s' ∧ s'.target P l ≠ none := by
  obtain ⟨hkeeps, s₁, f, -, -, -, hroles⟩ := h.loadTable_roles hl habsent hload
  refine ⟨hkeeps, ?_⟩
  rw [← frameOf_table (by rw [hkeeps.directories, hl]), hroles, if_pos rfl]
  simp

/-- The new page gets the frame that the kernel has handed out. -/
theorem FrameInv.loadPage_roles (h : s.FrameInv P)
    (hl : s.frameOf P (.table pid top) = some l.frame)
    (habsent : s.target P l = none) (hload : s.loadPage K l = some s') :
    Keeps P s s' ∧ ∃ s₁ f, s.mmuRaisePageFault.askKernelForFrame K (some l) = some (s₁, f) ∧
      s'.handedOut = s₁.handedOut ∧ s₁.frameOf P (.page pid top l.index) = none ∧
      ∀ r, s'.frameOf P r = if r = .page pid top l.index then some f else s₁.frameOf P r := by
  simp only [State.loadPage, Option.bind_eq_bind, Option.bind_eq_some_iff, Option.pure_def,
    Option.some.injEq] at hload
  obtain ⟨⟨s₁, f⟩, hask, rfl⟩ := hload
  have hfault := h.keeps_raisePageFault
  have hasked := hfault.inv.ask hask
  have hl₁ : s₁.frameOf P (.table pid top) = some l.frame := by
    rw [hasked.table_eq]
    exact hl
  have habsent₁ : s₁.target P l = none := by
    have hpg := hasked.page_none pid top l.index ((frameOf_page hl).trans habsent)
    exact (frameOf_page hl₁).symm.trans hpg
  set e₁ : Entry := { s₁.entry P l with baseAddr := f } with he₁
  have htarget₁ : e₁.target = none := by
    simp [he₁, Entry.target, target_eq_none_iff.mp habsent₁]
  have hne : f ≠ l.frame := by
    rintro rfl
    exact hasked.fresh _ hl₁
  set s₂ := s₁.setEntry P l e₁ with hs₂
  have hroles : ∀ r, s₂.frameOf P r = s₁.frameOf P r := by
    intro r
    rw [hs₂, hasked.inv.frameOf_setEntry_table hl₁, htarget₁]
    split
    · next heq => rw [heq, frameOf_page hl₁, habsent₁]
    · rfl
  have hkeeps₂ : Keeps P s₁ s₂ := by
    refine hasked.inv.keeps_setEntry hroles fun pid' top' second hpg ↦ ?_
    exact Role.noConfusion (hasked.inv.unique _ _ l.frame hpg hl₁)
  have hentry : s₂.entry P l = e₁ := entry_setEntry_self l e₁
  have hfresh₂ : ∀ r, s₂.frameOf P r ≠ some f := fun r ↦ by
    rw [hroles]
    exact hasked.fresh r
  have hl₂ : s₂.frameOf P (.table pid top) = some l.frame := by rw [hroles, hl₁]
  have hbytes₂ : s₂.pageBytes P pid top l.index = (s₂.swap l).getD fun _ ↦ 0 := by
    have hpg : s₂.frameOf P (.page pid top l.index) = none := by
      rw [frameOf_page hl₂, target, hentry, htarget₁]
    simp only [pageBytes, hl₂, hpg]
  -- the frame is filled from the swap file, and stays zero without one
  obtain ⟨s₃, hread, hkeeps₃, hout₃, hroles₃, hentry₃, hmem₃⟩ : ∃ s₃,
      s₂.readPageFromDisk P l = s₃ ∧ Keeps P s₂ s₃ ∧ s₃.handedOut = s₂.handedOut ∧
      (∀ r, s₃.frameOf P r = s₂.frameOf P r) ∧ s₃.entry P l = e₁ ∧
      s₃.mem f = (s₂.swap l).getD fun _ ↦ 0 := by
    cases hswap : s₂.swap l with
    | none =>
        refine ⟨s₂, by simp [readPageFromDisk, hswap], hkeeps₂.inv.keeps_refl, rfl, fun _ ↦ rfl,
          hentry, ?_⟩
        exact (mem_setEntry_of_ne hne e₁).trans hasked.zero
    | some bytes =>
        obtain ⟨hk, hr⟩ := hkeeps₂.inv.writeFrame_fresh hfresh₂ bytes
        refine ⟨s₂.writeFrame f bytes, by simp [readPageFromDisk, hswap, hentry, he₁], hk, rfl, hr,
          ?_, ?_⟩
        · rw [entry_writeFrame_of_ne hne.symm, hentry]
        · exact Function.update_self _ _ _
  rw [hread]
  obtain ⟨hinstall, hroles'⟩ := hkeeps₃.inv.installPage (l := l) (f := f)
    (e := { s₃.entry P l with present := true, readWrite := true, userSupervisor := true })
    (by rw [hroles₃, hl₂]) (Or.inr ⟨fun r ↦ by rw [hroles₃]; exact hfresh₂ r, by
      rw [hkeeps₃.bytes, hbytes₂, hmem₃]⟩) (by simp [Entry.target, hentry₃, he₁])
  refine ⟨(((hfault.trans hasked.toKeeps).trans hkeeps₂).trans hkeeps₃).trans hinstall, s₁, f, hask,
    hout₃, ?_, ?_⟩
  · exact (frameOf_page hl₁).trans habsent₁
  · intro r
    rw [hroles', hroles₃, hroles]

theorem FrameInv.loadPage (h : s.FrameInv P) (hl : s.frameOf P (.table pid top) = some l.frame)
    (habsent : s.target P l = none) (hload : s.loadPage K l = some s') :
    Keeps P s s' ∧ s'.target P l ≠ none := by
  obtain ⟨hkeeps, s₁, f, -, -, -, hroles⟩ := h.loadPage_roles hl habsent hload
  refine ⟨hkeeps, ?_⟩
  rw [← frameOf_page (hkeeps.tables _ _ _ hl), hroles, if_pos rfl]
  simp

/-- The flags of a present entry are set. -/
theorem FrameInv.setFlags (h : s.FrameInv P) (hl : s.frameOf P (.table pid top) = some l.frame)
    (hpresent : s.target P l ≠ none) {e : Entry} (he : e.target = s.target P l) :
    Keeps P s (s.setEntry P l e) ∧ (s.setEntry P l e).target P l = s.target P l := by
  obtain ⟨f, hf⟩ := Option.ne_none_iff_exists'.mp hpresent
  refine ⟨(h.installPage hl (Or.inl hf) (he.trans hf)).1, ?_⟩
  rw [target_setEntry, if_pos rfl, he]

theorem FrameInv.walk (h : s.FrameInv P) {r : Lookup} (htop : topLevel P va < NUM_ENTRIES)
    (hwalk : s.walk K va = some r) : ∃ s' l, r = .pte s' l ∧ Keeps P s s' ∧
      s'.frameOf P (.table s.currPid ⟨topLevel P va, htop⟩) = some l.frame ∧
      l.index = secondLevel va := by
  simp only [State.walk, Option.bind_eq_bind, Option.bind_eq_some_iff, htop, dite_true,
    Option.pure_def, Option.some.injEq] at hwalk
  obtain ⟨pd, hpd, s', hs', rfl⟩ := hwalk
  obtain ⟨hkeeps, hpresent⟩ : Keeps P s s' ∧
      s'.target P ⟨pd, ⟨topLevel P va, htop⟩⟩ ≠ none := by
    split at hs'
    · next hpresent =>
      obtain rfl := Option.some.inj hs'
      exact ⟨h.keeps_refl, by simp [target_eq_none_iff, hpresent]⟩
    · next habsent => exact h.loadTable hpd (by simp [target_eq_none_iff, habsent]) hs'
  obtain ⟨pt, hpt⟩ := Option.ne_none_iff_exists'.mp hpresent
  refine ⟨s', _, rfl, hkeeps, ?_, rfl⟩
  rw [frameOf_table (by rw [hkeeps.directories, hpd]), hpt, (target_eq_some_iff.mp hpt).2]

end State

end SystemProgramming.IdealIndirection
