import SystemProgramming.IdealIndirection.Paging

/-!
# Every process has a flat memory of its own

As long as every translated address has an entry in the page directory, the processes
read what they have written, whatever the kernel evicts.
-/

namespace SystemProgramming.IdealIndirection

/-- A memory for each process. -/
abbrev FlatMemory := ℕ → Addr32 → UInt8

variable {P : Platform}

/-- What a call does to the flat memories. -/
def FlatMemory.step (m : FlatMemory) (e : State.Event P) : FlatMemory :=
  match e.call, e.reply with
  | .addProcess pid, _ => Function.update m pid fun _ ↦ 0
  | .write pid va buffer, .done =>
      Function.update m pid fun a ↦ (buffer[(a - va).toNat]?).getD (m pid a)
  | _, _ => m

/-- The byte last written by each process at each address since it was added. -/
def lastWritten (events : List (State.Event P)) : FlatMemory :=
  events.foldl FlatMemory.step fun _ _ ↦ 0

namespace State

variable {s s' : State} {m : FlatMemory} {K : Kernel P} {va : Addr32} {l : Loc}

/-- The call gets as far as `get_table_entry`. -/
def Translates (P : Platform) (s : State) : Call → Prop
  | .read pid va _ => ∃ segs seg, s.segmentations pid = some segs ∧
      P.addressInSegmentations segs va = true ∧ va ≠ 0 ∧ P.findSegment segs va = some seg ∧
      seg.permissions ≠ 0 ∧ P.READ ≠ 0
  | .write pid va _ => ∃ segs seg, s.segmentations pid = some segs ∧
      P.addressInSegmentations segs va = true ∧ va ≠ 0 ∧ P.findSegment segs va = some seg ∧
      seg.permissions &&& P.WRITE ≠ 0
  | _ => False

/-- The page directory has an entry for the address, if it is translated. -/
def InDirectory (s : State) (e : Event P) : Prop :=
  s.Translates P e.call →
    match e.call with
    | .read _ va _ => topLevel P va < NUM_ENTRIES
    | .write _ va _ => topLevel P va < NUM_ENTRIES
    | _ => True

structure Inv (P : Platform) (s : State) : Prop where
  frames : s.FrameInv P
  tlb : ∀ va l, s.tlb (pageAddress va) = some l → ∃ h : topLevel P va < NUM_ENTRIES,
    s.frameOf P (.table s.currPid ⟨topLevel P va, h⟩) = some l.frame ∧ l.index = secondLevel va
  added : ∀ pid, s.segmentations pid ≠ none → s.pageDirectories pid ≠ none

/-- The pages of every process hold its flat memory. -/
def Agrees (P : Platform) (s : State) (m : FlatMemory) : Prop :=
  ∀ pid va (h : topLevel P va < NUM_ENTRIES), s.pageDirectories pid ≠ none →
    s.pageBytes P pid ⟨topLevel P va, h⟩ (secondLevel va) (pageOffset va) = m pid va

theorem Agrees.of_bytes (h : s.Agrees P m)
    (hbytes : ∀ pid top second, s'.pageBytes P pid top second = s.pageBytes P pid top second)
    (hdir : s'.pageDirectories = s.pageDirectories) : s'.Agrees P m := by
  intro pid va htop hadded
  rw [hbytes]
  exact h pid va htop (hdir ▸ hadded)

theorem Inv.of_keeps (h : s.Inv P) (hk : Keeps P s s') : s'.Inv P where
  frames := hk.inv
  tlb va l hl := by
    obtain ⟨htop, htable, hindex⟩ := h.tlb va l (by rwa [hk.tlb] at hl)
    exact ⟨htop, by rw [hk.currPid]; exact hk.tables _ _ _ htable, hindex⟩
  added pid hseg := by
    rw [hk.directories]
    exact h.added pid (by rwa [hk.segmentations] at hseg)

/-- Fields that no invariant is about are changed. -/
theorem Inv.congr (h : s.Inv P) (hmem : s'.mem = s.mem) (hswap : s'.swap = s.swap)
    (hdir : s'.pageDirectories = s.pageDirectories) (hseg : s'.segmentations = s.segmentations)
    (htlb : ∀ va l, s'.tlb (pageAddress va) = some l →
      s'.currPid = s.currPid ∧ s.tlb (pageAddress va) = some l) : s'.Inv P where
  frames := h.frames.congr hmem hdir hswap
  tlb va l hl := by
    obtain ⟨hpid, hold⟩ := htlb va l hl
    obtain ⟨htop, htable, hindex⟩ := h.tlb va l hold
    exact ⟨htop, by rw [hpid, frameOf_congr hmem hdir, htable], hindex⟩
  added pid hs := by
    rw [hdir]
    exact h.added pid (by rwa [hseg] at hs)

theorem Agrees.congr (h : s.Agrees P m) (hmem : s'.mem = s.mem) (hswap : s'.swap = s.swap)
    (hdir : s'.pageDirectories = s.pageDirectories) : s'.Agrees P m :=
  h.of_bytes (pageBytes_congr hmem hdir hswap) hdir

/-! ## The table entry of an address -/

/-- The state in which `get_table_entry` returns the entry at `l`. -/
structure Served (P : Platform) (s : State) (va : Addr32) (s' : State) (l : Loc) : Prop where
  inv : s'.Inv P
  bytes : ∀ pid top second, s'.pageBytes P pid top second = s.pageBytes P pid top second
  directories : s'.pageDirectories = s.pageDirectories
  table : ∃ h : topLevel P va < NUM_ENTRIES,
    s'.frameOf P (.table s.currPid ⟨topLevel P va, h⟩) = some l.frame
  index : l.index = secondLevel va
  present : s'.target P l ≠ none

theorem Inv.access (h : s.Inv P) (htop : topLevel P va < NUM_ENTRIES)
    (hl : s.frameOf P (.table s.currPid ⟨topLevel P va, htop⟩) = some l.frame)
    (hi : l.index = secondLevel va) {r : Lookup} (haccess : s.access K va l = some r) :
    ∃ s', r = .pte s' l ∧ Served P s va s' l := by
  simp only [State.access, Option.bind_eq_bind, Option.bind_eq_some_iff, Option.pure_def,
    Option.some.injEq] at haccess
  obtain ⟨s₁, hs₁, rfl⟩ := haccess
  obtain ⟨hkeeps, hpresent⟩ : Keeps P s s₁ ∧ s₁.target P l ≠ none := by
    split at hs₁
    · next hp =>
      obtain rfl := Option.some.inj hs₁
      exact ⟨h.frames.keeps_refl, by simp [target_eq_none_iff, hp]⟩
    · next ha => exact h.frames.loadPage hl (by simp [target_eq_none_iff, ha]) hs₁
  obtain ⟨hflags, htarget⟩ := hkeeps.inv.setFlags (hkeeps.tables _ _ _ hl) hpresent
    (e := { s₁.entry P l with accessed := true }) rfl
  have hall := hkeeps.trans hflags
  set s₂ := s₁.setEntry P l { s₁.entry P l with accessed := true } with hs₂
  have hinv := h.of_keeps hall
  have htable : s₂.frameOf P (.table s.currPid ⟨topLevel P va, htop⟩) = some l.frame :=
    hall.tables _ _ _ hl
  refine ⟨_, rfl, ⟨hinv.frames.congr rfl rfl rfl, fun vb l' hl' ↦ ?_, hinv.added⟩, ?_, ?_,
    ⟨htop, ?_⟩, hi, ?_⟩
  · by_cases heq : pageAddress vb = pageAddress va
    · obtain rfl : l = l' := by simpa [tlbAddPte, heq] using hl'
      have hlevel : topLevel P vb = topLevel P va := topLevel_congr heq
      refine ⟨hlevel ▸ htop, ?_, hi.trans (secondLevel_congr heq).symm⟩
      have hfin : (⟨topLevel P vb, hlevel ▸ htop⟩ : Fin NUM_ENTRIES) = ⟨topLevel P va, htop⟩ :=
        Fin.ext hlevel
      rw [hfin, ← htable, ← hall.currPid]
      exact frameOf_congr rfl rfl _
    · obtain ⟨htop', htable', hindex'⟩ := hinv.tlb vb l' (by simpa [tlbAddPte, heq] using hl')
      exact ⟨htop', (frameOf_congr rfl rfl _).trans htable', hindex'⟩
  · intro pid top second
    rw [← hall.bytes]
    exact pageBytes_congr rfl rfl rfl pid top second
  · exact hall.directories
  · exact (frameOf_congr rfl rfl _).trans htable
  · change s₂.target P l ≠ none
    rwa [htarget]

theorem Inv.getTableEntry (h : s.Inv P) (htop : topLevel P va < NUM_ENTRIES) {hit : Bool}
    {r : Lookup} (hget : s.getTableEntry K hit va = some r) :
    ∃ s' l, r = .pte s' l ∧ Served P s va s' l := by
  unfold State.getTableEntry at hget
  split at hget
  · next l hl =>
    have htlb : s.tlb (pageAddress va) = some l := by
      cases hit with
      | true => exact hl
      | false => cases hl
    obtain ⟨htop', htable, hindex⟩ := h.tlb va l htlb
    obtain ⟨s', rfl, hserved⟩ := h.access htop' htable hindex hget
    exact ⟨s', l, rfl, hserved⟩
  · simp only [Option.bind_eq_bind, Option.bind_eq_some_iff] at hget
    obtain ⟨r', hwalk, hr⟩ := hget
    have hmiss : s.mmuTlbMiss.Inv P := h.congr rfl rfl rfl rfl fun _ _ hl ↦ ⟨rfl, hl⟩
    obtain ⟨s₁, l, rfl, hkeeps, htable, hindex⟩ := hmiss.frames.walk htop hwalk
    have hinv := hmiss.of_keeps hkeeps
    have hpid : s₁.currPid = s.currPid := hkeeps.currPid
    obtain ⟨s', rfl, hserved⟩ := hinv.access htop (by rw [hpid]; exact htable) hindex hr
    refine ⟨s', l, rfl, hserved.inv, fun pid top second ↦ ?_,
      hserved.directories.trans hkeeps.directories, hpid ▸ hserved.table, hindex, hserved.present⟩
    rw [hserved.bytes, hkeeps.bytes]
    exact pageBytes_congr rfl rfl rfl pid top second

/-! ## Reading and writing -/

theorem Inv.switchTo (h : s.Inv P) (pid : ℕ) : (s.switchTo pid).Inv P := by
  unfold State.switchTo
  split
  · exact h.congr rfl rfl rfl rfl fun _ _ hl ↦ nomatch hl
  · exact h

theorem Agrees.switchTo (h : s.Agrees P m) (pid : ℕ) : (s.switchTo pid).Agrees P m := by
  unfold State.switchTo
  split
  · exact h.congr rfl rfl rfl
  · exact h

@[simp] theorem switchTo_currPid (pid : ℕ) : (s.switchTo pid).currPid = pid := by
  unfold State.switchTo
  split
  · rfl
  · next h => simpa using h

@[simp] theorem switchTo_segmentations (pid : ℕ) :
    (s.switchTo pid).segmentations = s.segmentations := by
  unfold State.switchTo
  split <;> rfl

@[simp] theorem switchTo_pageDirectories (pid : ℕ) :
    (s.switchTo pid).pageDirectories = s.pageDirectories := by
  unfold State.switchTo
  split <;> rfl

theorem Inv.segmentationFault (h : s.Inv P) : s.mmuRaiseSegmentationFault.Inv P :=
  h.congr rfl rfl rfl rfl fun _ _ hl ↦ ⟨rfl, hl⟩

theorem Agrees.segmentationFault (h : s.Agrees P m) : s.mmuRaiseSegmentationFault.Agrees P m :=
  h.congr rfl rfl rfl

/-- The page of a served address lies in the frame of its entry. -/
theorem Served.pageBytes_eq (h : Served P s va s' l) : ∃ htop : topLevel P va < NUM_ENTRIES,
    s'.frameOf P (.page s.currPid ⟨topLevel P va, htop⟩ (secondLevel va)) =
      some (s'.entry P l).baseAddr ∧
    s'.pageBytes P s.currPid ⟨topLevel P va, htop⟩ (secondLevel va) =
      s'.mem (s'.entry P l).baseAddr := by
  obtain ⟨htop, htable⟩ := h.table
  obtain ⟨f, hf⟩ := Option.ne_none_iff_exists'.mp h.present
  have htarget : s'.target P l = some (s'.entry P l).baseAddr := by
    rw [hf, (target_eq_some_iff.mp hf).2]
  have hpage : s'.frameOf P (.page s.currPid ⟨topLevel P va, htop⟩ (secondLevel va)) =
      some (s'.entry P l).baseAddr := by
    rw [frameOf_page htable, ← h.index]
    exact htarget
  exact ⟨htop, hpage, by simp only [pageBytes, htable, hpage]⟩

theorem Served.readBytes (h : Served P s va s' l) (hag : s'.Agrees P m)
    (hadded : s'.pageDirectories s.currPid ≠ none) {n : ℕ}
    (hn : n + va.toNat % PAGE_SIZE ≤ PAGE_SIZE) :
    s'.readBytes P l va n =
      (List.range n).map fun k ↦ m s.currPid (va + BitVec.ofNat 32 k) := by
  obtain ⟨htop, -, hbytes⟩ := h.pageBytes_eq
  refine List.map_congr_left fun k hk ↦ ?_
  have hpage : va.toNat % 4096 + k < 4096 := by
    have hlt := List.mem_range.mp hk
    simp only [PAGE_SIZE] at hn
    omega
  have hsame := pageAddress_add hpage
  have hlevel : topLevel P (va + BitVec.ofNat 32 k) = topLevel P va := topLevel_congr hsame
  rw [← hag s.currPid (va + BitVec.ofNat 32 k) (hlevel ▸ htop) hadded, pageOffset_add hpage,
    secondLevel_congr hsame, ← hbytes]
  simp only [hlevel]

theorem Inv.read (h : s.Inv P) (hag : s.Agrees P m) {hit : Bool} {pid n : ℕ} {reply : Reply}
    (hok : s.Translates P (.read pid va n) → topLevel P va < NUM_ENTRIES)
    (hread : s.mmuReadFromVirtualAddress K hit va pid n = some (s', reply)) :
    s'.Inv P ∧ s'.Agrees P m ∧ (reply = .segmentationFault ∨
      reply = .bytes ((List.range n).map fun k ↦ m pid (va + BitVec.ofNat 32 k))) := by
  simp only [mmuReadFromVirtualAddress, Option.bind_eq_bind, Option.bind_eq_some_iff,
    assert_eq_some, switchTo_segmentations] at hread
  obtain ⟨-, -, -, hn, segs, hsegs, hread⟩ := hread
  have hinv := h.switchTo pid
  have hag' := hag.switchTo pid
  split at hread
  · obtain ⟨rfl, rfl⟩ : (s.switchTo pid).mmuRaiseSegmentationFault = s' ∧ _ = reply := by
      simpa using hread
    exact ⟨hinv.segmentationFault, hag'.segmentationFault, Or.inl rfl⟩
  · next hin =>
    push Not at hin
    obtain ⟨seg, hseg, hread⟩ := Option.bind_eq_some_iff.mp hread
    split at hread
    · obtain ⟨rfl, rfl⟩ : (s.switchTo pid).mmuRaiseSegmentationFault = s' ∧ _ = reply := by
        simpa using hread
      exact ⟨hinv.segmentationFault, hag'.segmentationFault, Or.inl rfl⟩
    · next hperm =>
      push Not at hperm
      have htop := hok ⟨segs, seg, hsegs, by simpa using hin.1, hin.2, hseg, hperm⟩
      obtain ⟨r, hget, hread⟩ := Option.bind_eq_some_iff.mp hread
      obtain ⟨s₁, l, rfl, hserved⟩ := hinv.getTableEntry htop hget
      obtain ⟨rfl, rfl⟩ : s₁ = s' ∧ _ = reply := by simpa using hread
      have hag₁ := hag'.of_bytes hserved.bytes hserved.directories
      refine ⟨hserved.inv, hag₁, Or.inr ?_⟩
      have hadded : s₁.pageDirectories (s.switchTo pid).currPid ≠ none := by
        rw [hserved.directories, switchTo_currPid, switchTo_pageDirectories]
        exact h.added pid (by simp [hsegs])
      rw [hserved.readBytes hag₁ hadded hn, switchTo_currPid]

/-- Copying a buffer into a page changes the flat memory at the buffer's addresses. -/
theorem memcpy_page {buffer : List UInt8} (hn : buffer.length + va.toNat % 4096 ≤ 4096)
    {a : Addr32} (hpage : pageAddress a = pageAddress va) (bytes : Bytes) :
    memcpy bytes (pageOffset va) buffer (pageOffset a) =
      (buffer[(a - va).toNat]?).getD (bytes (pageOffset a)) := by
  have hsame := pageAddress_eq_iff.mp hpage
  have ha := a.isLt
  have hva := va.isLt
  rw [pageOffset_eq, pageOffset_eq]
  by_cases hle : va.toNat % 4096 ≤ a.toNat % 4096
  · have hsub : (a - va).toNat = a.toNat % 4096 - va.toNat % 4096 := by
      rw [BitVec.toNat_sub]
      omega
    simp only [memcpy, hle, if_true, hsub]
  · have hout : buffer.length ≤ (a - va).toNat := by
      rw [BitVec.toNat_sub]
      omega
    simp only [memcpy, hle, if_false, List.getElem?_eq_none hout, Option.getD_none]

/-- An address on another page is not written. -/
theorem buffer_other_page {buffer : List UInt8} (hn : buffer.length + va.toNat % 4096 ≤ 4096)
    {a : Addr32} (hpage : pageAddress a ≠ pageAddress va) : buffer[(a - va).toNat]? = none := by
  apply List.getElem?_eq_none
  by_contra hlt
  push Not at hlt
  apply hpage
  rw [pageAddress_eq_iff]
  have ha := a.isLt
  have hva := va.isLt
  rw [BitVec.toNat_sub] at hlt
  omega

/-- A write marks the entry and changes the page, and every frame keeps its role. -/
theorem Served.writeBytes_roles (h : Served P s va s' l) (buffer : List UInt8) :
    ∃ (s₁ : State) (f : Frame) (htop : topLevel P va < NUM_ENTRIES), Keeps P s' s₁ ∧
      s₁.frameOf P (.table s.currPid ⟨topLevel P va, htop⟩) = some l.frame ∧
      s₁.frameOf P (.page s.currPid ⟨topLevel P va, htop⟩ (secondLevel va)) = some f ∧
      (∀ bytes r, (s₁.writeFrame f bytes).frameOf P r = s₁.frameOf P r) ∧
      s'.writeBytes P l va buffer =
        s₁.writeFrame f (memcpy (s₁.mem f) (pageOffset va) buffer) := by
  obtain ⟨htop, htable⟩ := h.table
  set e : Entry := { s'.entry P l with dirty := true } with he
  obtain ⟨hflags, htarget⟩ := h.inv.frames.setFlags htable h.present (e := e) rfl
  set s₁ := s'.setEntry P l e with hs₁
  have htable₁ : s₁.frameOf P (.table s.currPid ⟨topLevel P va, htop⟩) = some l.frame :=
    hflags.tables _ _ _ htable
  have hbase : (s₁.entry P l).baseAddr = (s'.entry P l).baseAddr := by
    rw [hs₁, entry_setEntry_self, he]
  obtain ⟨_, hpage, _⟩ := h.pageBytes_eq
  set f := (s'.entry P l).baseAddr with hf
  have hpage₁ : s₁.frameOf P (.page s.currPid ⟨topLevel P va, htop⟩ (secondLevel va)) = some f := by
    rw [frameOf_page htable₁, ← h.index]
    change s₁.target P l = _
    rw [htarget, ← hpage, frameOf_page htable, ← h.index]
  have hroles : ∀ bytes r, (s₁.writeFrame f bytes).frameOf P r = s₁.frameOf P r := fun bytes ↦
    frameOf_writeFrame
      (fun pid hd ↦ Role.noConfusion (hflags.inv.unique (.directory pid) _ f hd hpage₁))
      (fun pid top ht ↦ Role.noConfusion (hflags.inv.unique _ _ f ht hpage₁)) bytes
  refine ⟨s₁, f, htop, hflags, htable₁, hpage₁, hroles, ?_⟩
  unfold State.writeBytes
  simp only [← he, ← hs₁, hbase]

theorem Served.writeBytes (h : Served P s va s' l) (hag : s'.Agrees P m) {buffer : List UInt8}
    (hn : buffer.length + va.toNat % 4096 ≤ 4096) :
    (s'.writeBytes P l va buffer).Inv P ∧ (s'.writeBytes P l va buffer).Agrees P
      (Function.update m s.currPid fun a ↦ (buffer[(a - va).toNat]?).getD (m s.currPid a)) := by
  obtain ⟨s₁, f, htop, hflags, htable₁, hpage₁, hroles, hwrite⟩ := h.writeBytes_roles buffer
  set s₂ := s₁.writeFrame f (memcpy (s₁.mem f) (pageOffset va) buffer) with hs₂
  have hinv₁ := h.inv.of_keeps hflags
  have hag₁ := hag.of_bytes hflags.bytes hflags.directories
  rw [hwrite]
  constructor
  · refine ⟨⟨fun r r' f' hr hr' ↦ ?_, fun l' hl' ↦ ?_⟩, fun vb l' hl' ↦ ?_, hinv₁.added⟩
    · rw [hroles] at hr hr'
      exact hinv₁.frames.unique r r' f' hr hr'
    · obtain ⟨pid, top, ht⟩ := hinv₁.frames.swap_table l' hl'
      exact ⟨pid, top, (hroles _ _).trans ht⟩
    · obtain ⟨htop', ht, hi⟩ := hinv₁.tlb vb l' hl'
      exact ⟨htop', (hroles _ _).trans ht, hi⟩
  · intro pid a hlevel hadded
    have hold := hag₁ pid a hlevel hadded
    by_cases heq : pid = s.currPid ∧ pageAddress a = pageAddress va
    · obtain ⟨rfl, hpa⟩ := heq
      have hfin : (⟨topLevel P a, hlevel⟩ : Fin NUM_ENTRIES) = ⟨topLevel P va, htop⟩ :=
        Fin.ext (topLevel_congr hpa)
      rw [hfin, secondLevel_congr hpa] at hold ⊢
      have hnew : s₂.pageBytes P s.currPid ⟨topLevel P va, htop⟩ (secondLevel va) =
          memcpy (s₁.mem f) (pageOffset va) buffer := by
        simp only [pageBytes, hs₂, hroles, htable₁, hpage₁]
        exact Function.update_self _ _ _
      have hprev : s₁.pageBytes P s.currPid ⟨topLevel P va, htop⟩ (secondLevel va) = s₁.mem f := by
        simp only [pageBytes, htable₁, hpage₁]
      rw [hnew, memcpy_page hn hpa, Function.update_self, ← hold, hprev]
    · have hsame : s₂.pageBytes P pid ⟨topLevel P a, hlevel⟩ (secondLevel a) =
          s₁.pageBytes P pid ⟨topLevel P a, hlevel⟩ (secondLevel a) := by
        simp only [pageBytes, hs₂, hroles]
        cases s₁.frameOf P (.table pid ⟨topLevel P a, hlevel⟩) with
        | none => rfl
        | some pt =>
            cases hpg : s₁.frameOf P (.page pid ⟨topLevel P a, hlevel⟩ (secondLevel a)) with
            | none => rfl
            | some f' =>
                have hne : f' ≠ f := by
                  rintro rfl
                  have hrole := hflags.inv.unique _ _ f' hpg hpage₁
                  obtain ⟨rfl, hlev, hsec⟩ : pid = s.currPid ∧ topLevel P a = topLevel P va ∧
                      secondLevel a = secondLevel va := by simpa using hrole
                  exact heq ⟨rfl, page_eq_of_levels hlev hsec⟩
                simp [State.writeFrame, hne]
      rw [hsame, hold]
      by_cases hpid : pid = s.currPid
      · subst hpid
        rw [Function.update_self, buffer_other_page hn fun hpa ↦ heq ⟨rfl, hpa⟩, Option.getD_none]
      · rw [Function.update_of_ne hpid]

theorem Inv.write (h : s.Inv P) (hag : s.Agrees P m) {hit : Bool} {pid : ℕ} {buffer : List UInt8}
    {reply : Reply} (hok : s.Translates P (.write pid va buffer) → topLevel P va < NUM_ENTRIES)
    (hwrite : s.mmuWriteToVirtualAddress K hit va pid buffer = some (s', reply)) :
    s'.Inv P ∧ (reply = .segmentationFault ∧ s'.Agrees P m ∨ reply = .done ∧ s'.Agrees P
      (Function.update m pid fun a ↦ (buffer[(a - va).toNat]?).getD (m pid a))) := by
  simp only [mmuWriteToVirtualAddress, Option.bind_eq_bind, Option.bind_eq_some_iff,
    assert_eq_some, switchTo_segmentations] at hwrite
  obtain ⟨-, -, -, hn, segs, hsegs, hwrite⟩ := hwrite
  have hinv := h.switchTo pid
  have hag' := hag.switchTo pid
  have hfault : some ((s.switchTo pid).mmuRaiseSegmentationFault, Reply.segmentationFault) =
      some (s', reply) → s'.Inv P ∧ reply = .segmentationFault ∧ s'.Agrees P m := by
    intro heq
    obtain ⟨rfl, rfl⟩ : (s.switchTo pid).mmuRaiseSegmentationFault = s' ∧ _ = reply := by
      simpa using heq
    exact ⟨hinv.segmentationFault, rfl, hag'.segmentationFault⟩
  split at hwrite
  · obtain ⟨hi, hrest⟩ := hfault hwrite
    exact ⟨hi, Or.inl hrest⟩
  · next hin =>
    push Not at hin
    split at hwrite
    · obtain ⟨hi, hrest⟩ := hfault hwrite
      exact ⟨hi, Or.inl hrest⟩
    · next seg hseg =>
      split at hwrite
      · obtain ⟨hi, hrest⟩ := hfault hwrite
        exact ⟨hi, Or.inl hrest⟩
      · next hperm =>
        have htop := hok ⟨segs, seg, hsegs, by simpa using hin.1, hin.2, hseg, hperm⟩
        obtain ⟨r, hget, hwrite⟩ := Option.bind_eq_some_iff.mp hwrite
        obtain ⟨s₁, l, rfl, hserved⟩ := hinv.getTableEntry htop hget
        obtain ⟨rfl, rfl⟩ : s₁.writeBytes P l va buffer = s' ∧ _ = reply := by simpa using hwrite
        have hag₁ := hag'.of_bytes hserved.bytes hserved.directories
        have hresult := hserved.writeBytes hag₁ hn
        rw [switchTo_currPid] at hresult
        exact ⟨hresult.1, Or.inr ⟨rfl, hresult.2⟩⟩

end State

end SystemProgramming.IdealIndirection
