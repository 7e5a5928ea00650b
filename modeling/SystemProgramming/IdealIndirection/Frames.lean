import SystemProgramming.IdealIndirection.Model

/-!
# Frames and their roles

No frame has two roles, swap files belong to tables in use, and the TLB points into the
tables of the running process.  What a page holds, in memory or on disk, does not
change while the kernel moves pages and tables are filled.
-/

namespace SystemProgramming.IdealIndirection

open State

variable {P : Platform}

/-! ## Addresses -/

theorem pageOffset_eq (va : Addr32) : pageOffset va = va.toNat % 4096 := by
  rw [pageOffset, BitVec.toNat_and]
  exact Nat.and_two_pow_sub_one_eq_mod va.toNat 12

theorem pageAddress_toNat (va : Addr32) : (pageAddress va).toNat = 4096 * (va.toNat / 4096) := by
  have hlt : va.toNat / 4096 < 2 ^ 20 := by
    have hva := va.isLt
    omega
  have hdiv : (va.toNat &&& 0xFFFFF000) / 4096 = va.toNat / 4096 := by
    change _ / 2 ^ 12 = _ / 2 ^ 12
    rw [← Nat.shiftRight_eq_div_pow, Nat.shiftRight_and_distrib, Nat.shiftRight_eq_div_pow]
    refine (Nat.and_two_pow_sub_one_eq_mod (va.toNat / 2 ^ 12) 20).trans ?_
    exact Nat.mod_eq_of_lt hlt
  have hmod : (va.toNat &&& 0xFFFFF000) % 4096 = 0 := by
    change _ % 2 ^ 12 = 0
    rw [Nat.and_mod_two_pow]
    exact Nat.and_zero _
  rw [pageAddress, BitVec.toNat_and]
  change va.toNat &&& 0xFFFFF000 = _
  rw [← hdiv]
  omega

theorem pageAddress_eq_iff {va vb : Addr32} :
    pageAddress va = pageAddress vb ↔ va.toNat / 4096 = vb.toNat / 4096 := by
  rw [← BitVec.toNat_inj, pageAddress_toNat, pageAddress_toNat]
  omega

theorem topLevel_eq (va : Addr32) :
    topLevel P va = va.toNat / 4096 / 2 ^ (P.VIRTUAL_ADDR_SPACE - NUM_OFFSET_BITS - 12) := by
  have hsplit : 2 ^ (P.VIRTUAL_ADDR_SPACE - NUM_OFFSET_BITS) =
      4096 * 2 ^ (P.VIRTUAL_ADDR_SPACE - NUM_OFFSET_BITS - 12) := by
    have hle : 12 ≤ P.VIRTUAL_ADDR_SPACE - NUM_OFFSET_BITS := P.le_shift
    rw [show (4096 : ℕ) = 2 ^ 12 from rfl, ← pow_add]
    congr 1
    omega
  rw [topLevel, BitVec.toNat_ushiftRight, Nat.shiftRight_eq_div_pow, hsplit, Nat.div_div_eq_div_mul]

theorem secondLevel_val (va : Addr32) : (secondLevel va).val = va.toNat / 4096 % 1024 :=
  secondLevel_toNat va

/-- The two indices determine the page. -/
theorem page_eq_of_levels {va vb : Addr32} (htop : topLevel P va = topLevel P vb)
    (hsecond : secondLevel va = secondLevel vb) : pageAddress va = pageAddress vb := by
  rw [pageAddress_eq_iff]
  rw [topLevel_eq, topLevel_eq] at htop
  have hmod : va.toNat / 4096 % 1024 = vb.toNat / 4096 % 1024 := by
    rw [← secondLevel_val, ← secondLevel_val, hsecond]
  obtain ⟨c, hc⟩ : 2 ^ (P.VIRTUAL_ADDR_SPACE - NUM_OFFSET_BITS - 12) ∣ 2 ^ 10 := by
    apply Nat.pow_dvd_pow
    have hle := P.shift_le
    omega
  set d := 2 ^ (P.VIRTUAL_ADDR_SPACE - NUM_OFFSET_BITS - 12) with hd
  have hdiv : va.toNat / 4096 / 1024 = vb.toNat / 4096 / 1024 := by
    rw [show (1024 : ℕ) = d * c from hc, ← Nat.div_div_eq_div_mul, ← Nat.div_div_eq_div_mul, htop]
  omega

theorem topLevel_congr {va vb : Addr32} (h : pageAddress va = pageAddress vb) :
    topLevel P va = topLevel P vb := by
  rw [topLevel_eq, topLevel_eq, pageAddress_eq_iff.mp h]

theorem secondLevel_congr {va vb : Addr32} (h : pageAddress va = pageAddress vb) :
    secondLevel va = secondLevel vb := by
  apply Fin.ext
  rw [secondLevel_val, secondLevel_val, pageAddress_eq_iff.mp h]

/-- The bytes of an access lie on the page of its address. -/
theorem add_toNat {va : Addr32} {k : ℕ} (h : va.toNat % 4096 + k < 4096) :
    (va + BitVec.ofNat 32 k).toNat = va.toNat + k := by
  have hva := va.isLt
  rw [BitVec.toNat_add, BitVec.toNat_ofNat]
  omega

theorem pageAddress_add {va : Addr32} {k : ℕ} (h : va.toNat % 4096 + k < 4096) :
    pageAddress (va + BitVec.ofNat 32 k) = pageAddress va := by
  rw [pageAddress_eq_iff, add_toNat h]
  omega

theorem pageOffset_add {va : Addr32} {k : ℕ} (h : va.toNat % 4096 + k < 4096) :
    pageOffset (va + BitVec.ofNat 32 k) = pageOffset va + k := by
  rw [pageOffset_eq, pageOffset_eq, add_toNat h]
  omega

namespace State

variable {s s' : State}

/-! ## Entries -/

theorem entry_writeFrame_of_ne {l : Loc} {f : Frame} (h : l.frame ≠ f) (bytes : Bytes) :
    (s.writeFrame f bytes).entry P l = s.entry P l := by
  simp [entry, writeFrame, h]

theorem target_writeFrame_of_ne {l : Loc} {f : Frame} (h : l.frame ≠ f) (bytes : Bytes) :
    (s.writeFrame f bytes).target P l = s.target P l := by
  rw [target, entry_writeFrame_of_ne h, target]

theorem target_eq_some_iff {l : Loc} {f : Frame} :
    s.target P l = some f ↔ (s.entry P l).present = true ∧ (s.entry P l).baseAddr = f := by
  simp [target, Entry.target]

theorem target_eq_none_iff {l : Loc} : s.target P l = none ↔ (s.entry P l).present = false := by
  simp [target, Entry.target]

@[simp] theorem entry_setEntry_self (l : Loc) (e : Entry) :
    (s.setEntry P l e).entry P l = e := by
  simp [entry, setEntry, writeFrame]

theorem entry_setEntry_of_ne {l l' : Loc} (h : l' ≠ l) (e : Entry) :
    (s.setEntry P l e).entry P l' = s.entry P l' := by
  by_cases hf : l'.frame = l.frame
  · have hindex : l'.index.val ≠ l.index.val := fun hi ↦ h (Loc.ext hf (Fin.ext hi))
    simp only [entry, setEntry, writeFrame, hf, Function.update_self]
    exact P.layout.get_set_of_ne _ hindex e
  · exact entry_writeFrame_of_ne hf _

theorem target_setEntry (l l' : Loc) (e : Entry) :
    (s.setEntry P l e).target P l' = if l' = l then e.target else s.target P l' := by
  split
  · next h => rw [h, target, entry_setEntry_self]
  · next h => rw [target, entry_setEntry_of_ne h, target]

theorem mem_setEntry_of_ne {f : Frame} {l : Loc} (h : f ≠ l.frame) (e : Entry) :
    (s.setEntry P l e).mem f = s.mem f := by
  simp [setEntry, writeFrame, h]

/-- A zero-filled frame has no present entry. -/
theorem target_of_zero {l : Loc} (h : s.mem l.frame = fun _ ↦ 0) : s.target P l = none := by
  have hentry : s.entry P l = P.layout.decode fun _ ↦ 0 := by
    rw [entry, h]
    rfl
  simp [target, hentry, Entry.target, P.layout_zero]

/-! ## Roles -/

/-- Frames have one role, and swap files belong to tables in use. -/
structure FrameInv (P : Platform) (s : State) : Prop where
  unique : ∀ r r' f, s.frameOf P r = some f → s.frameOf P r' = some f → r = r'
  swap_table : ∀ l, s.swap l ≠ none → ∃ pid top, s.frameOf P (.table pid top) = some l.frame

/-- What a page holds, in its frame or in its swap file. -/
def pageBytes (P : Platform) (s : State) (pid : ℕ) (top second : Fin NUM_ENTRIES) : Bytes :=
  match s.frameOf P (.table pid top) with
  | none => fun _ ↦ 0
  | some pt =>
      match s.frameOf P (.page pid top second) with
      | some f => s.mem f
      | none => (s.swap ⟨pt, second⟩).getD fun _ ↦ 0

theorem frameOf_page {pid : ℕ} {top second : Fin NUM_ENTRIES} {pt : Frame}
    (h : s.frameOf P (.table pid top) = some pt) :
    s.frameOf P (.page pid top second) = s.target P ⟨pt, second⟩ := by
  change Option.bind (s.frameOf P (.table pid top)) _ = _
  rw [h]
  rfl

theorem frameOf_page_of_none {pid : ℕ} {top second : Fin NUM_ENTRIES}
    (h : s.frameOf P (.table pid top) = none) : s.frameOf P (.page pid top second) = none := by
  change Option.bind (s.frameOf P (.table pid top)) _ = _
  rw [h]
  rfl

theorem frameOf_table {pid : ℕ} {top : Fin NUM_ENTRIES} {pd : Frame}
    (h : s.pageDirectories pid = some pd) :
    s.frameOf P (.table pid top) = s.target P ⟨pd, top⟩ := by
  change Option.bind (s.pageDirectories pid) _ = _
  rw [h]
  rfl

/-- The roles are determined by the memory and the page directories. -/
theorem frameOf_congr (hmem : s'.mem = s.mem) (hdir : s'.pageDirectories = s.pageDirectories)
    (r : Role) : s'.frameOf P r = s.frameOf P r := by
  have htarget : ∀ l, s'.target P l = s.target P l := by
    intro l
    rw [target, target, entry, entry, hmem]
  cases r <;> simp only [frameOf, hdir, htarget]

theorem pageBytes_congr (hmem : s'.mem = s.mem) (hdir : s'.pageDirectories = s.pageDirectories)
    (hswap : s'.swap = s.swap) (pid : ℕ) (top second : Fin NUM_ENTRIES) :
    s'.pageBytes P pid top second = s.pageBytes P pid top second := by
  simp only [pageBytes, frameOf_congr hmem hdir, hmem, hswap]

theorem FrameInv.congr (h : s.FrameInv P) (hmem : s'.mem = s.mem)
    (hdir : s'.pageDirectories = s.pageDirectories) (hswap : s'.swap = s.swap) :
    s'.FrameInv P where
  unique r r' f hr hr' := by
    rw [frameOf_congr hmem hdir] at hr hr'
    exact h.unique r r' f hr hr'
  swap_table l hl := by
    rw [hswap] at hl
    obtain ⟨pid, top, ht⟩ := h.swap_table l hl
    exact ⟨pid, top, by rw [frameOf_congr hmem hdir, ht]⟩

/-- Writing a frame that is neither a directory nor a table changes no role. -/
theorem frameOf_writeFrame {f : Frame} (hdir : ∀ pid, s.pageDirectories pid ≠ some f)
    (htable : ∀ pid top, s.frameOf P (.table pid top) ≠ some f) (bytes : Bytes) (r : Role) :
    (s.writeFrame f bytes).frameOf P r = s.frameOf P r := by
  have hsame : ∀ pid top, (s.writeFrame f bytes).frameOf P (.table pid top) =
      s.frameOf P (.table pid top) := by
    intro pid top
    cases hpd : s.pageDirectories pid with
    | none => simp [frameOf, writeFrame, hpd]
    | some pd =>
        have hne : pd ≠ f := by
          rintro rfl
          exact hdir pid hpd
        rw [frameOf_table hpd, frameOf_table (s := s.writeFrame f bytes) hpd,
          target_writeFrame_of_ne hne]
  cases r with
  | directory pid => rfl
  | table pid top => exact hsame pid top
  | page pid top second =>
      cases ht : s.frameOf P (.table pid top) with
      | none => rw [frameOf_page_of_none ht, frameOf_page_of_none ((hsame pid top).trans ht)]
      | some pt =>
          have hne : pt ≠ f := by
            rintro rfl
            exact htable pid top ht
          rw [frameOf_page ht, frameOf_page ((hsame pid top).trans ht),
            target_writeFrame_of_ne hne]

/-- A table's entry decides the role of its own page only. -/
theorem FrameInv.frameOf_setEntry_table (h : s.FrameInv P) {pid : ℕ} {top : Fin NUM_ENTRIES}
    {l : Loc} (hl : s.frameOf P (.table pid top) = some l.frame) (e : Entry) (r : Role) :
    (s.setEntry P l e).frameOf P r =
      if r = .page pid top l.index then e.target else s.frameOf P r := by
  have hsame : ∀ pid' top', (s.setEntry P l e).frameOf P (.table pid' top') =
      s.frameOf P (.table pid' top') := by
    intro pid' top'
    cases hpd : s.pageDirectories pid' with
    | none => simp [frameOf, setEntry, writeFrame, hpd]
    | some pd =>
        have hne : pd ≠ l.frame := by
          rintro rfl
          exact Role.noConfusion (h.unique (.directory pid') (.table pid top) l.frame hpd hl)
        rw [frameOf_table hpd, frameOf_table (s := s.setEntry P l e) hpd, setEntry,
          target_writeFrame_of_ne hne]
  cases r with
  | directory pid' => rfl
  | table pid' top' => exact hsame pid' top'
  | page pid' top' second =>
      cases ht : s.frameOf P (.table pid' top') with
      | none =>
          have hne : Role.page pid' top' second ≠ .page pid top l.index := by
            rintro heq
            obtain ⟨rfl, rfl, -⟩ : pid' = pid ∧ top' = top ∧ _ := by simpa using heq
            simp [hl] at ht
          rw [if_neg hne, frameOf_page_of_none ht, frameOf_page_of_none ((hsame _ _).trans ht)]
      | some pt =>
          rw [frameOf_page ht, frameOf_page ((hsame _ _).trans ht), target_setEntry]
          have hiff : (⟨pt, second⟩ : Loc) = l ↔
              Role.page pid' top' second = .page pid top l.index := by
            constructor
            · rintro rfl
              obtain ⟨rfl, rfl⟩ : pid' = pid ∧ top' = top := by
                simpa using h.unique (.table pid' top') (.table pid top) pt ht hl
              rfl
            · intro heq
              obtain ⟨rfl, rfl, rfl⟩ : pid' = pid ∧ top' = top ∧ second = l.index := by
                simpa using heq
              obtain rfl : pt = l.frame := Option.some.inj (ht.symm.trans hl)
              rfl
          simp only [hiff]

/-- A directory's absent entry decides the role of its own table only. -/
theorem FrameInv.frameOf_setEntry_directory (h : s.FrameInv P) {pid : ℕ} {l : Loc}
    (hl : s.pageDirectories pid = some l.frame) (habsent : s.target P l = none) {e : Entry}
    (hzero : ∀ f, e.target = some f → f ≠ l.frame ∧ s.mem f = fun _ ↦ 0) (r : Role) :
    (s.setEntry P l e).frameOf P r =
      if r = .table pid l.index then e.target else s.frameOf P r := by
  have hsame : ∀ pid' top', (s.setEntry P l e).frameOf P (.table pid' top') =
      if Role.table pid' top' = .table pid l.index then e.target
      else s.frameOf P (.table pid' top') := by
    intro pid' top'
    cases hpd : s.pageDirectories pid' with
    | none =>
        have hne : Role.table pid' top' ≠ .table pid l.index := by
          intro heq
          obtain ⟨rfl, -⟩ : pid' = pid ∧ _ := by simpa using heq
          simp [hl] at hpd
        rw [if_neg hne]
        simp [frameOf, setEntry, writeFrame, hpd]
    | some pd =>
        rw [frameOf_table hpd, frameOf_table (s := s.setEntry P l e) hpd, target_setEntry]
        have hiff : (⟨pd, top'⟩ : Loc) = l ↔ Role.table pid' top' = .table pid l.index := by
          constructor
          · rintro rfl
            obtain rfl : pid' = pid := by
              simpa using h.unique (.directory pid') (.directory pid) pd hpd hl
            rfl
          · intro heq
            obtain ⟨rfl, rfl⟩ : pid' = pid ∧ top' = l.index := by simpa using heq
            obtain rfl : pd = l.frame := Option.some.inj (hpd.symm.trans hl)
            rfl
        simp only [hiff]
  have hold : s.frameOf P (.table pid l.index) = none := (frameOf_table hl).trans habsent
  cases r with
  | directory pid' => rfl
  | table pid' top' => exact hsame pid' top'
  | page pid' top' second =>
      rw [if_neg (by simp)]
      by_cases heq : Role.table pid' top' = .table pid l.index
      · obtain ⟨rfl, rfl⟩ : pid' = pid ∧ top' = l.index := by simpa using heq
        rw [frameOf_page_of_none hold]
        have hnew := (hsame pid' l.index).trans (if_pos rfl)
        cases hf : e.target with
        | none => exact frameOf_page_of_none (hnew.trans hf)
        | some f =>
            obtain ⟨hne, hmem⟩ := hzero f hf
            rw [frameOf_page (hnew.trans hf)]
            apply target_of_zero
            rw [mem_setEntry_of_ne hne, hmem]
      · have hnew := (hsame pid' top').trans (if_neg heq)
        cases ht : s.frameOf P (.table pid' top') with
        | none => rw [frameOf_page_of_none ht, frameOf_page_of_none (hnew.trans ht)]
        | some pt =>
            rw [frameOf_page ht, frameOf_page (hnew.trans ht), target_setEntry]
            have hne : (⟨pt, second⟩ : Loc) ≠ l := by
              rintro rfl
              exact Role.noConfusion (h.unique (.table pid' top') (.directory pid) pt ht hl)
            rw [if_neg hne]

/-- A frame without a role is given one. -/
theorem unique_of_update {r₀ : Role} {v : Option Frame}
    (h : ∀ r r' f, s.frameOf P r = some f → s.frameOf P r' = some f → r = r')
    (hr : ∀ r, s'.frameOf P r = if r = r₀ then v else s.frameOf P r)
    (hv : ∀ f, v = some f → ∀ r, s.frameOf P r ≠ some f) :
    ∀ r r' f, s'.frameOf P r = some f → s'.frameOf P r' = some f → r = r' := by
  intro r r' f hf hf'
  rw [hr] at hf hf'
  split at hf <;> split at hf'
  · next h₁ h₂ => rw [h₁, h₂]
  · exact absurd hf' (hv f hf r')
  · exact absurd hf (hv f hf' r)
  · exact h r r' f hf hf'

end State

end SystemProgramming.IdealIndirection
