import SystemProgramming.FindingFilesystems.AppendEntry
import SystemProgramming.FindingFilesystems.BlockMap

/-!
# Failing calls

A call that fails should leave the disk as it was.  The creation of a file allocates the
indirect block of its directory before it knows whether there is a block for the entry, and
the limit on the size of a file is checked on the low 32 bits of the sum.
-/

namespace SystemProgramming.FindingFilesystems

variable {G : Geometry}

namespace FileSystem

/-- The inode `parent` with the block `z` as its indirect block. -/
def withIndirect (fs : FileSystem G) (parent : ℕ) (z : ℤ) : FileSystem G :=
  (fs.setInode parent { fs.inodeRoot parent with indirect := z }).mark z

variable {fs : FileSystem G} {parent : ℕ} {y z : ℤ}

@[simp] theorem withIndirect_indirect :
    ((fs.withIndirect parent z).inodeRoot parent).indirect = z := by
  simp [withIndirect]

theorem free_withIndirect :
    (fs.withIndirect parent z).Free y ↔ y ≠ z ∧ fs.Free y := by
  have hused : (fs.withIndirect parent z).dataUsed y = false ↔ y ≠ z ∧ fs.dataUsed y = false := by
    by_cases hy : y = z <;> simp [withIndirect, mark, hy]
  rw [Free, hused, Free]
  tauto

end FileSystem

/-- A failing creation of `path` and a failing write to it change nothing. -/
structure FailsAtomically (U : Utils G) (fs : FileSystem G) (path : String) : Prop where
  create : ∀ fs', U.minixfsCreateInodeForPath fs path = some (fs', none) → fs' = fs
  write : ∀ buf off mtim atim fs' reply,
    U.minixfsWrite fs path buf off mtim atim = some (fs', reply) → reply.ret = -1 →
      fs' = fs ∧ reply.off = off

/-- The entry of a new file needs an indirect block and a block for itself, and one block is
free. -/
def FileSystem.OneBlockLeft (fs : FileSystem G) (parent : ℕ) : Prop :=
  G.NUM_DIRECT_BLOCKS * G.blockSize < (fs.inodeRoot parent).size ∧
    (fs.inodeRoot parent).size ≤ (G.NUM_DIRECT_BLOCKS + G.NUM_INDIRECT_BLOCKS) * G.blockSize ∧
    (fs.inodeRoot parent).indirect = -1 ∧ ∃! z, fs.Free z

namespace Utils

variable {U : Utils G} {fs fs' : FileSystem G} {parent : ℕ} {entry : List UInt8} {path : String}

open FileSystem

/-- After the only free block has become an indirect block, none is left. -/
theorem firstUnusedData_withIndirect (hU : U.Correct)
    (hfull : ∀ fs z, U.firstUnusedData fs = -1 → ¬ fs.Free z) (hfound : U.firstUnusedData fs ≠ -1) :
    U.firstUnusedData (fs.withIndirect parent (U.firstUnusedData fs)) = -1 ↔ ∃! z, fs.Free z := by
  have hfree := (hU.firstUnusedData fs).resolve_left hfound
  generalize U.firstUnusedData fs = z at hfree ⊢
  constructor
  · intro hnone
    refine ⟨z, hfree, fun y hy ↦ ?_⟩
    by_contra hne
    exact hfull _ y hnone (free_withIndirect.mpr ⟨hne, hy⟩)
  · rintro ⟨x, -, hx⟩
    rcases hU.firstUnusedData (fs.withIndirect parent z) with hnone | hsome
    · exact hnone
    · obtain ⟨hne, hy⟩ := free_withIndirect.mp hsome
      exact absurd ((hx _ hy).trans (hx _ hfree).symm) hne

theorem firstUnusedData_ne (hfull : ∀ fs z, U.firstUnusedData fs = -1 → ¬ fs.Free z)
    (h : ∃ z, fs.Free z) : U.firstUnusedData fs ≠ -1 := by
  obtain ⟨z, hz⟩ := h
  exact fun hnone ↦ hfull fs z hnone hz

/-- Where no block is found for the entry, the disk is as it was or the directory has got an
indirect block. -/
theorem addEntry_eq_false (hU : U.Correct) (hadd : U.addEntry fs parent entry = some (fs', false)) :
    fs' = fs ∨ (G.NUM_DIRECT_BLOCKS * G.blockSize < (fs.inodeRoot parent).size ∧
      (fs.inodeRoot parent).size ≤ (G.NUM_DIRECT_BLOCKS + G.NUM_INDIRECT_BLOCKS) * G.blockSize ∧
      (fs.inodeRoot parent).indirect = -1 ∧ U.firstUnusedData fs ≠ -1 ∧
      U.firstUnusedData (fs.withIndirect parent (U.firstUnusedData fs)) = -1) := by
  simp only [addEntry, hU.setDataUsed, Option.bind_eq_bind, Option.pure_def] at hadd
  split at hadd
  · split at hadd
    · split at hadd
      · cases hadd
        exact Or.inl rfl
      · simp [Option.bind_eq_some_iff] at hadd
    · simp [Option.bind_eq_some_iff] at hadd
  · next hbehind =>
    split at hadd
    · next hmax =>
      split at hadd
      · next hindirect =>
        split at hadd
        · cases hadd
          exact Or.inl rfl
        · next hfound =>
          split at hadd
          · next hnone => exact Or.inr ⟨by omega, hmax, hindirect, hfound, hnone⟩
          · simp [Option.bind_eq_some_iff] at hadd
      · split at hadd
        · simp [Option.bind_eq_some_iff] at hadd
        · split at hadd
          · cases hadd
            exact Or.inl rfl
          · simp [Option.bind_eq_some_iff] at hadd
    · cases hadd
      exact Or.inl rfl

theorem addEntry_oneBlockLeft (hU : U.Correct)
    (hfull : ∀ fs z, U.firstUnusedData fs = -1 → ¬ fs.Free z) (h : fs.OneBlockLeft parent) :
    U.addEntry fs parent entry =
      some (fs.withIndirect parent (U.firstUnusedData fs), false) := by
  obtain ⟨hlt, hmax, hindirect, hone⟩ := h
  have hfound := firstUnusedData_ne hfull hone.exists
  have hnone : U.firstUnusedData (fs.withIndirect parent (U.firstUnusedData fs)) = -1 :=
    (firstUnusedData_withIndirect hU hfull hfound).mpr hone
  unfold withIndirect at hnone
  simp only [addEntry, if_neg (Nat.not_le.mpr hlt), if_pos hmax, hindirect, if_true, hfound, if_false,
    hU.setDataUsed, hnone]
  rfl

/-- Where the creation fails, the disk is as it was or its only free block has become an indirect
block. -/
theorem create_eq_none (hU : U.Correct)
    (hfull : ∀ fs z, U.firstUnusedData fs = -1 → ¬ fs.Free z)
    (h : U.minixfsCreateInodeForPath fs path = some (fs', none)) :
    fs' = fs ∨ ∃ i parent name, U.creation fs path = some (i, parent, name) ∧
      fs.OneBlockLeft parent := by
  unfold minixfsCreateInodeForPath at h
  cases hcreation : U.creation fs path with
  | none =>
    rw [hcreation] at h
    cases h
    exact Or.inl rfl
  | some c =>
    obtain ⟨i, parent, name⟩ := c
    rw [hcreation] at h
    obtain ⟨⟨fs₁, added⟩, hadd, hfinish⟩ := Option.bind_eq_some_iff.mp h
    cases added with
    | true => cases hfinish
    | false =>
      cases hfinish
      rcases addEntry_eq_false hU hadd with hsame | ⟨hlt, hmax, hindirect, hfound, hnone⟩
      · exact Or.inl hsame
      · exact Or.inr ⟨i, parent, name, rfl, hlt, hmax, hindirect,
          (firstUnusedData_withIndirect hU hfull hfound).mp hnone⟩

/-- A directory that has got an indirect block is not as it was. -/
theorem withIndirect_ne {z : ℤ} (h : fs.OneBlockLeft parent) (hz : z ≠ -1) :
    fs.withIndirect parent z ≠ fs := by
  intro heq
  have hindirect : ((fs.withIndirect parent z).inodeRoot parent).indirect = z :=
    withIndirect_indirect
  rw [heq, h.2.2.1] at hindirect
  exact hz hindirect.symm

theorem size_setDirect {node node' : Inode G} {j : ℕ} {z : ℤ}
    (h : node.setDirect j z = some node') : node'.size = node.size := by
  unfold Inode.setDirect at h
  split at h
  · rw [← Option.some.inj h]
  · cases h

/-- The size is set after the entry has been added. -/
theorem addEntry_size (hU : U.Correct) {added : Bool}
    (hadd : U.addEntry fs parent entry = some (fs', added)) :
    (fs'.inodeRoot parent).size = (fs.inodeRoot parent).size := by
  simp only [addEntry, hU.setDataUsed] at hadd
  split_ifs at hadd
  all_goals simp only [Option.some.injEq, Prod.mk.injEq, Option.bind_eq_bind,
    Option.bind_eq_some_iff, Option.pure_def] at hadd
  · rw [← hadd.1]
  · obtain ⟨data, -, node, hnode, rfl, -⟩ := hadd
    simpa using size_setDirect hnode
  · obtain ⟨z, -, data, -, rfl, -⟩ := hadd
    rfl
  · rw [← hadd.1]
  · rw [← hadd.1]
    simp
  · obtain ⟨data, -, data', -, rfl, -⟩ := hadd
    simp
  · obtain ⟨z, -, data, -, rfl, -⟩ := hadd
    rfl
  · rw [← hadd.1]
  · obtain ⟨data, -, data', -, rfl, -⟩ := hadd
    rfl
  · rw [← hadd.1]

/-- A creation makes the directory longer. -/
theorem created_ne (hU : U.Correct) {i : ℕ}
    (h : U.minixfsCreateInodeForPath fs path = some (fs', some i)) :
    fs' ≠ fs ∧ (fs'.inodeRoot i).size = 0 ∧ U.getInode fs path = none := by
  unfold minixfsCreateInodeForPath at h
  cases hcreation : U.creation fs path with
  | none =>
    rw [hcreation] at h
    cases h
  | some c =>
    obtain ⟨j, parent, name⟩ := c
    rw [hcreation] at h
    obtain ⟨⟨fs₁, added⟩, hadd, hfinish⟩ := Option.bind_eq_some_iff.mp h
    cases added with
    | false => cases hfinish
    | true =>
      cases hfinish
      obtain ⟨hnone, hi, hparent⟩ := creation_eq_some hcreation
      have hne := hU.parent_ne fs path i parent hi hparent
      refine ⟨?_, ?_, hnone⟩
      · rintro rfl
        have hsize := addEntry_size hU hadd
        have hpos := G.entry_pos
        rw [(U.finishEntry_parent fs₁ hne).1] at hsize
        omega
      · rw [finishEntry, setInode_inodeRoot_self]
        exact (hU.initInode _ _).1

/-- A write to an inode fails only where its blocks cannot be allocated, before anything is
changed. -/
theorem writeInode_fails {i : ℕ} {buf : List UInt8} {off : ℤ} {mtim atim : ℕ} {reply : Reply}
    (h : U.writeInode fs path i buf off mtim atim = some (fs', reply)) (hret : reply.ret = -1) :
    U.minBlockcount fs path (G.blockCount (fs.inodeRoot i).size) = none ∧ fs' = fs ∧
      reply.off = off := by
  unfold writeInode at h
  cases hmin : U.minBlockcount fs path (G.blockCount (fs.inodeRoot i).size) with
  | none =>
    simp only [hmin, Option.some.injEq, Prod.mk.injEq] at h
    obtain ⟨rfl, rfl⟩ := h
    exact ⟨rfl, rfl, rfl⟩
  | some fs₁ =>
    simp only [hmin, Option.bind_eq_bind, Option.bind_eq_some_iff] at h
    obtain ⟨p, -, h⟩ := h
    split at h
    · simp only [Option.pure_def, Option.some.injEq, Prod.mk.injEq] at h
      rw [← h.2] at hret
      simp only at hret
      omega
    · simp only [Option.bind_eq_some_iff, Option.pure_def, Option.some.injEq, Prod.mk.injEq] at h
      obtain ⟨p', -, -, rfl⟩ := h
      simp only at hret
      omega

theorem writeInode_fails_of_none {i : ℕ} {buf : List UInt8} {off : ℤ} (mtim atim : ℕ)
    (h : U.minBlockcount fs path (G.blockCount (fs.inodeRoot i).size) = none) :
    U.writeInode fs path i buf off mtim atim = some (fs, ⟨-1, off, none⟩) := by
  simp [writeInode, h]

theorem create_oneBlockLeft (hU : U.Correct)
    (hfull : ∀ fs z, U.firstUnusedData fs = -1 → ¬ fs.Free z) {i : ℕ} {name : String}
    (hcreation : U.creation fs path = some (i, parent, name)) (h : fs.OneBlockLeft parent) :
    U.minixfsCreateInodeForPath fs path =
      some (fs.withIndirect parent (U.firstUnusedData fs), none) := by
  simp [minixfsCreateInodeForPath, hcreation, addEntry_oneBlockLeft hU hfull h]

end Utils

/-- Failing calls change nothing exactly where a directory without an indirect block does not need
it for the last free block, and where a file that a write has created is found by the helper that
allocates its blocks. -/
theorem failsAtomically_iff {U : Utils G} (hU : U.Correct)
    (hfull : ∀ fs z, U.firstUnusedData fs = -1 → ¬ fs.Free z) {fs : FileSystem G} {path : String} :
    FailsAtomically U fs path ↔
      (∀ i parent name, U.creation fs path = some (i, parent, name) → ¬ fs.OneBlockLeft parent) ∧
      ∀ fs₁ i, U.minixfsCreateInodeForPath fs path = some (fs₁, some i) →
        U.minBlockcount fs₁ path 0 ≠ none := by
  constructor
  · intro h
    constructor
    · intro i parent name hcreation hone
      have hfound := Utils.firstUnusedData_ne hfull hone.2.2.2.exists
      exact Utils.withIndirect_ne hone hfound
        (h.create _ (Utils.create_oneBlockLeft hU hfull hcreation hone))
    · intro fs₁ i hcreate hmin
      obtain ⟨hne, hsize, hget⟩ := Utils.created_ne hU hcreate
      have hwrite : U.minixfsWrite fs path [] (0 : ℕ) 0 0 = some (fs₁, ⟨-1, (0 : ℕ), none⟩) := by
        rw [Utils.minixfsWrite_eq (by simp), hget]
        simp only [hcreate, Option.bind_some]
        apply Utils.writeInode_fails_of_none
        rwa [hsize, Geometry.blockCount_zero]
      exact hne (h.write _ _ _ _ _ _ hwrite rfl).1
  · rintro ⟨hleft, hmin⟩
    have hcreate : ∀ fs', U.minixfsCreateInodeForPath fs path = some (fs', none) → fs' = fs := by
      intro fs' h
      rcases Utils.create_eq_none hU hfull h with hsame | ⟨i, parent, name, hcreation, hone⟩
      · exact hsame
      · exact absurd hone (hleft i parent name hcreation)
    refine ⟨hcreate, ?_⟩
    intro buf off mtim atim fs' reply h hret
    unfold Utils.minixfsWrite at h
    split at h
    · cases h
      exact ⟨rfl, rfl⟩
    · cases hget : U.getInode fs path with
      | some i =>
        rw [hget] at h
        exact (Utils.writeInode_fails h hret).2
      | none =>
        rw [hget] at h
        obtain ⟨⟨fs₁, created⟩, hcreated, h⟩ := Option.bind_eq_some_iff.mp h
        cases created with
        | none =>
          cases h
          exact ⟨hcreate _ hcreated, rfl⟩
        | some i =>
          have hnone := (Utils.writeInode_fails h hret).1
          rw [(Utils.created_ne hU hcreated).2.1, Geometry.blockCount_zero] at hnone
          exact absurd hnone (hmin fs₁ i hcreated)

theorem smallUtils_firstUnusedData {fs : FileSystem smallGeometry} {z : ℤ}
    (h : smallUtils.firstUnusedData fs = -1) : ¬ fs.Free z := by
  rintro ⟨hz, hlt, hfree⟩
  simp only [smallUtils] at h
  cases hfind : (List.range 8).find? fun z : ℕ ↦ !fs.dataUsed z with
  | none =>
    have hused := List.find?_eq_none.mp hfind z.toNat (List.mem_range.mpr (by
      have : z < 8 := hlt
      omega))
    rw [Int.toNat_of_nonneg hz, hfree] at hused
    exact hused rfl
  | some y =>
    rw [hfind] at h
    simp only [Option.elim_some] at h
    omega

theorem failsAtomically_smallDisk : FailsAtomically smallUtils smallDisk "/c" := by
  apply (failsAtomically_iff smallUtils_correct fun _ _ ↦ smallUtils_firstUnusedData).mpr
  constructor
  · rintro i parent name hcreation ⟨hlt, -⟩
    obtain ⟨-, -, hparent⟩ := Utils.creation_eq_some hcreation
    obtain rfl : 0 = parent := Option.some.inj hparent
    exact absurd hlt (by decide)
  · intro fs₁ i _
    simp [smallUtils]

/-- A write to the root directory sets its size behind its direct blocks.  The next file then
takes the last free block for the indirect block of the directory, and fails. -/
theorem create_fails_after_change : smallUtils.Correct ∧ (rootDisk 4).WellFormed ∧ ∃ fs fs',
    Run (StepOf smallUtils.step) (rootDisk 4) [.write "/" [9] 9 0 0] fs ∧
      smallUtils.minixfsCreateInodeForPath fs "/c" = some (fs', none) ∧
      (fs.inodeRoot 0).indirect = -1 ∧ (fs'.inodeRoot 0).indirect = 7 ∧
      fs.dataUsed 7 = false ∧ fs'.dataUsed 7 = true ∧ ¬ FailsAtomically smallUtils fs "/c" := by
  obtain ⟨fs, fs', hrun, hcreate, hnone, hindirect, hfree, hused⟩ : ∃ fs fs',
      Run (StepOf smallUtils.step) (rootDisk 4) [.write "/" [9] 9 0 0] fs ∧
        smallUtils.minixfsCreateInodeForPath fs "/c" = some (fs', none) ∧
        (fs.inodeRoot 0).indirect = -1 ∧ (fs'.inodeRoot 0).indirect = 7 ∧
        fs.dataUsed 7 = false ∧ fs'.dataUsed 7 = true := by
    refine ⟨(rootDisk 4).finishWrite 0 (memcpy (rootDisk 4).dataRoot 4 [9]) 10 0 0, _,
      Run.single ?_, rfl, ?_⟩
    · rfl
    · decide
  refine ⟨smallUtils_correct, rootDisk_wellFormed (by norm_num), fs, fs', hrun, hcreate, hnone,
    hindirect, hfree, hused, fun h ↦ ?_⟩
  rw [h.create fs' hcreate, hnone] at hindirect
  exact absurd hindirect (by decide)

/-- A write of `count` bytes at `off` is refused on every disk, and nothing changes. -/
def WriteRefused (G : Geometry) (off count : ℕ) : Prop :=
  ∀ (U : Utils G) (fs : FileSystem G) (path : String) (buf : List UInt8) (mtim atim : ℕ),
    buf.length = count → ∃ errno, U.minixfsWrite fs path buf off mtim atim =
      some (fs, ⟨-1, off, errno⟩)

theorem Geometry.maxFilesize_eq (G : Geometry) : G.maxFilesize =
    ((G.NUM_DIRECT_BLOCKS + G.NUM_INDIRECT_BLOCKS) * G.blockSize : ℕ) := by
  have hlt := G.size_lt
  apply Int.bmod_eq_of_le <;> omega

/-- The low 32 bits of the end of a write, as a signed number. -/
theorem bmod_end_lt_iff {max off count : ℕ} (hmax : max < 2 ^ 31) :
    (max : ℤ) < ((off : ℤ) + count).bmod (2 ^ 32) ↔
      max < (off + count) % 2 ^ 32 ∧ (off + count) % 2 ^ 32 < 2 ^ 31 := by
  have hmod : ((off : ℤ) + count) % (2 ^ 32 : ℕ) = ((off + count) % 2 ^ 32 : ℕ) := by
    push_cast
    rfl
  rw [Int.bmod_def, hmod]
  split <;> omega

/-- A write to a file that has its blocks is not refused where its end passes the check. -/
theorem writeInode_ret_ne {U : Utils G} {fs fs' fs₁ : FileSystem G} {path : String} {i : ℕ}
    {buf : List UInt8} {off : ℤ} {mtim atim : ℕ} {reply : Reply}
    (hmin : U.minBlockcount fs path (G.blockCount (fs.inodeRoot i).size) = some fs₁)
    (h : U.writeInode fs path i buf off mtim atim = some (fs', reply)) : reply.ret ≠ -1 := by
  intro hret
  cases (Utils.writeInode_fails h hret).1.symm.trans hmin

/-- A disk without files. -/
def FileSystem.empty (G : Geometry) : FileSystem G where
  inodeRoot _ := ⟨0, 0, 0, 0, 0, 0, 0, fun _ ↦ -1, -1⟩
  dataRoot _ := 0
  dataUsed _ := false

/-- A write whose end lies beyond the maximum file size is refused exactly where the low 32 bits of
the end, as a signed number, lie beyond it too. -/
theorem writeRefused_iff (G : Geometry) {off count : ℕ}
    (hmax : (G.NUM_DIRECT_BLOCKS + G.NUM_INDIRECT_BLOCKS) * G.blockSize < off + count) :
    WriteRefused G off count ↔
      (G.NUM_DIRECT_BLOCKS + G.NUM_INDIRECT_BLOCKS) * G.blockSize < (off + count) % 2 ^ 32 ∧
        (off + count) % 2 ^ 32 < 2 ^ 31 := by
  rw [← bmod_end_lt_iff G.size_lt, ← G.maxFilesize_eq]
  constructor
  · intro h
    by_contra hpass
    obtain ⟨errno, hwrite⟩ := h (.finding G 0) (.empty G) "" (List.replicate count 0) 0 0
      List.length_replicate
    rw [Utils.minixfsWrite, List.length_replicate, if_neg hpass] at hwrite
    exact writeInode_ret_ne rfl hwrite rfl
  · rintro h U fs path buf mtim atim rfl
    exact ⟨_, if_pos h⟩

theorem writeRefused_beyond_max : WriteRefused smallGeometry 12 1 :=
  (writeRefused_iff smallGeometry (by decide)).mpr ⟨by decide, by decide⟩

/-- A byte is written at the offset `2 ^ 32`, and the file gets that size. -/
theorem write_beyond_max_accepted : ∃ fs', smallUtils.minixfsWrite smallDisk "/b" [7] (2 ^ 32) 0 0 =
      some (fs', ⟨1, 2 ^ 32 + 1, none⟩) ∧ (fs'.inodeRoot 2).size = 2 ^ 32 + 1 ∧
    ¬ WriteRefused smallGeometry (2 ^ 32) 1 := by
  have hwrite : ∃ fs', smallUtils.minixfsWrite smallDisk "/b" [7] (2 ^ 32) 0 0 =
      some (fs', ⟨1, 2 ^ 32 + 1, none⟩) ∧ (fs'.inodeRoot 2).size = 2 ^ 32 + 1 := ⟨_, rfl, rfl⟩
  obtain ⟨fs', hwrite, hsize⟩ := hwrite
  refine ⟨fs', hwrite, hsize, fun h ↦ ?_⟩
  obtain ⟨errno, hrefused⟩ := h smallUtils smallDisk "/b" [7] 0 0 rfl
  cases hwrite.symm.trans hrefused

end SystemProgramming.FindingFilesystems
