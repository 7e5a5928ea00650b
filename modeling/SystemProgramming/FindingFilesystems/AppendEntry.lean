import SystemProgramming.FindingFilesystems.ReadAfterWrite

/-!
# Appending a directory entry

A new file is one entry more at the end of its directory.  The entry goes where the block
map of the directory puts its bytes, unless the direct blocks are exactly full.
-/

namespace SystemProgramming.FindingFilesystems

variable {G : Geometry}

/-- The directory `parent` has grown by an entry, its earlier bytes are still there, and all
its blocks are marked. -/
structure Appended (fs fs' : FileSystem G) (parent : ℕ) (entry : List UInt8) : Prop where
  size : (fs'.inodeRoot parent).size = (fs.inodeRoot parent).size + entry.length
  stored : ∀ k (hk : k < entry.length),
    fs'.fileByte parent ((fs.inodeRoot parent).size + k) = entry[k]
  earlier : ∀ b < (fs.inodeRoot parent).size, fs'.fileByte parent b = fs.fileByte parent b
  valid : ∀ b < (fs'.inodeRoot parent).size,
    0 ≤ fs'.fileBlock parent b ∧ fs'.fileBlock parent b < G.DATA_NUMBER
  used : ∀ z ∈ fs'.blocks parent, fs'.dataUsed z = true

/-- The creation stays inside the arrays and the data blocks, and where it succeeds it appends
the entry of the new file. -/
def CreateAppends (U : Utils G) (fs : FileSystem G) (path : String) : Prop :=
  ∃ fs' created, U.minixfsCreateInodeForPath fs path = some (fs', created) ∧
    ∀ i, created = some i → ∃ parent name, U.creation fs path = some (i, parent, name) ∧
      Appended fs fs' parent (List.ofFn (U.makeStringFromDirent name i))

/-- What the copy of the entry does to the bytes of the directory, before its size is set. -/
structure Placed (fs fs₁ : FileSystem G) (parent : ℕ) (entry : List UInt8) : Prop where
  size : (fs₁.inodeRoot parent).size = (fs.inodeRoot parent).size
  stored : ∀ k (hk : k < entry.length),
    fs₁.fileByte parent ((fs.inodeRoot parent).size + k) = entry[k]
  earlier : ∀ b < (fs.inodeRoot parent).size, fs₁.fileByte parent b = fs.fileByte parent b
  valid : ∀ b < (fs.inodeRoot parent).size + entry.length,
    0 ≤ fs₁.fileBlock parent b ∧ fs₁.fileBlock parent b < G.DATA_NUMBER

namespace FileSystem

variable {fs fs₁ : FileSystem G} {parent : ℕ} {entry : List UInt8} {z : ℤ}

theorem div_add_of_inside {size k : ℕ} (h : size % G.blockSize + k < G.blockSize) :
    (size + k) / G.blockSize = size / G.blockSize ∧
      (size + k) % G.blockSize = size % G.blockSize + k := by
  have hsum : size + k = G.blockSize * (size / G.blockSize) + (size % G.blockSize + k) := by
    rw [← Nat.add_assoc, Nat.div_add_mod]
  constructor
  · rw [hsum, Nat.mul_add_div G.blockSize_pos, Nat.div_eq_of_lt h, Nat.add_zero]
  · rw [hsum, Nat.mul_add_mod, Nat.mod_eq_of_lt h]

theorem div_lt_of_aligned {b size : ℕ} (hmod : size % G.blockSize = 0) (hb : b < size) :
    b / G.blockSize < size / G.blockSize := by
  apply (Nat.div_lt_iff_lt_mul G.blockSize_pos).mpr
  rwa [Nat.div_mul_cancel (Nat.dvd_of_mod_eq_zero hmod)]

/-- The blocks behind the direct ones have numbers in the indirect block. -/
theorem div_sub_lt {b size : ℕ} (hb : b ≤ size) (hlt : G.NUM_DIRECT_BLOCKS * G.blockSize < size)
    (hmax : size < (G.NUM_DIRECT_BLOCKS + G.NUM_INDIRECT_BLOCKS) * G.blockSize) :
    b / G.blockSize - G.NUM_DIRECT_BLOCKS < G.NUM_INDIRECT_BLOCKS := by
  have hdiv := (Nat.div_lt_iff_lt_mul G.blockSize_pos).mpr (hb.trans_lt hmax)
  have hpos := Nat.lt_of_mul_lt_mul_right (hlt.trans hmax)
  omega

theorem memcpy_of_put {data data' : Bytes} {o : ℕ} (hz : 0 ≤ z)
    (h : G.put data (z * G.blockSize + o) entry = some data') :
    data' = memcpy data ((z * G.blockSize).toNat + o) entry := by
  have hpos : (0 : ℤ) ≤ z * G.blockSize := Int.mul_nonneg hz (by omega)
  unfold Geometry.put at h
  split at h
  · next hnil => rw [hnil, memcpy_nil, ← Option.some.inj h]
  split at h
  · rw [← Option.some.inj h]
    congr 1
    omega
  · cases h

/-- The entry has been copied to its place in the block `z`, which is a new one or holds the
last bytes of the directory. -/
theorem WellFormed.placed_of_put (h : fs.WellFormed) {data : Bytes} (hz : 0 ≤ z)
    (hlt : z < G.DATA_NUMBER)
    (hinside : (fs.inodeRoot parent).size % G.blockSize + entry.length ≤ G.blockSize)
    (hput : G.put data (z * G.blockSize + ((fs.inodeRoot parent).size % G.blockSize : ℕ)) entry =
      some fs₁.dataRoot)
    (hsize : (fs₁.inodeRoot parent).size = (fs.inodeRoot parent).size)
    (hnew : ∀ b, b / G.blockSize = (fs.inodeRoot parent).size / G.blockSize →
      fs₁.fileBlock parent b = z)
    (hold : ∀ b < (fs.inodeRoot parent).size, fs₁.fileBlock parent b = fs.fileBlock parent b)
    (hdata : ∀ a, (∃ b < (fs.inodeRoot parent).size, G.blockOf a = fs.fileBlock parent b) →
      data a = fs.dataRoot a)
    (hbehind : ∀ b < (fs.inodeRoot parent).size, fs.fileBlock parent b = z →
      b % G.blockSize < (fs.inodeRoot parent).size % G.blockSize) :
    Placed fs fs₁ parent entry := by
  have hcopy := memcpy_of_put hz hput
  have hchanged := Geometry.put_changedOnly hinside hput
  refine ⟨hsize, ?_, ?_, ?_⟩
  · intro k hk
    obtain ⟨hd, hm⟩ := div_add_of_inside (show (fs.inodeRoot parent).size % G.blockSize + k < _ by
      omega)
    rw [fileByte, hnew _ hd, hm, hcopy, ← Nat.add_assoc]
    exact memcpy_inside _ _ _ hk
  · intro b hb
    have hvalid := h.valid _ (h.inUse_blockSlot (div_lt_blockCount hb))
    rw [slot_blockSlot] at hvalid
    have hblock := blockOf_offset hvalid.1 (Nat.mod_lt b G.blockSize_pos)
    rw [fileByte, hold b hb, fileByte, ← hdata _ ⟨b, hb, hblock⟩]
    by_cases hsame : fs.fileBlock parent b = z
    · rw [hcopy, hsame]
      apply memcpy_outside
      left
      exact Nat.add_lt_add_left (hbehind b hb hsame) _
    · apply hchanged
      rwa [hblock]
  · intro b hb
    rcases lt_or_ge b (fs.inodeRoot parent).size with hlt' | hge
    · rw [hold b hlt', ← slot_blockSlot]
      exact h.valid _ (h.inUse_blockSlot (div_lt_blockCount hlt'))
    · obtain ⟨k, rfl⟩ := Nat.exists_eq_add_of_le hge
      obtain ⟨hd, -⟩ := div_add_of_inside
        (show (fs.inodeRoot parent).size % G.blockSize + k < _ by omega)
      rw [hnew _ hd]
      exact ⟨hz, hlt⟩

end FileSystem

namespace Utils

variable {U : Utils G} {fs fs₁ : FileSystem G} {parent : ℕ} {entry : List UInt8}

open FileSystem

/-- The bytes of a directory lie in other blocks than those that can be allocated. -/
theorem fileBlock_not_free (h : fs.WellFormed) {b : ℕ} (hb : b < (fs.inodeRoot parent).size) :
    ¬ fs.Free (fs.fileBlock parent b) := by
  rw [← slot_blockSlot]
  exact h.not_free (h.inUse_blockSlot (div_lt_blockCount hb))

theorem fileBlock_ne_indirect (h : fs.WellFormed) {b : ℕ} (hb : b < (fs.inodeRoot parent).size)
    (hin : fs.InUse (.indirect parent)) : fs.fileBlock parent b ≠ (fs.inodeRoot parent).indirect := by
  intro heq
  rw [← slot_blockSlot] at heq
  have hslot := h.unique _ (.indirect parent) (h.inUse_blockSlot (div_lt_blockCount hb)) hin heq
  unfold blockSlot at hslot
  split at hslot <;> cases hslot

/-- Bytes of a directory in one block follow each other. -/
theorem mod_lt_of_fileBlock_eq (h : fs.WellFormed) {b c : ℕ} (hb : b < c)
    (hc : c / G.blockSize < G.blockCount (fs.inodeRoot parent).size)
    (heq : fs.fileBlock parent b = fs.fileBlock parent c) : b % G.blockSize < c % G.blockSize := by
  have hle : b / G.blockSize ≤ c / G.blockSize := Nat.div_le_div_right hb.le
  rw [← slot_blockSlot, ← slot_blockSlot] at heq
  have hslot := h.unique _ _ (h.inUse_blockSlot (hle.trans_lt hc)) (h.inUse_blockSlot hc) heq
  have hdiv : b / G.blockSize = c / G.blockSize := by
    unfold blockSlot at hslot
    split at hslot <;> split at hslot
    · simpa using hslot
    · cases hslot
    · cases hslot
    · simp only [Slot.entry.injEq, true_and] at hslot
      omega
  have hb' := Nat.div_add_mod b G.blockSize
  have hc' := Nat.div_add_mod c G.blockSize
  rw [hdiv] at hb'
  omega

theorem addEntry_direct_placed (hU : U.Correct) (h : fs.WellFormed)
    (hinside : (fs.inodeRoot parent).size % G.blockSize + entry.length ≤ G.blockSize)
    (hle : (fs.inodeRoot parent).size ≤ G.NUM_DIRECT_BLOCKS * G.blockSize)
    (hadd : U.addEntry fs parent entry = some (fs₁, true)) : Placed fs fs₁ parent entry := by
  simp only [addEntry, if_pos hle] at hadd
  split at hadd
  · next hremain =>
    split at hadd
    · cases hadd
    · next hne =>
      have hz := (hU.firstUnusedData fs).resolve_left hne
      generalize U.firstUnusedData fs = z at hz hadd
      obtain ⟨data, hput, hrest⟩ := Option.bind_eq_some_iff.mp hadd
      obtain ⟨node, hnode, hfs⟩ := Option.bind_eq_some_iff.mp hrest
      have hj : (fs.inodeRoot parent).size / G.blockSize < G.NUM_DIRECT_BLOCKS := by
        unfold Inode.setDirect at hnode
        split at hnode
        · assumption
        · cases hnode
      rw [Inode.setDirect_eq hj, Option.some.injEq] at hnode
      simp only [hU.setDataUsed, Option.pure_def, Option.some.injEq, Prod.mk.injEq, and_true] at hfs
      subst hnode hfs
      have hput' : G.put fs.dataRoot
          (z * G.blockSize + ((fs.inodeRoot parent).size % G.blockSize : ℕ)) entry = some data := by
        rw [hremain]
        simpa using hput
      refine h.placed_of_put hz.1 hz.2.1 hinside hput' (by simp) ?_ ?_ ?_ ?_
      · intro b hb
        rw [fileBlock_direct (hb ▸ hj)]
        simp [hb]
      · intro b hb
        have hlt := div_lt_of_aligned hremain hb
        rw [fileBlock_direct (hlt.trans hj), fileBlock_direct (hlt.trans hj)]
        simp [hlt.ne]
      · exact fun _ _ ↦ rfl
      · intro b hb heq
        exact absurd (heq ▸ hz) (fileBlock_not_free h hb)
  · next hremain =>
    obtain ⟨z, hat, hrest⟩ := Option.bind_eq_some_iff.mp hadd
    obtain ⟨data, hput, hfs⟩ := Option.bind_eq_some_iff.mp hrest
    obtain ⟨hj, hz⟩ := Inode.directAt_eq_some hat
    simp only [Option.pure_def, Option.some.injEq, Prod.mk.injEq, and_true] at hfs
    subst hfs
    have hlast := Geometry.last_lt_blockCount hremain
    have hblock : fs.fileBlock parent (fs.inodeRoot parent).size = z := by
      rw [fileBlock_direct hj, hz]
    have hvalid := h.valid _ (h.inUse_blockSlot hlast)
    rw [slot_blockSlot, hblock] at hvalid
    refine h.placed_of_put hvalid.1 hvalid.2 hinside hput rfl ?_ ?_ ?_ ?_
    · intro b hb
      rw [fileBlock_direct (hb ▸ hj), ← hz]
      simp [hb]
    · intro b hb
      have hlt := (Nat.div_le_div_right (c := G.blockSize) hb.le).trans_lt hj
      rw [fileBlock_direct hlt, fileBlock_direct hlt]
    · exact fun _ _ ↦ rfl
    · intro b hb heq
      exact mod_lt_of_fileBlock_eq h hb hlast (heq.trans hblock.symm)

/-- The last bytes of the directory lie in a block whose number is in the indirect one. -/
theorem addEntry_indirect_last_placed (h : fs.WellFormed)
    (hinside : (fs.inodeRoot parent).size % G.blockSize + entry.length ≤ G.blockSize)
    (hlt : G.NUM_DIRECT_BLOCKS * G.blockSize < (fs.inodeRoot parent).size)
    (hmax : (fs.inodeRoot parent).size < (G.NUM_DIRECT_BLOCKS + G.NUM_INDIRECT_BLOCKS) * G.blockSize)
    (hremain : (fs.inodeRoot parent).size % G.blockSize ≠ 0)
    (hadd : U.addEntry fs parent entry = some (fs₁, true)) : Placed fs fs₁ parent entry := by
  have hin : fs.InUse (.indirect parent) := h.indirect_ne _ (Geometry.lt_blockCount.mpr hlt)
  have hne : (fs.inodeRoot parent).indirect ≠ -1 := hin
  have hiz : 0 ≤ (fs.inodeRoot parent).indirect ∧ (fs.inodeRoot parent).indirect < G.DATA_NUMBER :=
    h.valid _ hin
  have hq : G.NUM_DIRECT_BLOCKS ≤ (fs.inodeRoot parent).size / G.blockSize :=
    (Nat.le_div_iff_mul_le G.blockSize_pos).mpr hlt.le
  have hk := div_sub_lt le_rfl hlt hmax
  simp only [addEntry, if_neg (Nat.not_le.mpr hlt), if_pos hmax.le, if_neg hne, if_pos hremain] at hadd
  obtain ⟨z, hload, hrest⟩ := Option.bind_eq_some_iff.mp hadd
  obtain ⟨data, hput, hfs⟩ := Option.bind_eq_some_iff.mp hrest
  simp only [Option.pure_def, Option.some.injEq, Prod.mk.injEq, and_true] at hfs
  subst hfs
  have hlast := Geometry.last_lt_blockCount hremain
  rw [Geometry.loadNumber_eq _ hiz.1 hiz.2 hk, Option.some.injEq] at hload
  have hblock : fs.fileBlock parent (fs.inodeRoot parent).size = z := by
    rw [fileBlock, dif_neg (by omega), hload]
  have hslot := h.inUse_blockSlot hlast
  have hvalid := h.valid _ hslot
  rw [slot_blockSlot, hblock] at hvalid
  have hz : (fs.inodeRoot parent).indirect ≠ z := by
    intro heq
    have hsame := h.unique _ (.indirect parent) hslot hin (by rw [slot_blockSlot, hblock, ← heq]; rfl)
    rw [blockSlot, dif_neg (by omega)] at hsame
    cases hsame
  have hchanged := Geometry.put_changedOnly hinside hput
  refine h.placed_of_put hvalid.1 hvalid.2 hinside hput rfl ?_ ?_ ?_ ?_
  · intro b hb
    rw [fileBlock, dif_neg (by omega), hb]
    exact (Geometry.number_of_changedOnly hiz.1 hk hchanged hz).trans hload
  · intro b hb
    unfold fileBlock
    split
    · rfl
    · exact Geometry.number_of_changedOnly hiz.1 (div_sub_lt hb.le hlt hmax) hchanged hz
  · exact fun _ _ ↦ rfl
  · intro b hb heq
    exact mod_lt_of_fileBlock_eq h hb hlast (heq.trans hblock.symm)

/-- The last block of the directory is full, and the number of a fresh one is stored in the
indirect block. -/
theorem addEntry_indirect_fresh_placed (hU : U.Correct) (h : fs.WellFormed)
    (hinside : (fs.inodeRoot parent).size % G.blockSize + entry.length ≤ G.blockSize)
    (hlt : G.NUM_DIRECT_BLOCKS * G.blockSize < (fs.inodeRoot parent).size)
    (hmax : (fs.inodeRoot parent).size < (G.NUM_DIRECT_BLOCKS + G.NUM_INDIRECT_BLOCKS) * G.blockSize)
    (hremain : (fs.inodeRoot parent).size % G.blockSize = 0)
    (hadd : U.addEntry fs parent entry = some (fs₁, true)) : Placed fs fs₁ parent entry := by
  have hin : fs.InUse (.indirect parent) := h.indirect_ne _ (Geometry.lt_blockCount.mpr hlt)
  have hne : (fs.inodeRoot parent).indirect ≠ -1 := hin
  have hiz : 0 ≤ (fs.inodeRoot parent).indirect := (h.valid _ hin).1
  have hq : G.NUM_DIRECT_BLOCKS ≤ (fs.inodeRoot parent).size / G.blockSize :=
    (Nat.le_div_iff_mul_le G.blockSize_pos).mpr hlt.le
  have hk := div_sub_lt le_rfl hlt hmax
  simp only [addEntry, if_neg (Nat.not_le.mpr hlt), if_pos hmax.le, if_neg hne,
    if_neg (not_not.mpr hremain)] at hadd
  split at hadd
  · cases hadd
  · next hfound =>
    have hz := (hU.firstUnusedData fs).resolve_left hfound
    generalize U.firstUnusedData fs = z at hz hadd
    obtain ⟨data, hstore, hrest⟩ := Option.bind_eq_some_iff.mp hadd
    obtain ⟨data', hput, hfs⟩ := Option.bind_eq_some_iff.mp hrest
    simp only [hU.setDataUsed, Option.pure_def, Option.some.injEq, Prod.mk.injEq, and_true] at hfs
    rw [hU.setDataUsed] at hput
    subst hfs
    have hput' : G.put data
        (z * G.blockSize + ((fs.inodeRoot parent).size % G.blockSize : ℕ)) entry = some data' := by
      rw [hremain]
      simpa using hput
    have hz' : (fs.inodeRoot parent).indirect ≠ z := by
      rintro rfl
      exact h.not_free hin hz
    have hstored := Geometry.storeNumber_changedOnly hk hstore
    have hchanged := Geometry.put_changedOnly hinside hput'
    refine h.placed_of_put hz.1 hz.2.1 hinside hput' rfl ?_ ?_ ?_ ?_
    · intro b hb
      rw [fileBlock, dif_neg (by omega), hb]
      exact (Geometry.number_of_changedOnly hiz hk hchanged hz').trans
        (Geometry.number_storeNumber_self hz.1 hz.2.1 hstore)
    · intro b hb
      have hblt := div_lt_of_aligned hremain hb
      unfold fileBlock
      split
      · rfl
      · exact (Geometry.number_of_changedOnly hiz (div_sub_lt hb.le hlt hmax) hchanged hz').trans
          (Geometry.number_storeNumber_of_ne (by omega) hstore)
    · rintro a ⟨b, hb, ha⟩
      apply hstored
      rw [ha]
      exact fileBlock_ne_indirect h hb hin
    · intro b hb heq
      exact absurd (heq ▸ hz) (fileBlock_not_free h hb)

/-- The last step, where the size is set and the new inode is initialised, leaves the bytes of
the directory. -/
theorem finishEntry_parent (U : Utils G) (fs : FileSystem G) {i : ℕ} (hne : i ≠ parent) :
    ((U.finishEntry fs parent i).inodeRoot parent).size =
        (fs.inodeRoot parent).size + G.FILE_NAME_ENTRY ∧ ∀ b,
      (U.finishEntry fs parent i).fileBlock parent b = fs.fileBlock parent b ∧
      (U.finishEntry fs parent i).fileByte parent b = fs.fileByte parent b := by
  have hnode : (U.finishEntry fs parent i).inodeRoot parent =
      { fs.inodeRoot parent with size := (fs.inodeRoot parent).size + G.FILE_NAME_ENTRY } := by
    simp [finishEntry, setInode_inodeRoot_of_ne hne.symm]
  refine ⟨by rw [hnode], fun b ↦ ?_⟩
  have hblock : (U.finishEntry fs parent i).fileBlock parent b = fs.fileBlock parent b := by
    rw [fileBlock, hnode]
    rfl
  refine ⟨hblock, ?_⟩
  rw [fileByte, hblock]
  rfl

/-- An entry of a directory of whole entries fits into its last block. -/
theorem entryFits_of_dvd (h : fs.WellFormed) (hentry : G.FILE_NAME_ENTRY ∣ G.blockSize)
    (hdir : G.FILE_NAME_ENTRY ∣ (fs.inodeRoot parent).size)
    (hmax : (fs.inodeRoot parent).size < (G.NUM_DIRECT_BLOCKS + G.NUM_INDIRECT_BLOCKS) * G.blockSize)
    (hne : (fs.inodeRoot parent).size ≠ G.NUM_DIRECT_BLOCKS * G.blockSize) :
    (fs.inodeRoot parent).EntryFits := by
  refine ⟨hne, hmax.ne, ?_, ?_⟩
  · obtain ⟨m, hm⟩ := (Nat.dvd_mod_iff hentry).mpr hdir
    obtain ⟨n, hn⟩ := hentry
    have hlt := Nat.mod_lt (fs.inodeRoot parent).size G.blockSize_pos
    rw [hm, hn] at hlt
    have hmn : m + 1 ≤ n := Nat.lt_of_mul_lt_mul_left hlt
    calc (fs.inodeRoot parent).size % G.blockSize + G.FILE_NAME_ENTRY
        = G.FILE_NAME_ENTRY * (m + 1) := by rw [hm, Nat.mul_succ]
      _ ≤ G.FILE_NAME_ENTRY * n := Nat.mul_le_mul_left _ hmn
      _ = G.blockSize := hn.symm
  · intro hrem hat
    obtain ⟨hj, hneg⟩ := Inode.directAt_eq_some hat
    exact h.direct_ne parent ⟨_, hj⟩ (Geometry.last_lt_blockCount hrem) hneg

theorem addEntry_placed (hU : U.Correct) (h : fs.WellFormed) (hfits : (fs.inodeRoot parent).EntryFits)
    (hlength : entry.length = G.FILE_NAME_ENTRY)
    (hmax : (fs.inodeRoot parent).size < (G.NUM_DIRECT_BLOCKS + G.NUM_INDIRECT_BLOCKS) * G.blockSize)
    (hadd : U.addEntry fs parent entry = some (fs₁, true)) : Placed fs fs₁ parent entry := by
  have hinside : (fs.inodeRoot parent).size % G.blockSize + entry.length ≤ G.blockSize := by
    rw [hlength]
    exact hfits.inside
  rcases le_or_gt (fs.inodeRoot parent).size (G.NUM_DIRECT_BLOCKS * G.blockSize) with hle | hlt
  · exact addEntry_direct_placed hU h hinside hle hadd
  · by_cases hremain : (fs.inodeRoot parent).size % G.blockSize = 0
    · exact addEntry_indirect_fresh_placed hU h hinside hlt hmax hremain hadd
    · exact addEntry_indirect_last_placed h hinside hlt hmax hremain hadd

/-- Where the direct blocks are exactly full, the number of the new block goes outside the
array. -/
theorem addEntry_full_direct (hU : U.Correct)
    (hfull : (fs.inodeRoot parent).size = G.NUM_DIRECT_BLOCKS * G.blockSize)
    (hfound : U.firstUnusedData fs ≠ -1) (hlength : entry.length = G.FILE_NAME_ENTRY) :
    U.addEntry fs parent entry = none := by
  have hz := (hU.firstUnusedData fs).resolve_left hfound
  obtain ⟨data, hput⟩ := Geometry.exists_put (o := 0) fs.dataRoot entry hz.1 hz.2.1
    (by simpa [hlength] using G.entry_le)
  rw [Nat.cast_zero, add_zero] at hput
  simp [addEntry, hfull, hfound, hput, Inode.setDirect, Nat.mul_div_cancel _ G.blockSize_pos]

theorem addEntry_full_disk (hfull : (fs.inodeRoot parent).size = G.NUM_DIRECT_BLOCKS * G.blockSize)
    (hnone : U.firstUnusedData fs = -1) : U.addEntry fs parent entry = some (fs, false) := by
  simp [addEntry, hfull, hnone]

end Utils

/-- The creation of a file appends an entry to its directory exactly where the direct blocks of
the directory are not exactly full, or where the disk is. -/
theorem createAppends_iff {U : Utils G} (hU : U.Correct)
    (hentry : G.FILE_NAME_ENTRY ∣ G.blockSize) {fs : FileSystem G} (h : fs.WellFormed) {path : String}
    (hdir : ∀ i parent name, U.creation fs path = some (i, parent, name) →
      G.FILE_NAME_ENTRY ∣ (fs.inodeRoot parent).size ∧
        (fs.inodeRoot parent).size < (G.NUM_DIRECT_BLOCKS + G.NUM_INDIRECT_BLOCKS) * G.blockSize) :
    CreateAppends U fs path ↔ ∀ i parent name, U.creation fs path = some (i, parent, name) →
      (fs.inodeRoot parent).size = G.NUM_DIRECT_BLOCKS * G.blockSize → U.firstUnusedData fs = -1 := by
  cases hcreation : U.creation fs path with
  | none =>
    simp only [reduceCtorEq, false_implies, implies_true, iff_true]
    exact ⟨fs, none, by simp [Utils.minixfsCreateInodeForPath, hcreation], by simp⟩
  | some c =>
    obtain ⟨i, parent, name⟩ := c
    obtain ⟨hdvd, hmax⟩ := hdir i parent name hcreation
    have hlength := List.length_ofFn (f := U.makeStringFromDirent name i)
    constructor
    · rintro ⟨fs', created, hcreate, -⟩ _ _ _ ⟨⟩ hfull
      by_contra hfound
      simp [Utils.minixfsCreateInodeForPath, hcreation,
        Utils.addEntry_full_direct hU hfull hfound hlength] at hcreate
    · intro hc
      by_cases hfull : (fs.inodeRoot parent).size = G.NUM_DIRECT_BLOCKS * G.blockSize
      · have hnone := hc i parent name rfl hfull
        exact ⟨fs, none, by simp [Utils.minixfsCreateInodeForPath, hcreation,
          Utils.addEntry_full_disk hfull hnone], by simp⟩
      have hfits := Utils.entryFits_of_dvd h hentry hdvd hmax hfull
      have hall : ∀ i parent name, U.creation fs path = some (i, parent, name) →
          (fs.inodeRoot parent).EntryFits := by
        intro i' parent' name' heq
        cases hcreation.symm.trans heq
        exact hfits
      obtain ⟨fs', created, hcreate, hinv, -, -⟩ :=
        Utils.minixfsCreateInodeForPath_spec hU h.inv hall
      refine ⟨fs', created, hcreate, ?_⟩
      rintro _ rfl
      simp only [Utils.minixfsCreateInodeForPath, hcreation, Option.bind_eq_bind,
        Option.bind_eq_some_iff] at hcreate
      obtain ⟨⟨fs₁, added⟩, hadd, hfinish⟩ := hcreate
      cases added with
      | false => simp at hfinish
      | true =>
        simp only [if_true, Option.pure_def, Option.some.injEq, Prod.mk.injEq] at hfinish
        obtain ⟨rfl, rfl⟩ := hfinish
        obtain ⟨-, hi, hparent⟩ := Utils.creation_eq_some hcreation
        have hne := hU.parent_ne fs path i parent hi hparent
        have hplaced := Utils.addEntry_placed hU h hfits hlength hmax hadd
        obtain ⟨hsize, hbytes⟩ := U.finishEntry_parent fs₁ hne
        rw [hplaced.size] at hsize
        refine ⟨parent, name, hcreation, hsize.trans (by rw [hlength]), ?_, ?_, ?_, ?_⟩
        · intro k hk
          rw [(hbytes _).2]
          exact hplaced.stored k hk
        · intro b hb
          rw [(hbytes b).2]
          exact hplaced.earlier b hb
        · intro b hb
          rw [hsize, ← hlength] at hb
          rw [(hbytes b).1]
          exact hplaced.valid b hb
        · rintro z ⟨s, -, hs, rfl⟩
          exact hinv.used s hs

theorem createAppends_second_block : CreateAppends smallUtils smallDisk "/c" := by
  have hcreation : ∀ i parent name, smallUtils.creation smallDisk "/c" = some (i, parent, name) →
      parent = 0 := by
    intro i parent name h
    obtain ⟨-, -, hparent⟩ := Utils.creation_eq_some h
    exact (Option.some.inj hparent).symm
  apply (createAppends_iff smallUtils_correct (by decide) smallDisk_wellFormed ?_).mpr
  · intro i parent name h hfull
    obtain rfl := hcreation i parent name h
    exact absurd hfull (by decide)
  · intro i parent name h
    obtain rfl := hcreation i parent name h
    exact ⟨by decide, by decide⟩

/-- A root directory with its two direct blocks, and one free block. -/
def rootDisk (size : ℕ) : FileSystem smallGeometry where
  inodeRoot
    | 0 => ⟨0, 0, 0o1200, 0, 0, 0, size, ![0, 1], -1⟩
    | _ => ⟨0, 0, 0, 0, 0, 0, 0, ![-1, -1], -1⟩
  dataRoot _ := 0
  dataUsed z := 0 ≤ z ∧ z < 7

theorem rootDisk_inUse {size : ℕ} {s : Slot smallGeometry} (h : (rootDisk size).InUse s) :
    s = .direct 0 0 ∨ s = .direct 0 1 := by
  cases s with
  | direct i j =>
    rcases i with _ | i
    · fin_cases j
      · exact Or.inl rfl
      · exact Or.inr rfl
    · fin_cases j <;> exact absurd rfl h
  | indirect i => rcases i with _ | i <;> exact absurd rfl h
  | entry i k => rcases i with _ | i <;> exact absurd rfl h.1

theorem rootDisk_wellFormed {size : ℕ} (hsize : size ≤ 8) : (rootDisk size).WellFormed where
  valid s hs := by
    obtain rfl | rfl := rootDisk_inUse hs
    · exact (by decide : (0 : ℤ) ≤ 0 ∧ (0 : ℤ) < 8)
    · exact (by decide : (0 : ℤ) ≤ 1 ∧ (1 : ℤ) < 8)
  used s hs := by
    obtain rfl | rfl := rootDisk_inUse hs <;> rfl
  unique s t hs ht heq := by
    obtain rfl | rfl := rootDisk_inUse hs <;> obtain rfl | rfl := rootDisk_inUse ht
    · rfl
    · cases heq
    · cases heq
    · rfl
  size_le i := by
    rcases i with _ | i
    · exact hsize.trans (by decide)
    · exact Nat.zero_le _
  direct_ne i j hj := by
    rcases i with _ | i
    · fin_cases j
      · exact (by decide : (0 : ℤ) ≠ -1)
      · exact (by decide : (1 : ℤ) ≠ -1)
    · exact absurd hj (show ¬ j.val < smallGeometry.blockCount 0 by simp)
  indirect_ne i h := by
    rcases i with _ | i
    · exact absurd (Geometry.lt_blockCount.mp h) (Nat.not_lt.mpr hsize)
    · exact absurd h (show ¬ 2 < smallGeometry.blockCount 0 by simp)

/-- The fifth entry of a directory whose four entries fill the direct blocks. -/
theorem create_outside_direct : smallUtils.Correct ∧ (rootDisk 8).WellFormed ∧
    smallUtils.creation (rootDisk 8) "/c" = some (3, 0, "c") ∧
    smallUtils.minixfsCreateInodeForPath (rootDisk 8) "/c" = none ∧
    ¬ CreateAppends smallUtils (rootDisk 8) "/c" := by
  have hnone : smallUtils.minixfsCreateInodeForPath (rootDisk 8) "/c" = none := rfl
  refine ⟨smallUtils_correct, rootDisk_wellFormed le_rfl, rfl, hnone, ?_⟩
  rintro ⟨fs', created, hcreate, -⟩
  cases hnone.symm.trans hcreate

end SystemProgramming.FindingFilesystems
