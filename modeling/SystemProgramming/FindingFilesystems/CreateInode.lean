import SystemProgramming.FindingFilesystems.Ownership

/-!
# Creating an inode

The entry of a new file goes to the last block of its directory.  The references stay
sound as long as that block lies inside one of the two ranges of the block map.
-/

namespace SystemProgramming.FindingFilesystems

variable {G : Geometry}

/-- `fs'` is `fs` after some of the first `n` direct blocks of the inode `i` have been
allocated. -/
structure FillsDirect (fs fs' : FileSystem G) (i n : ℕ) : Prop where
  inode_ne : ∀ k, k ≠ i → fs'.inodeRoot k = fs.inodeRoot k
  inode : fs'.inodeRoot i = { fs.inodeRoot i with direct := (fs'.inodeRoot i).direct }
  direct : ∀ j, (fs'.inodeRoot i).direct j = (fs.inodeRoot i).direct j ∨
    j < n ∧ (fs.inodeRoot i).direct j = -1 ∧ fs.Free ((fs'.inodeRoot i).direct j)
  distinct : ∀ j k, fs.Free ((fs'.inodeRoot i).direct j) →
    (fs'.inodeRoot i).direct j = (fs'.inodeRoot i).direct k → j = k
  used : ∀ z, fs'.dataUsed z = true ↔
    fs.dataUsed z = true ∨ fs.Free z ∧ ∃ j, (fs'.inodeRoot i).direct j = z
  data : ∀ a, (∀ j, fs.Free ((fs'.inodeRoot i).direct j) →
    (fs'.inodeRoot i).direct j ≠ G.blockOf a) → fs'.dataRoot a = fs.dataRoot a

namespace FileSystem

/-- The inode `i` has `n` blocks. -/
def Covers (fs : FileSystem G) (i n : ℕ) : Prop :=
  (∀ j : Fin G.NUM_DIRECT_BLOCKS, j < n → (fs.inodeRoot i).direct j ≠ -1) ∧
    (G.NUM_DIRECT_BLOCKS < n →
      (fs.inodeRoot i).indirect ≠ -1 ∧ n ≤ G.blockCount (fs.inodeRoot i).size)

end FileSystem

/-- The documented behaviour of the helpers. -/
structure Utils.Correct (U : Utils G) : Prop where
  setDataUsed : ∀ fs z, U.setDataUsed fs z = fs.mark z
  firstUnusedData : ∀ fs, U.firstUnusedData fs = -1 ∨ fs.Free (U.firstUnusedData fs)
  /-- The inode of a directory is not unused. -/
  parent_ne : ∀ fs path i parent, U.firstUnusedInode fs = some i →
    (U.parentDirectory fs path).1 = some parent → i ≠ parent
  initInode : ∀ parent node, (U.initInode parent node).size = 0 ∧
    (∀ j, (U.initInode parent node).direct j = -1) ∧ (U.initInode parent node).indirect = -1
  minBlockcount_zero : ∀ fs fs' path, U.minBlockcount fs path 0 = some fs' → fs' = fs
  minBlockcount_covered : ∀ fs path i n, U.getInode fs path = some i → fs.Covers i n →
    U.minBlockcount fs path n = some fs
  minBlockcount_direct : ∀ fs fs' path i n, fs.Owned → U.getInode fs path = some i →
    n ≤ G.NUM_DIRECT_BLOCKS → U.minBlockcount fs path n = some fs' → FillsDirect fs fs' i n

namespace FileSystem

variable {fs fs' : FileSystem G} {i : ℕ} {node : Inode G} {z : ℤ}

theorem slot_setInode_of_ne {s : Slot G} (h : s.inode ≠ i) :
    (fs.setInode i node).slot s = fs.slot s := by
  cases s <;> simp only [Slot.inode] at h <;> simp [slot, setInode_inodeRoot_of_ne h]

theorem inUse_setInode_of_ne {s : Slot G} (h : s.inode ≠ i) :
    (fs.setInode i node).InUse s ↔ fs.InUse s := by
  cases s <;> simp only [Slot.inode] at h <;> simp [InUse, setInode_inodeRoot_of_ne h]

/-- The size of an inode may change as long as no further entry of its indirect block
comes into use. -/
theorem Inv.resize (h : fs.Inv) (hdirect : node.direct = (fs.inodeRoot i).direct)
    (hindirect : node.indirect = (fs.inodeRoot i).indirect)
    (hsize : G.blockCount node.size ≤
      max G.NUM_DIRECT_BLOCKS (G.blockCount (fs.inodeRoot i).size)) :
    (fs.setInode i node).Inv := by
  have hold := h.sized i
  have hmax := hold.blockCount_le
  refine ⟨h.shrink (fun _ hz ↦ hz) fun s hs ↦ ?_, (Function.forall_update_iff _ _).mpr ⟨?_, ?_⟩⟩
  · by_cases hi : s.inode = i
    · subst hi
      cases s with
      | direct i j => simpa [InUse, slot, Slot.inode, hdirect] using hs
      | indirect i => simpa [InUse, slot, Slot.inode, hindirect] using hs
      | entry i k =>
        simp only [InUse, slot, Slot.inode, setInode_inodeRoot_self, hindirect,
          setInode_dataRoot] at hs hsize ⊢
        exact ⟨⟨hs.1, by omega⟩, trivial⟩
    · exact ⟨(inUse_setInode_of_ne hi).mp hs, slot_setInode_of_ne hi⟩
  · constructor
    · omega
    · intro hlt
      rw [hdirect]
      exact hold.direct_ne (by omega)
    · intro hlt
      rw [hindirect]
      exact hold.indirect_ne (by omega)
  · exact fun k _ ↦ h.sized k

/-- A direct slot receives a free block. -/
theorem Inv.assignDirect (h : fs.Inv) {j : Fin G.NUM_DIRECT_BLOCKS} (hz : fs.Free z)
    (hdirect : node.direct = Function.update (fs.inodeRoot i).direct j z)
    (hindirect : node.indirect = (fs.inodeRoot i).indirect)
    (hsize : G.blockCount node.size ≤ G.NUM_DIRECT_BLOCKS) :
    ((fs.setInode i node).mark z).Inv := by
  refine ⟨h.assign (.direct i j) hz ?_ ?_ ?_ ?_, (Function.forall_update_iff _ _).mpr ⟨?_, ?_⟩⟩
  · exact fun y hy ↦ mark_dataUsed.mpr (Or.inr hy)
  · exact mark_dataUsed.mpr (Or.inl rfl)
  · simp [slot, hdirect]
  · intro s hne hs
    by_cases hi : s.inode = i
    · subst hi
      cases s with
      | direct i k =>
        have hk : k ≠ j := by
          rintro rfl
          exact hne rfl
        simpa [InUse, slot, Slot.inode, hdirect, hk] using hs
      | indirect i => simpa [InUse, slot, Slot.inode, hindirect] using hs
      | entry i k =>
        have hlt := hs.2
        simp only [Slot.inode, mark_inodeRoot, setInode_inodeRoot_self] at hlt
        omega
    · exact ⟨(inUse_setInode_of_ne hi).mp hs, slot_setInode_of_ne hi⟩
  · exact Inode.sized_of_le hsize
  · exact fun k _ ↦ h.sized k

/-- The next entry of an indirect block comes into use with a free block. -/
theorem Inv.assignEntry (h : fs.Inv) {data : Bytes} {k : ℕ} (node : Inode G) (hz : fs.Free z)
    (hin : fs.InUse (.indirect i)) (hk : k < G.NUM_INDIRECT_BLOCKS)
    (hstore : G.storeNumber fs.dataRoot (fs.inodeRoot i).indirect k z = some data)
    (hdirect : node.direct = (fs.inodeRoot i).direct)
    (hindirect : node.indirect = (fs.inodeRoot i).indirect)
    (hold : G.blockCount (fs.inodeRoot i).size = G.NUM_DIRECT_BLOCKS + k)
    (hall : ∀ j, (fs.inodeRoot i).direct j ≠ -1)
    (hsize : G.blockCount node.size = G.NUM_DIRECT_BLOCKS + k + 1) :
    ((({ fs with dataRoot := data } : FileSystem G).setInode i node).mark z).Inv := by
  have hchanged := Geometry.storeNumber_changedOnly hk hstore
  refine ⟨h.assign (.entry i k) hz ?_ ?_ ?_ ?_, (Function.forall_update_iff _ _).mpr ⟨?_, ?_⟩⟩
  · exact fun y hy ↦ mark_dataUsed.mpr (Or.inr hy)
  · exact mark_dataUsed.mpr (Or.inl rfl)
  · simp only [slot, mark_inodeRoot, setInode_inodeRoot_self, mark_dataRoot, setInode_dataRoot,
      hindirect]
    exact Geometry.number_storeNumber_self hz.1 hz.2.1 hstore
  · intro s hne hs
    cases s with
    | direct l j =>
      by_cases hl : l = i
      · subst hl
        simpa [InUse, slot, hdirect] using hs
      · exact ⟨(inUse_setInode_of_ne (s := .direct l j) hl).mp hs,
          slot_setInode_of_ne (s := .direct l j) hl⟩
    | indirect l =>
      by_cases hl : l = i
      · subst hl
        simpa [InUse, slot, hindirect] using hs
      · exact ⟨(inUse_setInode_of_ne (s := .indirect l) hl).mp hs,
          slot_setInode_of_ne (s := .indirect l) hl⟩
    | entry l m =>
      by_cases hl : l = i
      · subst hl
        have hm : m ≠ k := by
          rintro rfl
          exact hne rfl
        simp only [InUse, slot, mark_inodeRoot, setInode_inodeRoot_self, mark_dataRoot,
          setInode_dataRoot, hindirect, hsize, hold] at hs ⊢
        exact ⟨⟨hs.1, by omega⟩, Geometry.number_storeNumber_of_ne hm hstore⟩
      · have hs' : fs.InUse (.entry l m) :=
          (inUse_setInode_of_ne (s := .entry l m) hl).mp hs
        refine ⟨hs', ?_⟩
        rw [slot, mark_inodeRoot, setInode_inodeRoot_of_ne hl]
        apply Geometry.number_of_changedOnly (h.valid (.indirect l) hs'.1).1 (h.indirect_lt hs')
          hchanged
        intro heq
        have := h.unique (.indirect l) (.indirect i) hs'.1 hin heq
        simp_all
  · constructor
    · omega
    · intro _
      rwa [hdirect]
    · intro _
      rw [hindirect]
      exact hin
  · exact fun k _ ↦ h.sized k

/-- The inode `i` is emptied. -/
theorem Inv.clear (h : fs.Inv) (hsize : node.size = 0) (hdirect : ∀ j, node.direct j = -1)
    (hindirect : node.indirect = -1) : (fs.setInode i node).Inv := by
  refine ⟨h.shrink (fun _ hz ↦ hz) fun s hs ↦ ?_, (Function.forall_update_iff _ _).mpr ⟨?_, ?_⟩⟩
  · by_cases hi : s.inode = i
    · subst hi
      cases s <;> simp [InUse, Slot.inode, hdirect, hindirect] at hs
    · exact ⟨(inUse_setInode_of_ne hi).mp hs, slot_setInode_of_ne hi⟩
  · apply Inode.sized_of_le
    simp [hsize]
  · exact fun k _ ↦ h.sized k

theorem Owned.free_notMem (h : fs.Owned) (hz : fs.Free z) :
    ∀ i, fs.InUse (.indirect i) → fs.slot (.indirect i) ∉ ({z} : Set ℤ) := by
  intro i hi hmem
  rw [← Set.mem_singleton_iff.mp hmem] at hz
  exact h.not_free hi hz

/-- The directory `parent` is one entry longer. -/
def grow (fs : FileSystem G) (parent : ℕ) : FileSystem G :=
  fs.setInode parent
    { fs.inodeRoot parent with size := (fs.inodeRoot parent).size + G.FILE_NAME_ENTRY }

@[simp] theorem grow_setInode : (fs.setInode i node).grow i =
    fs.setInode i { node with size := node.size + G.FILE_NAME_ENTRY } := by
  simp [grow, setInode]

@[simp] theorem grow_mark : (fs.mark z).grow i = (fs.grow i).mark z := rfl

end FileSystem

/-- The next entry of a directory lies inside one block, and that block is not the first
one behind the direct or behind the indirect blocks. -/
structure Inode.EntryFits (node : Inode G) : Prop where
  ne_direct : node.size ≠ G.NUM_DIRECT_BLOCKS * G.blockSize
  ne_indirect : node.size ≠ (G.NUM_DIRECT_BLOCKS + G.NUM_INDIRECT_BLOCKS) * G.blockSize
  inside : node.size % G.blockSize + G.FILE_NAME_ENTRY ≤ G.blockSize
  assigned : node.size % G.blockSize ≠ 0 → node.directAt (node.size / G.blockSize) ≠ some (-1)

namespace Inode

variable {node : Inode G}

theorem directAt_eq {j : ℕ} (hj : j < G.NUM_DIRECT_BLOCKS) :
    node.directAt j = some (node.direct ⟨j, hj⟩) := dif_pos hj

theorem setDirect_eq {j : ℕ} (hj : j < G.NUM_DIRECT_BLOCKS) (z : ℤ) : node.setDirect j z =
    some { node with direct := Function.update node.direct ⟨j, hj⟩ z } := dif_pos hj

theorem EntryFits.blockCount_grow_le (h : node.EntryFits) :
    G.blockCount (node.size + G.FILE_NAME_ENTRY) ≤ node.size / G.blockSize + 1 := by
  apply Geometry.blockCount_le.mpr
  apply Geometry.add_entry_le h.inside
  exact (Nat.div_lt_iff_lt_mul G.blockSize_pos).mp (Nat.lt_succ_self _)

end Inode

/-- A directory that ends behind its direct blocks uses them all and its indirect block, and its
next entry belongs to a slot of that. -/
theorem FileSystem.Inv.beyond_direct {fs : FileSystem G} {i : ℕ} (h : fs.Inv)
    (hfits : (fs.inodeRoot i).EntryFits)
    (hlt : G.NUM_DIRECT_BLOCKS * G.blockSize < (fs.inodeRoot i).size) :
    fs.InUse (.indirect i) ∧ (∀ j, (fs.inodeRoot i).direct j ≠ -1) ∧
      (fs.inodeRoot i).size ≤ (G.NUM_DIRECT_BLOCKS + G.NUM_INDIRECT_BLOCKS) * G.blockSize ∧
      ∃ k < G.NUM_INDIRECT_BLOCKS, (fs.inodeRoot i).size / G.blockSize =
        G.NUM_DIRECT_BLOCKS + k := by
  have hsized := h.sized i
  have hbeyond := Geometry.lt_blockCount.mpr hlt
  have hle := Geometry.blockCount_le.mp hsized.blockCount_le
  have hq : G.NUM_DIRECT_BLOCKS ≤ (fs.inodeRoot i).size / G.blockSize :=
    (Nat.le_div_iff_mul_le G.blockSize_pos).mpr hlt.le
  have hqlt : (fs.inodeRoot i).size / G.blockSize <
      G.NUM_DIRECT_BLOCKS + G.NUM_INDIRECT_BLOCKS :=
    (Nat.div_lt_iff_lt_mul G.blockSize_pos).mpr (lt_of_le_of_ne hle hfits.ne_indirect)
  obtain ⟨k, hk⟩ := Nat.exists_eq_add_of_le hq
  exact ⟨hsized.indirect_ne hbeyond, hsized.direct_ne hbeyond, hle, k, by omega, hk⟩

namespace Utils

variable {U : Utils G} {fs : FileSystem G} {parent : ℕ} {entry : List UInt8}

open FileSystem

theorem addEntry_direct (hU : U.Correct) (h : fs.Inv) (hfits : (fs.inodeRoot parent).EntryFits)
    (hentry : entry.length = G.FILE_NAME_ENTRY)
    (hlt : (fs.inodeRoot parent).size < G.NUM_DIRECT_BLOCKS * G.blockSize) :
    ∃ fs' added, U.addEntry fs parent entry = some (fs', added) ∧ (added = false → fs' = fs) ∧
      (added = true → (fs'.grow parent).Inv ∧
        G.ChangedOnly ((fs'.grow parent).blocks parent) fs.dataRoot fs'.dataRoot) := by
  set node := fs.inodeRoot parent with hnode
  have hj : node.size / G.blockSize < G.NUM_DIRECT_BLOCKS :=
    (Nat.div_lt_iff_lt_mul G.blockSize_pos).mpr hlt
  have hsize : G.blockCount (node.size + G.FILE_NAME_ENTRY) ≤ G.NUM_DIRECT_BLOCKS :=
    Geometry.blockCount_le.mpr (Geometry.add_entry_le hfits.inside hlt)
  simp only [addEntry, ← hnode, hlt.le, if_true]
  by_cases hremain : node.size % G.blockSize = 0
  · simp only [hremain, if_true, hU.setDataUsed]
    rcases hU.firstUnusedData fs with hnone | hz
    · exact ⟨fs, false, by simp [hnone], fun _ ↦ rfl, by simp⟩
    generalize U.firstUnusedData fs = z at hz ⊢
    have hne : z ≠ -1 := by
      have := hz.1
      omega
    obtain ⟨data, hput⟩ := Geometry.exists_put (o := 0) fs.dataRoot entry hz.1 hz.2.1
      (by simpa [hentry] using G.entry_le)
    have hchanged := Geometry.put_changedOnly (by simpa [hentry] using G.entry_le) hput
    rw [Nat.cast_zero, add_zero] at hput
    set node' : Inode G := { node with direct := Function.update node.direct ⟨_, hj⟩ z } with hnode'
    refine ⟨({ fs with dataRoot := data }.setInode parent node').mark z, true,
      by simp [hne, hput, Inode.setDirect_eq hj, hnode'], by simp, fun _ ↦ ⟨?_, ?_⟩⟩
    · rw [grow_mark, grow_setInode]
      have hdata := h.withData hchanged (h.free_notMem hz)
      exact hdata.assignDirect hz rfl rfl hsize
    · apply hchanged.mono
      rintro y rfl
      refine ⟨.direct parent ⟨_, hj⟩, rfl, ?_, ?_⟩ <;> simp [InUse, slot, hnode', hne]
  · have hne := hfits.assigned hremain
    rw [Inode.directAt_eq hj] at hne
    have hin : fs.InUse (.direct parent ⟨_, hj⟩) := fun heq ↦ hne (congrArg some heq)
    obtain ⟨hz, hzlt⟩ := h.valid _ hin
    have hput_le : node.size % G.blockSize + entry.length ≤ G.blockSize := by
      rw [hentry]
      exact hfits.inside
    obtain ⟨data, hput⟩ := Geometry.exists_put fs.dataRoot entry hz hzlt hput_le
    have hchanged := Geometry.put_changedOnly hput_le hput
    refine ⟨{ fs with dataRoot := data }, true, ?_, by simp, fun _ ↦ ⟨?_, ?_⟩⟩
    · simp only [slot, ← hnode] at hput
      simp only [hremain, if_false, Inode.directAt_eq hj, Option.bind_eq_bind, Option.bind_some,
        hput, Option.pure_def]
    · have hdata := h.withData hchanged (h.indirect_notMem fun y hy ↦ ⟨_, hin, hy.symm, by simp⟩)
      exact hdata.resize rfl rfl (hsize.trans (le_max_left _ _))
    · apply hchanged.mono
      rintro y rfl
      refine ⟨.direct parent ⟨_, hj⟩, rfl, ?_, ?_⟩
      · simpa [InUse, grow, ← hnode] using hin
      · simp [slot, grow]

/-- The next entry needs a block of its own, whose number goes into the indirect block. -/
theorem addEntry_indirect_new (hU : U.Correct) (h : fs.Inv)
    (hfits : (fs.inodeRoot parent).EntryFits) (hentry : entry.length = G.FILE_NAME_ENTRY)
    (hlt : G.NUM_DIRECT_BLOCKS * G.blockSize < (fs.inodeRoot parent).size)
    (hremain : (fs.inodeRoot parent).size % G.blockSize = 0) :
    ∃ fs' added, U.addEntry fs parent entry = some (fs', added) ∧ (added = false → fs' = fs) ∧
      (added = true → (fs'.grow parent).Inv ∧
        G.ChangedOnly ((fs'.grow parent).blocks parent) fs.dataRoot fs'.dataRoot) := by
  obtain ⟨hindirect, hdirect, hle, k, hk, hq⟩ := h.beyond_direct hfits hlt
  obtain ⟨hiz, hizlt⟩ := h.valid _ hindirect
  have hindirect' : (fs.inodeRoot parent).indirect ≠ -1 := hindirect
  set node := fs.inodeRoot parent with hnode
  simp only [addEntry, ← hnode, if_neg (Nat.not_le.mpr hlt), if_pos hle, hindirect', if_false, hq,
    Nat.add_sub_cancel_left, hremain, ne_eq, not_true, hU.setDataUsed]
  rcases hU.firstUnusedData fs with hnone | hz
  · exact ⟨fs, false, by simp [hnone], fun _ ↦ rfl, by simp⟩
  generalize U.firstUnusedData fs = z at hz ⊢
  have hne : z ≠ -1 := by
    have := hz.1
    omega
  have hput_le : 0 + entry.length ≤ G.blockSize := by simpa [hentry] using G.entry_le
  obtain ⟨data, hstore⟩ := Geometry.exists_storeNumber fs.dataRoot z hiz hizlt hk
  obtain ⟨data', hput⟩ := Geometry.exists_put data entry hz.1 hz.2.1 hput_le
  have hstored := Geometry.storeNumber_changedOnly hk hstore
  have hchanged := Geometry.put_changedOnly hput_le hput
  rw [Nat.cast_zero, add_zero] at hput
  have hcount : G.blockCount node.size = G.NUM_DIRECT_BLOCKS + k := by
    simp [Geometry.blockCount, hremain, hq]
  set node' : Inode G := { node with size := node.size + G.FILE_NAME_ENTRY } with hnode'
  have hcount' : G.blockCount node'.size = G.NUM_DIRECT_BLOCKS + k + 1 := by
    apply le_antisymm
    · exact hfits.blockCount_grow_le.trans_eq (by rw [hq])
    · apply Nat.succ_le_of_lt
      apply Geometry.lt_blockCount.mpr
      rw [← hq, Nat.div_mul_cancel (Nat.dvd_of_mod_eq_zero hremain)]
      exact Nat.lt_add_of_pos_right G.entry_pos
  have hassign := h.assignEntry node' hz hindirect hk hstore rfl rfl hcount hdirect hcount'
  set fs₁ := (({ fs with dataRoot := data } : FileSystem G).setInode parent node').mark z with hfs₁
  have hself : fs₁.inodeRoot parent = node' := setInode_inodeRoot_self
  have hin : fs₁.InUse (.entry parent k) := by
    refine ⟨?_, ?_⟩
    · rw [hself]
      exact hindirect'
    · rw [hself]
      omega
  have hslot : fs₁.slot (.entry parent k) = z := by
    rw [slot, hself]
    exact Geometry.number_storeNumber_self hz.1 hz.2.1 hstore
  have hnot := hassign.indirect_notMem (S := {z}) fun y hy ↦ ⟨_, hin, hslot.trans hy.symm, by simp⟩
  have hfinal := hassign.withData hchanged hnot
  refine ⟨({ fs with dataRoot := data' } : FileSystem G).mark z, true, ?_, by simp,
    fun _ ↦ ⟨hfinal, ?_⟩⟩
  · simp only [slot, ← hnode] at hstore
    simp only [hne, if_false, hstore, Option.bind_eq_bind, Option.bind_some, mark_dataRoot, hput,
      Option.pure_def]
    rfl
  · change G.ChangedOnly (({ fs₁ with dataRoot := data' } : FileSystem G).blocks parent) _ _
    refine (hstored.mono ?_).trans (hchanged.mono ?_)
    · rintro y rfl
      refine ⟨.indirect parent, rfl, ?_, ?_⟩
      · simpa [InUse, hself] using hindirect'
      · simp [slot, hself, hnode', hnode]
    · rintro y rfl
      exact ⟨.entry parent k, rfl, hin, (hassign.slot_withData hchanged hnot hin).trans hslot⟩

/-- The next entry goes into the last block, which the indirect block refers to. -/
theorem addEntry_indirect_last (h : fs.Inv) (hfits : (fs.inodeRoot parent).EntryFits)
    (hentry : entry.length = G.FILE_NAME_ENTRY)
    (hlt : G.NUM_DIRECT_BLOCKS * G.blockSize < (fs.inodeRoot parent).size)
    (hremain : (fs.inodeRoot parent).size % G.blockSize ≠ 0) :
    ∃ fs', U.addEntry fs parent entry = some (fs', true) ∧ (fs'.grow parent).Inv ∧
      G.ChangedOnly ((fs'.grow parent).blocks parent) fs.dataRoot fs'.dataRoot := by
  obtain ⟨hindirect, -, hle, k, hk, hq⟩ := h.beyond_direct hfits hlt
  obtain ⟨hiz, hizlt⟩ := h.valid _ hindirect
  have hindirect' : (fs.inodeRoot parent).indirect ≠ -1 := hindirect
  set node := fs.inodeRoot parent with hnode
  have hlast : node.size / G.blockSize < G.blockCount node.size :=
    Geometry.last_lt_blockCount hremain
  have hin : fs.InUse (.entry parent k) := by
    refine ⟨hindirect, ?_⟩
    rw [← hnode, ← hq]
    exact hlast
  obtain ⟨hz, hzlt⟩ := h.valid _ hin
  have hput_le : node.size % G.blockSize + entry.length ≤ G.blockSize := by
    rw [hentry]
    exact hfits.inside
  obtain ⟨data, hput⟩ := Geometry.exists_put fs.dataRoot entry hz hzlt hput_le
  have hchanged := Geometry.put_changedOnly hput_le hput
  have hnot := h.indirect_notMem (S := {fs.slot (.entry parent k)}) fun y hy ↦
    ⟨_, hin, hy.symm, by simp⟩
  have hdata := h.withData hchanged hnot
  have hload : G.loadNumber fs.dataRoot node.indirect k = some (fs.slot (.entry parent k)) :=
    Geometry.loadNumber_eq _ hiz hizlt hk
  refine ⟨{ fs with dataRoot := data }, ?_, ?_, ?_⟩
  · simp only [addEntry, ← hnode, if_neg (Nat.not_le.mpr hlt), if_pos hle, hindirect', if_false, hq,
      Nat.add_sub_cancel_left, hremain, ne_eq, not_false_eq_true, if_true, hload,
      Option.bind_eq_bind, Option.bind_some, hput, Option.pure_def]
  · have hsize := hfits.blockCount_grow_le.trans (Nat.succ_le_of_lt hlast)
    exact hdata.resize rfl rfl (hsize.trans (le_max_right _ _))
  · apply hchanged.mono
    rintro y rfl
    refine ⟨.entry parent k, rfl, ?_, ?_⟩
    · simp only [InUse, grow, setInode_inodeRoot_self]
      refine ⟨hindirect', lt_of_lt_of_le hin.2 ?_⟩
      apply Geometry.blockCount_le.mpr
      apply le_trans _ (Geometry.blockCount_le.mp le_rfl)
      exact Nat.le_add_right _ _
    · simpa [slot, grow] using h.slot_withData hchanged hnot hin

theorem addEntry_indirect (hU : U.Correct) (h : fs.Inv) (hfits : (fs.inodeRoot parent).EntryFits)
    (hentry : entry.length = G.FILE_NAME_ENTRY)
    (hlt : G.NUM_DIRECT_BLOCKS * G.blockSize < (fs.inodeRoot parent).size) :
    ∃ fs' added, U.addEntry fs parent entry = some (fs', added) ∧ (added = false → fs' = fs) ∧
      (added = true → (fs'.grow parent).Inv ∧
        G.ChangedOnly ((fs'.grow parent).blocks parent) fs.dataRoot fs'.dataRoot) := by
  by_cases hremain : (fs.inodeRoot parent).size % G.blockSize = 0
  · exact addEntry_indirect_new hU h hfits hentry hlt hremain
  · obtain ⟨fs', hadd, hdone⟩ := addEntry_indirect_last h hfits hentry hlt hremain
    exact ⟨fs', true, hadd, by simp, fun _ ↦ hdone⟩

theorem addEntry_spec (hU : U.Correct) (h : fs.Inv) (hfits : (fs.inodeRoot parent).EntryFits)
    (hentry : entry.length = G.FILE_NAME_ENTRY) :
    ∃ fs' added, U.addEntry fs parent entry = some (fs', added) ∧ (added = false → fs' = fs) ∧
      (added = true → (fs'.grow parent).Inv ∧
        G.ChangedOnly ((fs'.grow parent).blocks parent) fs.dataRoot fs'.dataRoot) := by
  rcases lt_or_gt_of_ne hfits.ne_direct with hlt | hgt
  · exact addEntry_direct hU h hfits hentry hlt
  · exact addEntry_indirect hU h hfits hentry hgt

theorem creation_eq_some {path filename : String} {newInode : ℕ}
    (h : U.creation fs path = some (newInode, parent, filename)) :
    U.getInode fs path = none ∧ U.firstUnusedInode fs = some newInode ∧
      (U.parentDirectory fs path).1 = some parent := by
  simp only [creation, Option.bind_eq_bind, Option.bind_eq_some_iff, Option.guard_eq_some',
    Option.isNone_iff_eq_none, Option.pure_def, Option.some.injEq, Prod.mk.injEq] at h
  obtain ⟨-, hnone, i, hi, p, hp, -, -, -, -, rfl, rfl, -⟩ := h
  exact ⟨hnone, hi, hp⟩

/-- What the creation of an inode does: it returns `NULL` and changes nothing, or it
adds an entry to the parent and empties the new inode. -/
theorem minixfsCreateInodeForPath_spec (hU : U.Correct) (h : fs.Inv) {path : String}
    (hfits : ∀ i parent name, U.creation fs path = some (i, parent, name) →
      (fs.inodeRoot parent).EntryFits) :
    ∃ fs' created, U.minixfsCreateInodeForPath fs path = some (fs', created) ∧ fs'.Inv ∧
      (created = none → fs' = fs) ∧ ∀ i, created = some i → ∃ parent name,
        U.creation fs path = some (i, parent, name) ∧
        G.ChangedOnly (fs'.blocks parent) fs.dataRoot fs'.dataRoot ∧
        (fs'.inodeRoot i).size = 0 ∧ ∀ j, (fs'.inodeRoot i).direct j = -1 := by
  unfold minixfsCreateInodeForPath
  cases hcreation : U.creation fs path with
  | none => exact ⟨fs, none, rfl, h, fun _ ↦ rfl, by simp⟩
  | some c =>
    obtain ⟨i, parent, name⟩ := c
    obtain ⟨-, hi, hparent⟩ := creation_eq_some hcreation
    obtain ⟨fs₁, added, hadd, hfail, hdone⟩ := addEntry_spec hU h (hfits i parent name hcreation)
      (List.length_ofFn (f := U.makeStringFromDirent name i))
    simp only [hadd, Option.bind_eq_bind, Option.bind_some]
    cases added with
    | false =>
      rw [hfail rfl]
      exact ⟨fs, none, by simp, h, fun _ ↦ rfl, by simp⟩
    | true =>
      obtain ⟨hinv, hchanged⟩ := hdone rfl
      have hne := hU.parent_ne fs path i parent hi hparent
      obtain ⟨hsize, hdirect, hindirect⟩ :=
        hU.initInode ((fs₁.grow parent).inodeRoot parent) ((fs₁.grow parent).inodeRoot i)
      refine ⟨U.finishEntry fs₁ parent i, some i, by simp,
        hinv.clear hsize hdirect hindirect, by simp, ?_⟩
      rintro _ ⟨⟩
      refine ⟨parent, name, rfl, ?_, ?_, ?_⟩
      · apply hchanged.mono
        rintro z ⟨s, hs, hin, hz⟩
        have hs' : s.inode ≠ i := by
          rw [hs]
          exact hne.symm
        exact ⟨s, hs, (inUse_setInode_of_ne hs').mpr hin, (slot_setInode_of_ne hs').trans hz⟩
      · change ((FileSystem.setInode _ i _).inodeRoot i).size = 0
        rw [setInode_inodeRoot_self]
        exact hsize
      · change ∀ j, ((FileSystem.setInode _ i _).inodeRoot i).direct j = -1
        rw [setInode_inodeRoot_self]
        exact hdirect

end Utils

end SystemProgramming.FindingFilesystems
