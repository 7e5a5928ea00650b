import SystemProgramming.FindingFilesystems.BlockOwnership
import SystemProgramming.FindingFilesystems.Reading

/-!
# Reading after writing

A write puts its bytes behind the last block of the file, whatever the offset is.  It
behaves as an overwrite of a byte range only when that is where the range lies.
-/

namespace SystemProgramming.FindingFilesystems

variable {G : Geometry}

/-- Paths are resolved through the entries of directories, and a new inode is no
directory. -/
structure Utils.ResolvesEntries (U : Utils G) (isDirectory : ℕ → Bool) : Prop where
  congr : ∀ (fs fs' : FileSystem G) path, (∀ i, (fs'.inodeRoot i).mode = (fs.inodeRoot i).mode) →
    (∀ i, isDirectory (fs.inodeRoot i).mode = true →
      (fs'.inodeRoot i).size = (fs.inodeRoot i).size ∧
        ∀ b < (fs.inodeRoot i).size, fs'.fileByte i b = fs.fileByte i b) →
    U.getInode fs' path = U.getInode fs path
  initInode : ∀ parent node, isDirectory (U.initInode parent node).mode = false

/-- A path that can be written to, the size of the file and its bytes. -/
inductive Target (U : Utils G) (isDirectory : ℕ → Bool) (fs : FileSystem G) (path : String) :
    ℕ → (ℕ → UInt8) → Prop
  | existing {i : ℕ} : U.getInode fs path = some i →
      isDirectory (fs.inodeRoot i).mode = false →
      Target U isDirectory fs path (fs.inodeRoot i).size (fs.fileByte i)
  | created {fs₁ : FileSystem G} {i : ℕ} (old : ℕ → UInt8) : U.getInode fs path = none →
      U.minixfsCreateInodeForPath fs path = some (fs₁, some i) →
      U.getInode fs₁ path = some i → Target U isDirectory fs path 0 old

/-- The file after `buf` has been written to it from `off` on. -/
def overwrite (old : ℕ → UInt8) (off : ℕ) (buf : List UInt8) (b : ℕ) : UInt8 :=
  if off ≤ b then (buf[b - off]?).getD (old b) else old b

/-- Writes of `count` bytes at `off` are complete, advance the offset by `count`, set the
size of the file, and later reads see the written bytes and the old ones elsewhere. -/
def ReadAfterWrite (U : Utils G) (fs : FileSystem G) (path : String) (size : ℕ)
    (old : ℕ → UInt8) (off count : ℕ) : Prop :=
  ∀ (buf : List UInt8) (mtim atim : ℕ), buf.length = count →
    ∃ fs' i, U.minixfsWrite fs path buf off mtim atim = some (fs', ⟨count, off + count, none⟩) ∧
      U.getInode fs' path = some i ∧ (fs'.inodeRoot i).size = max size (off + count) ∧
      ∀ start n, start + n ≤ max size (off + count) → ∃ fs'',
        U.minixfsRead fs' (some path) n start atim =
          some (fs'', (List.range n).map fun k ↦ overwrite old off buf (start + k),
            ⟨n, start + n, none⟩)

/-- The write starts at the end of the file and at the beginning of an assigned direct
block that holds all of it, or it is empty and changes nothing. -/
def Inode.WriteLands (node : Inode G) (off count : ℕ) : Prop :=
  off = node.size ∧
    (count = 0 ∧ node.size ≤ G.NUM_DIRECT_BLOCKS * G.blockSize ∨
      0 < count ∧ count ≤ G.blockSize ∧ node.size % G.blockSize = 0 ∧
        ∃ z, node.directAt (node.size / G.blockSize) = some z ∧ z ≠ -1)

def Utils.WriteLands (U : Utils G) (fs : FileSystem G) (path : String) (off count : ℕ) : Prop :=
  match U.getInode fs path with
  | some i => (fs.inodeRoot i).WriteLands off count
  | none => count = 0

/-- An offset that is not behind the end and lies behind the blocks in use is the end. -/
theorem Geometry.eq_of_blockCount_le {size off : ℕ} (hoff : off ≤ size)
    (h : G.blockCount size ≤ off / G.blockSize) : size % G.blockSize = 0 ∧ off = size := by
  have hle : off / G.blockSize ≤ size / G.blockSize := Nat.div_le_div_right hoff
  have hdiv := Nat.div_add_mod size G.blockSize
  have hmul := Nat.div_mul_le_self off G.blockSize
  have hrem : size % G.blockSize = 0 := by
    by_contra hne
    have hbc : G.blockCount size = size / G.blockSize + 1 := by
      simp [Geometry.blockCount, Nat.pos_of_ne_zero hne]
    omega
  have hbc : G.blockCount size = size / G.blockSize := by
    simp [Geometry.blockCount, hrem]
  have hq : off / G.blockSize = size / G.blockSize := by omega
  rw [hq, mul_comm] at hmul
  exact ⟨hrem, by omega⟩

namespace FileSystem

variable {fs : FileSystem G} {i d b : ℕ} {S : Set ℤ} {data : Bytes}

/-- The slot that refers to the block of byte `b`. -/
def blockSlot (G : Geometry) (i b : ℕ) : Slot G :=
  if h : b / G.blockSize < G.NUM_DIRECT_BLOCKS then .direct i ⟨b / G.blockSize, h⟩
  else .entry i (b / G.blockSize - G.NUM_DIRECT_BLOCKS)

theorem div_lt_blockCount (hb : b < (fs.inodeRoot i).size) :
    b / G.blockSize < G.blockCount (fs.inodeRoot i).size :=
  Geometry.lt_blockCount.mpr (lt_of_le_of_lt (Nat.div_mul_le_self b _) hb)

theorem slot_blockSlot : fs.slot (blockSlot G i b) = fs.fileBlock i b := by
  unfold blockSlot fileBlock
  split <;> rfl

theorem blockSlot_inode : (blockSlot G i b).inode = i := by
  unfold blockSlot
  split <;> rfl

theorem WellFormed.inUse_blockSlot (h : fs.WellFormed)
    (hb : b / G.blockSize < G.blockCount (fs.inodeRoot i).size) : fs.InUse (blockSlot G i b) := by
  unfold blockSlot
  split
  · exact h.direct_ne i _ hb
  · exact ⟨h.indirect_ne i (by omega), by omega⟩

/-- Bytes of a file stay where neither their block nor the indirect block changes. -/
theorem WellFormed.fileByte_withData (h : fs.WellFormed)
    (hdata : G.ChangedOnly S fs.dataRoot data) (hb : b < (fs.inodeRoot i).size)
    (hindirect : fs.InUse (.indirect i) → (fs.inodeRoot i).indirect ∉ S)
    (hblock : fs.fileBlock i b ∉ S) :
    ({ fs with dataRoot := data } : FileSystem G).fileByte i b = fs.fileByte i b := by
  have hin := h.inUse_blockSlot (div_lt_blockCount hb)
  have hvalid := h.valid _ hin
  rw [slot_blockSlot] at hvalid
  have hsame : ({ fs with dataRoot := data } : FileSystem G).fileBlock i b = fs.fileBlock i b := by
    unfold blockSlot at hin
    unfold fileBlock
    split
    · rfl
    · next hlt =>
      rw [dif_neg hlt] at hin
      exact Geometry.number_of_changedOnly (h.valid (.indirect i) hin.1).1 (h.inv.indirect_lt hin)
        hdata (hindirect hin.1)
  unfold fileByte
  rw [hsame]
  apply hdata
  rwa [blockOf_offset hvalid.1 (Nat.mod_lt _ G.blockSize_pos)]

theorem fileBlock_direct (hb : b / G.blockSize < G.NUM_DIRECT_BLOCKS) :
    fs.fileBlock i b = (fs.inodeRoot i).direct ⟨b / G.blockSize, hb⟩ := dif_pos hb

theorem fileByte_withData_direct (hdata : G.ChangedOnly S fs.dataRoot data)
    (hb : b / G.blockSize < G.NUM_DIRECT_BLOCKS) (hvalid : 0 ≤ fs.fileBlock i b)
    (hblock : fs.fileBlock i b ∉ S) :
    ({ fs with dataRoot := data } : FileSystem G).fileByte i b = fs.fileByte i b := by
  have hsame : ({ fs with dataRoot := data } : FileSystem G).fileBlock i b = fs.fileBlock i b := by
    rw [fileBlock_direct hb, fileBlock_direct hb]
  unfold fileByte
  rw [hsame]
  apply hdata
  rwa [blockOf_offset hvalid (Nat.mod_lt _ G.blockSize_pos)]

theorem fileByte_setInode {node : Inode G} (hdirect : node.direct = (fs.inodeRoot i).direct)
    (hindirect : node.indirect = (fs.inodeRoot i).indirect) :
    (fs.setInode i node).fileByte d b = fs.fileByte d b := by
  have hblock : (fs.setInode i node).fileBlock d b = fs.fileBlock d b := by
    unfold fileBlock
    by_cases hd : d = i
    · rw [hd, setInode_inodeRoot_self, hdirect, hindirect]
      rfl
    · rw [setInode_inodeRoot_of_ne hd]
      rfl
  rw [fileByte, fileByte, hblock]
  rfl

theorem fileByte_finishWrite (off : ℤ) (mtim atim : ℕ) :
    (fs.finishWrite i data off mtim atim).fileByte d b =
      ({ fs with dataRoot := data } : FileSystem G).fileByte d b :=
  fileByte_setInode rfl rfl

/-- A write to a regular file leaves path resolution alone. -/
theorem WellFormed.getInode_finishWrite {U : Utils G} {isDirectory : ℕ → Bool}
    (hU : U.ResolvesEntries isDirectory) (h : fs.WellFormed)
    (hfile : isDirectory (fs.inodeRoot i).mode = false)
    (hdata : G.ChangedOnly S fs.dataRoot data)
    (hS : ∀ z ∈ S, 0 ≤ z → ∃ s, s.inode = i ∧ fs.InUse s ∧ fs.slot s = z) (off : ℤ)
    (mtim atim : ℕ) (path : String) :
    U.getInode (fs.finishWrite i data off mtim atim) path = U.getInode fs path := by
  -- the slots of other inodes do not refer to changed blocks
  have hother : ∀ s, fs.InUse s → s.inode ≠ i → fs.slot s ∉ S := by
    intro s hs hne hmem
    obtain ⟨t, ht, hin, heq⟩ := hS _ hmem (h.valid s hs).1
    exact hne (h.unique s t hs hin heq.symm ▸ ht)
  apply hU.congr
  · intro d
    by_cases hd : d = i
    · simp [FileSystem.finishWrite, hd]
    · simp [FileSystem.finishWrite, setInode_inodeRoot_of_ne hd]
  · intro d hdir
    have hd : d ≠ i := by
      rintro rfl
      simp [hfile] at hdir
    refine ⟨by simp [FileSystem.finishWrite, setInode_inodeRoot_of_ne hd], fun b hb ↦ ?_⟩
    rw [fileByte_finishWrite]
    apply h.fileByte_withData hdata hb
    · exact fun hin ↦ hother (.indirect d) hin hd
    · rw [← slot_blockSlot]
      apply hother _ (h.inUse_blockSlot (div_lt_blockCount hb))
      rwa [blockSlot_inode]

end FileSystem

/-- The blocks that a write to an inode can change: the direct ones behind those in use,
or the indirect one. -/
def Inode.blocksBehind (node : Inode G) : Set ℤ :=
  {z | (∃ j, G.blockCount node.size ≤ j ∧ node.directAt j = some z) ∨
    G.blockCount node.size = G.NUM_DIRECT_BLOCKS ∧ z = node.indirect}

namespace FileSystem

variable {fs : FileSystem G} {i b : ℕ}

theorem exists_slot_of_mem_blocksBehind {z : ℤ} (hz : z ∈ (fs.inodeRoot i).blocksBehind)
    (hpos : 0 ≤ z) : ∃ s, s.inode = i ∧ fs.InUse s ∧ fs.slot s = z ∧
      ∀ j, s = .direct i j → G.blockCount (fs.inodeRoot i).size ≤ j := by
  rcases hz with ⟨j, hj, hat⟩ | ⟨-, rfl⟩
  · obtain ⟨hlt, rfl⟩ := Inode.directAt_eq_some hat
    refine ⟨.direct i ⟨j, hlt⟩, rfl, ?_, rfl, ?_⟩
    · intro hneg
      omega
    · rintro k ⟨⟩
      exact hj
  · refine ⟨.indirect i, rfl, ?_, rfl, by simp⟩
    intro hneg
    omega

/-- A write to a regular file changes its own blocks, and path resolution stays. -/
theorem WellFormed.getInode_write {U : Utils G} {isDirectory : ℕ → Bool} {data : Bytes}
    (hU : U.ResolvesEntries isDirectory) (h : fs.WellFormed)
    (hfile : isDirectory (fs.inodeRoot i).mode = false)
    (hdata : G.ChangedOnly (fs.inodeRoot i).blocksBehind fs.dataRoot data) (off : ℤ)
    (mtim atim : ℕ) (path : String) :
    U.getInode (fs.finishWrite i data off mtim atim) path = U.getInode fs path := by
  apply h.getInode_finishWrite hU hfile hdata
  intro z hz hnonneg
  obtain ⟨s, hs, hin, heq, -⟩ := exists_slot_of_mem_blocksBehind hz hnonneg
  exact ⟨s, hs, hin, heq⟩

/-- The blocks in use are not among them. -/
theorem WellFormed.fileBlock_notMem (h : fs.WellFormed)
    (hb : b / G.blockSize < G.blockCount (fs.inodeRoot i).size)
    (hlt : b / G.blockSize < G.NUM_DIRECT_BLOCKS) :
    fs.fileBlock i b ∉ (fs.inodeRoot i).blocksBehind := by
  intro hmem
  have hin := h.inUse_blockSlot hb
  have hvalid := h.valid _ hin
  rw [slot_blockSlot] at hvalid
  obtain ⟨s, -, hs, heq, hbehind⟩ := exists_slot_of_mem_blocksBehind hmem hvalid.1
  have hsame := h.unique s _ hs hin (heq.trans slot_blockSlot.symm)
  rw [blockSlot, dif_pos hlt] at hsame
  have hle := hbehind _ hsame
  simp only at hle
  omega

theorem fileBlock_finishWrite {data : Bytes} (hlt : b / G.blockSize < G.NUM_DIRECT_BLOCKS)
    (off : ℤ) (mtim atim : ℕ) :
    (fs.finishWrite i data off mtim atim).fileBlock i b = fs.fileBlock i b := by
  rw [fileBlock_direct hlt, fileBlock_direct hlt, FileSystem.finishWrite, setInode_inodeRoot_self]

/-- A byte of the file, as it was before. -/
theorem WellFormed.fileByte_old (h : fs.WellFormed) {data : Bytes}
    (hdata : G.ChangedOnly (fs.inodeRoot i).blocksBehind fs.dataRoot data)
    (hlt : b / G.blockSize < G.NUM_DIRECT_BLOCKS)
    (hb : b / G.blockSize < G.blockCount (fs.inodeRoot i).size) (off : ℤ) (mtim atim : ℕ) :
    (0 ≤ fs.fileBlock i b ∧ fs.fileBlock i b < G.DATA_NUMBER) ∧
      (fs.finishWrite i data off mtim atim).fileByte i b = fs.fileByte i b := by
  have hvalid := h.valid _ (h.inUse_blockSlot hb)
  rw [slot_blockSlot] at hvalid
  refine ⟨hvalid, ?_⟩
  rw [fileByte_finishWrite,
    fileByte_withData_direct hdata hlt hvalid.1 (h.fileBlock_notMem hb hlt)]

end FileSystem

theorem put_eq_memcpy {data data' : Bytes} {z : ℤ} {bytes : List UInt8}
    (h : G.put data (z * G.blockSize) bytes = some data') :
    data' = memcpy data (z * G.blockSize).toNat bytes := by
  unfold Geometry.put at h
  split at h
  · next hnil => rw [hnil, memcpy_nil, ← Option.some.inj h]
  split at h
  · exact (Option.some.inj h).symm
  · simp at h

namespace FileSystem

variable {fs : FileSystem G} {i k : ℕ} {buf : List UInt8}

/-- A byte of a buffer that has been put at the beginning of a block. -/
theorem WellFormed.fileByte_new (h : fs.WellFormed) {data : Bytes} {z : ℤ}
    (hrem : (fs.inodeRoot i).size % G.blockSize = 0)
    (hat : (fs.inodeRoot i).directAt ((fs.inodeRoot i).size / G.blockSize) = some z)
    (hne : z ≠ -1) (hput : G.put fs.dataRoot (z * G.blockSize) buf = some data)
    (hk : k < buf.length) (hfit : buf.length ≤ G.blockSize) (off : ℤ) (mtim atim : ℕ) :
    (0 ≤ fs.fileBlock i ((fs.inodeRoot i).size + k) ∧
        fs.fileBlock i ((fs.inodeRoot i).size + k) < G.DATA_NUMBER) ∧
      (fs.finishWrite i data off mtim atim).fileByte i ((fs.inodeRoot i).size + k) = buf[k] := by
  have hinside : k < G.blockSize := hk.trans_le hfit
  have hq : ((fs.inodeRoot i).size + k) / G.blockSize = (fs.inodeRoot i).size / G.blockSize := by
    rw [Nat.add_div_of_dvd_right (Nat.dvd_of_mod_eq_zero hrem), Nat.div_eq_of_lt hinside,
      Nat.add_zero]
  have hr : ((fs.inodeRoot i).size + k) % G.blockSize = k := by
    rw [Nat.add_mod, hrem, Nat.zero_add, Nat.mod_mod, Nat.mod_eq_of_lt hinside]
  obtain ⟨hlt, hz⟩ := Inode.directAt_eq_some hat
  have hblock : fs.fileBlock i ((fs.inodeRoot i).size + k) = z := by
    rw [fileBlock_direct (hq ▸ hlt), ← hz]
    congr 1
    exact Fin.ext hq
  have hsame : ({ fs with dataRoot := data } : FileSystem G).fileBlock i
      ((fs.inodeRoot i).size + k) = z := by
    rw [← hblock, fileBlock_direct (hq ▸ hlt), fileBlock_direct (hq ▸ hlt)]
  have hvalid := h.valid (.direct i ⟨_, hlt⟩) (by rwa [InUse, hz])
  rw [slot, hz] at hvalid
  rw [hblock, fileByte_finishWrite, fileByte, hsame, hr, put_eq_memcpy hput]
  exact ⟨hvalid, memcpy_inside _ _ _ hk⟩

end FileSystem

namespace Inode.WriteLands

variable {node : Inode G} {off count : ℕ}

/-- The whole file lies in direct blocks after the write. -/
theorem end_le (h : node.WriteLands off count) :
    off + count ≤ G.NUM_DIRECT_BLOCKS * G.blockSize := by
  obtain ⟨rfl, ⟨rfl, hle⟩ | ⟨-, hle, hrem, z, hat, -⟩⟩ := h
  · exact hle
  · obtain ⟨hlt, -⟩ := Inode.directAt_eq_some hat
    have hmul := Nat.mul_le_mul_right G.blockSize (Nat.succ_le_of_lt hlt)
    have hdiv := Nat.div_add_mod node.size G.blockSize
    rw [Nat.succ_mul, mul_comm (_ / _)] at hmul
    omega

/-- The buffer fits behind the last byte of the last block. -/
theorem fit (h : node.WriteLands off count) : node.size % G.blockSize + count ≤ G.blockSize := by
  have hlt := Nat.mod_lt node.size G.blockSize_pos
  obtain ⟨-, ⟨hzero, -⟩ | ⟨-, hle, hrem, -⟩⟩ := h <;> omega

theorem spill_eq_zero (h : node.WriteLands off count) : node.spill count = 0 := if_pos h.fit

theorem writeFits (h : node.WriteLands off count) : node.WriteFits count off := by
  have hpos := G.blockSize_pos
  have hend := h.end_le
  have hspill := h.spill_eq_zero
  refine ⟨Int.natCast_nonneg off, ?_, ?_⟩
  · have hmul := Nat.mul_le_mul_right G.blockSize
      (le_max_left G.NUM_DIRECT_BLOCKS (G.blockCount node.size))
    rw [hspill]
    omega
  · obtain ⟨-, ⟨hzero, -⟩ | ⟨-, hle, hrem, z, hat, hne⟩⟩ := h
    · exact Or.inl hzero
    · right
      intro j hj
      obtain rfl : j = 0 := by
        by_contra hj0
        have := Nat.mul_le_mul_right G.blockSize (Nat.one_le_iff_ne_zero.mpr hj0)
        omega
      exact ⟨z, by simpa [Geometry.blockCount, hrem] using hat, hne⟩

end Inode.WriteLands

section WriteBlocks

variable {node : Inode G} {count : ℕ} {p p' : Progress}

theorem upTo_eq_some {buf bytes : List UInt8} {n : ℕ} (h : upTo buf n = some bytes) :
    bytes.length = n ∧ bytes = buf.take n := by
  unfold upTo at h
  split at h
  · obtain rfl := Option.some.inj h
    refine ⟨?_, rfl⟩
    rw [List.length_take]
    omega
  · simp at h

/-- A loop that comes to an end has written all direct blocks that it went through. -/
theorem writeLoop_changedOnly : ∀ (k : ℕ) (p : Progress), writeLoop node count k p = some p' →
    G.ChangedOnly {z | ∃ j, p.blockCount < j ∧ node.directAt j = some z} p.data p'.data ∧
      p'.off = p.off ∧
      (k = G.NUM_DIRECT_BLOCKS - p.blockCount → p.blockCount < G.NUM_DIRECT_BLOCKS →
        p'.writtenByte = count) := by
  intro k
  induction k with
  | zero =>
    intro p h
    obtain rfl : p = p' := Option.some.inj h
    exact ⟨.refl _ _, rfl, fun hk hlt ↦ by omega⟩
  | succ k ih =>
    intro p h
    by_cases hdone : p.writtenByte = count
    · simp only [writeLoop, ne_eq, hdone, not_true, if_false, Option.some.injEq] at h
      subst h
      exact ⟨.refl _ _, rfl, fun _ _ ↦ hdone⟩
    simp only [writeLoop, ne_eq, hdone, not_false_eq_true, if_true, Option.bind_eq_bind,
      Option.bind_eq_some_iff] at h
    obtain ⟨z, hz, bytes, hbytes, data, hput, hloop⟩ := h
    obtain ⟨hdata, hoff, hall⟩ := ih _ hloop
    obtain ⟨hlen, htake⟩ := upTo_eq_some hbytes
    have hbytes_le : 0 + bytes.length ≤ G.blockSize := by
      rw [hlen]
      split <;> omega
    have hchanged : G.ChangedOnly {z} p.data data :=
      Geometry.put_changedOnly hbytes_le (by simpa using hput)
    refine ⟨(hchanged.mono ?_).trans (hdata.mono ?_), hoff, fun hk _ ↦ ?_⟩
    · rintro y rfl
      exact ⟨_, Nat.lt_succ_self _, hz⟩
    · rintro y ⟨j, hj, hat⟩
      exact ⟨j, by simp only at hj; omega, hat⟩
    · obtain ⟨hlt, -⟩ := Inode.directAt_eq_some hz
      exact hall (by simp only; omega) hlt

theorem writeBlocks_changedOnly {z : ℤ} (hwritten : p.writtenByte = 0)
    (hsmall : node.size % G.blockSize + count < 2 ^ 64)
    (h : writeBlocks node count (node.size % G.blockSize) z p = some p') :
    G.ChangedOnly {y | y = z ∨ ∃ j, p.blockCount < j ∧ node.directAt j = some y} p.data p'.data ∧
      p'.off = p.off + node.spill count ∧
      (p.blockCount < G.NUM_DIRECT_BLOCKS → p'.writtenByte = count) ∧
      (node.size % G.blockSize + count ≤ G.blockSize →
        G.put p.data (z * G.blockSize + (node.size % G.blockSize : ℕ)) (p.buf.take count) =
          some p'.data) := by
  have hlt := Nat.mod_lt node.size G.blockSize_pos
  rw [writeBlocks, Nat.mod_eq_of_lt hsmall] at h
  by_cases hfit : node.size % G.blockSize + count ≤ G.blockSize
  · simp only [hfit, if_true, Option.bind_eq_bind, Option.bind_eq_some_iff, Option.pure_def,
      Option.some.injEq] at h
    obtain ⟨bytes, hbytes, data, hput, rfl⟩ := h
    obtain ⟨hlen, htake⟩ := upTo_eq_some hbytes
    refine ⟨(Geometry.put_changedOnly (by omega) hput).mono ?_, ?_, ?_, fun _ ↦ ?_⟩
    · rintro y rfl
      exact Or.inl rfl
    · simp [Inode.spill, hfit]
    · simp [hwritten]
    · rwa [← htake]
  · simp only [hfit, if_false, Option.bind_eq_bind, Option.bind_eq_some_iff] at h
    obtain ⟨bytes, hbytes, data, hput, hloop⟩ := h
    obtain ⟨hlen, htake⟩ := upTo_eq_some hbytes
    obtain ⟨hdata, hoff, hall⟩ := writeLoop_changedOnly _ _ hloop
    refine ⟨((Geometry.put_changedOnly (by omega) hput).mono ?_).trans (hdata.mono ?_), ?_, ?_,
      fun hfit' ↦ absurd hfit' hfit⟩
    · rintro y rfl
      exact Or.inl rfl
    · rintro y hy
      exact Or.inr hy
    · rw [hoff, Inode.spill, if_neg hfit]
    · exact hall rfl

end WriteBlocks

namespace Utils

variable {U : Utils G} {fs fs' : FileSystem G} {path : String} {i off : ℕ} {buf : List UInt8}
  {mtim atim : ℕ} {reply : Reply}

open FileSystem

theorem minBlockcount_eq (hU : U.Correct) (h : fs.WellFormed) (hget : U.getInode fs path = some i) :
    U.minBlockcount fs path (G.blockCount (fs.inodeRoot i).size) = some fs :=
  hU.minBlockcount_covered fs path i _ hget
    ⟨fun j hj ↦ h.direct_ne i j hj, fun hlt ↦ ⟨h.indirect_ne i hlt, le_rfl⟩⟩

theorem minixfsWrite_eq
    (hmax : off + buf.length ≤ (G.NUM_DIRECT_BLOCKS + G.NUM_INDIRECT_BLOCKS) * G.blockSize) :
    U.minixfsWrite fs path buf off mtim atim =
      match U.getInode fs path with
      | some i => U.writeInode fs path i buf off mtim atim
      | none => (U.minixfsCreateInodeForPath fs path).bind fun r ↦
        match r.2 with
        | none => some (r.1, ⟨-1, off, some .ENOSPC⟩)
        | some i => U.writeInode r.1 path i buf off mtim atim := by
  have hlt := G.size_lt
  have hmax' : G.maxFilesize =
      ((G.NUM_DIRECT_BLOCKS + G.NUM_INDIRECT_BLOCKS) * G.blockSize : ℕ) := by
    apply Int.bmod_eq_of_le <;> omega
  have hbmod : ((off : ℤ) + buf.length).bmod (2 ^ 32) = off + buf.length := by
    apply Int.bmod_eq_of_le <;> omega
  rw [minixfsWrite, hmax', hbmod, if_neg (by omega)]
  cases U.getInode fs path with
  | some i => rfl
  | none => rfl

/-- What a write to a file whose blocks end inside the direct ones can do. -/
theorem writeInode_changedOnly (hmin : U.minBlockcount fs path
      (G.blockCount (fs.inodeRoot i).size) = some fs)
    (hle : G.blockCount (fs.inodeRoot i).size ≤ G.NUM_DIRECT_BLOCKS)
    (hsmall : off + buf.length < 2 ^ 31)
    (hwrite : U.writeInode fs path i buf off mtim atim = some (fs', reply)) :
    ∃ data, fs' = fs.finishWrite i data reply.off mtim atim ∧ reply.ret = buf.length ∧
      reply.errno = none ∧
      G.ChangedOnly (fs.inodeRoot i).blocksBehind fs.dataRoot data ∧
      (buf.length = 0 → reply.off = off) ∧
      (∀ hdir : G.blockCount (fs.inodeRoot i).size < G.NUM_DIRECT_BLOCKS,
        reply.off = off + (fs.inodeRoot i).spill buf.length + buf.length ∧
          ((fs.inodeRoot i).size % G.blockSize + buf.length ≤ G.blockSize →
            G.put fs.dataRoot ((fs.inodeRoot i).direct ⟨_, hdir⟩ * G.blockSize +
              ((fs.inodeRoot i).size % G.blockSize : ℕ)) buf = some data)) := by
  have hlt := Nat.mod_lt (fs.inodeRoot i).size G.blockSize_pos
  have hblock : G.blockSize < 2 ^ 31 := by
    apply lt_of_le_of_lt _ G.size_lt
    exact Nat.le_mul_of_pos_left _ (Nat.add_pos_left G.direct_pos _)
  have hspill : (fs.inodeRoot i).spill buf.length ≤ G.blockSize := by
    unfold Inode.spill
    split <;> omega
  have hspill0 : buf.length = 0 → (fs.inodeRoot i).spill buf.length = 0 := by
    intro h0
    rw [Inode.spill, if_pos (by omega)]
  simp only [writeInode, hmin, Option.bind_eq_bind, Option.bind_eq_some_iff] at hwrite
  obtain ⟨p, hp, hwrite⟩ := hwrite
  by_cases hdir : G.blockCount (fs.inodeRoot i).size < G.NUM_DIRECT_BLOCKS
  · simp only [hdir, if_true, Inode.directAt_eq hdir, Option.bind_some] at hp
    obtain ⟨hdata, hoff, hall, hput⟩ := writeBlocks_changedOnly rfl (by omega) hp
    simp only [List.take_length] at hoff hdata hput
    simp only [hdir, hall hdir, and_self, if_true, Option.pure_def, Option.some.injEq,
      Prod.mk.injEq] at hwrite
    obtain ⟨rfl, rfl⟩ := hwrite
    have hbmod : (p.off + buf.length).bmod (2 ^ 64) =
        off + (fs.inodeRoot i).spill buf.length + buf.length := by
      rw [hoff]
      apply Int.bmod_eq_of_le <;> omega
    refine ⟨p.data, rfl, rfl, rfl, hdata.mono ?_, fun h0 ↦ ?_, fun _ ↦ ⟨hbmod, hput⟩⟩
    · rintro z (rfl | ⟨j, hj, hat⟩)
      · exact Or.inl ⟨_, le_rfl, Inode.directAt_eq hdir⟩
      · exact Or.inl ⟨j, hj.le, hat⟩
    · simp only
      rw [hbmod, hspill0 h0, h0]
      simp
  · have heq : G.blockCount (fs.inodeRoot i).size = G.NUM_DIRECT_BLOCKS := by omega
    simp only [hdir, if_false, Option.pure_def, Option.some.injEq] at hp
    subst hp
    simp only [hdir, false_and, if_false, Option.bind_eq_some_iff, Option.pure_def,
      Option.some.injEq, Prod.mk.injEq] at hwrite
    obtain ⟨p, hp, rfl, rfl⟩ := hwrite
    obtain ⟨hdata, hoff, -, -⟩ := writeBlocks_changedOnly rfl (by omega) hp
    simp only at hoff hdata
    refine ⟨p.data, rfl, rfl, rfl, hdata.mono ?_, fun h0 ↦ ?_, fun hlt ↦ absurd hlt hdir⟩
    · rintro z (rfl | ⟨j, hj, hat⟩)
      · right
        refine ⟨heq, ?_⟩
        rw [heq]
        simp
      · obtain ⟨hj', -⟩ := Inode.directAt_eq_some hat
        omega
    · rw [hoff, hspill0 h0]
      simp

/-- The bytes of the file after a write that lands. -/
theorem fileByte_of_lands (h : fs.WellFormed) {data : Bytes}
    (hlands : (fs.inodeRoot i).WriteLands off buf.length)
    (hdata : G.ChangedOnly (fs.inodeRoot i).blocksBehind fs.dataRoot data)
    (hput : ∀ hdir : G.blockCount (fs.inodeRoot i).size < G.NUM_DIRECT_BLOCKS,
      G.put fs.dataRoot ((fs.inodeRoot i).direct ⟨_, hdir⟩ * G.blockSize +
        ((fs.inodeRoot i).size % G.blockSize : ℕ)) buf = some data)
    {b : ℕ} (hb : b < off + buf.length) (size : ℤ) (mtim atim : ℕ) :
    (0 ≤ (fs.finishWrite i data size mtim atim).fileBlock i b ∧
        (fs.finishWrite i data size mtim atim).fileBlock i b < G.DATA_NUMBER) ∧
      (fs.finishWrite i data size mtim atim).fileByte i b =
        overwrite (fs.fileByte i) off buf b := by
  have hlt : b / G.blockSize < G.NUM_DIRECT_BLOCKS :=
    (Nat.div_lt_iff_lt_mul G.blockSize_pos).mpr (hb.trans_le hlands.end_le)
  obtain ⟨rfl, hcase⟩ := hlands
  rw [fileBlock_finishWrite hlt, overwrite]
  rcases Nat.lt_or_ge b (fs.inodeRoot i).size with hold | hnew
  · rw [if_neg (by omega)]
    exact h.fileByte_old hdata hlt (div_lt_blockCount hold) ..
  · obtain ⟨-, hfit, hrem, z, hat, hne⟩ := hcase.resolve_left (by omega)
    obtain ⟨k, rfl⟩ := Nat.exists_eq_add_of_le hnew
    have hk : k < buf.length := by omega
    obtain ⟨hlt', hz⟩ := Inode.directAt_eq_some hat
    have hbc : G.blockCount (fs.inodeRoot i).size = (fs.inodeRoot i).size / G.blockSize := by
      simp [Geometry.blockCount, hrem]
    have hput' : G.put fs.dataRoot (z * G.blockSize) buf = some data := by
      have hput := hput (hbc ▸ hlt')
      simp only [hrem, hbc, hz, Nat.cast_zero, add_zero] at hput
      exact hput
    obtain ⟨hvalid, hbyte⟩ := h.fileByte_new hrem hat hne hput' hk hfit size mtim atim
    refine ⟨hvalid, hbyte.trans ?_⟩
    rw [if_pos hnew, Nat.add_sub_cancel_left, List.getElem?_eq_getElem hk, Option.getD_some]

/-- A write that lands behaves as an overwrite. -/
theorem readAfterWrite_of_lands (hU : U.Correct) {isDirectory : ℕ → Bool}
    (hdirs : U.ResolvesEntries isDirectory) (h : fs.WellFormed)
    (hvirtual : U.isVirtualPath path = none) (hget : U.getInode fs path = some i)
    (hfile : isDirectory (fs.inodeRoot i).mode = false) {count : ℕ}
    (hmax : off + count ≤ (G.NUM_DIRECT_BLOCKS + G.NUM_INDIRECT_BLOCKS) * G.blockSize)
    (hlands : (fs.inodeRoot i).WriteLands off count) :
    ReadAfterWrite U fs path (fs.inodeRoot i).size (fs.fileByte i) off count := by
  intro buf mtim atim hlen
  subst hlen
  have hlimit := G.size_lt
  have hend := hlands.end_le
  obtain ⟨hoff, hcase⟩ := id hlands
  have hbc : G.blockCount (fs.inodeRoot i).size ≤ G.NUM_DIRECT_BLOCKS :=
    Geometry.blockCount_le.mpr (by omega)
  obtain ⟨fs', reply, hwrite, -, -⟩ := writeInode_spec (U := U) h.inv path mtim atim
    hlands.writeFits fun fs₁ hmin ↦ minBlockcount_fills hU h.inv hget hmin
  obtain ⟨data, rfl, hret, herrno, hdata, hzero, hdir⟩ :=
    writeInode_changedOnly (minBlockcount_eq hU h hget) hbc (by omega) hwrite
  have hreply : reply = ⟨buf.length, off + buf.length, none⟩ := by
    have hreturned : reply.off = off + buf.length := by
      rcases hcase with ⟨hcount, -⟩ | ⟨-, -, hrem, z, hat, -⟩
      · rw [hzero (by omega)]
        omega
      · obtain ⟨hlt, -⟩ := Inode.directAt_eq_some hat
        have hlt' : G.blockCount (fs.inodeRoot i).size < G.NUM_DIRECT_BLOCKS := by
          simpa [Geometry.blockCount, hrem] using hlt
        rw [(hdir hlt').1, hlands.spill_eq_zero]
        omega
    cases reply
    simp_all
  subst hreply
  set fs' := fs.finishWrite i data (off + buf.length) mtim atim with hfs'
  have hsize : (fs'.inodeRoot i).size = off + buf.length := by
    simp only [hfs', FileSystem.finishWrite, setInode_inodeRoot_self]
    omega
  have hget' : U.getInode fs' path = some i := (h.getInode_write hdirs hfile hdata ..).trans hget
  have hmaxsize : max (fs.inodeRoot i).size (off + buf.length) = off + buf.length :=
    max_eq_right (by omega)
  have hbyte (b : ℕ) (hb : b < off + buf.length) :=
    fileByte_of_lands h hlands hdata (fun hlt ↦ (hdir hlt).2 hlands.fit) hb (off + buf.length)
      mtim atim
  refine ⟨fs', i, ?_, hget', ?_, fun start n hle ↦ ?_⟩
  · rw [minixfsWrite_eq (by omega), hget]
    exact hwrite
  · rw [hsize, hmaxsize]
  · rw [hmaxsize] at hle
    obtain ⟨fs'', hread⟩ := minixfsRead_direct hvirtual hget' (by omega) (n := n) atim
      (show start + n ≤ (fs'.inodeRoot i).size by omega) fun b _ hb ↦
        ⟨by omega, (hbyte b (by omega)).1⟩
    refine ⟨fs'', ?_⟩
    rw [hread]
    congr 3
    apply List.map_congr_left
    intro k hk
    rw [List.mem_range] at hk
    exact (hbyte (start + k) (by omega)).2

/-- A copy to the block `-1` leaves the data blocks. -/
theorem writeInode_unassigned (hmin : U.minBlockcount fs path
      (G.blockCount (fs.inodeRoot i).size) = some fs)
    (hdir : G.blockCount (fs.inodeRoot i).size < G.NUM_DIRECT_BLOCKS)
    (hneg : (fs.inodeRoot i).direct ⟨_, hdir⟩ = -1) (hpos : 0 < buf.length)
    (hsmall : buf.length < 2 ^ 31) : U.writeInode fs path i buf off mtim atim = none := by
  have hlt := Nat.mod_lt (fs.inodeRoot i).size G.blockSize_pos
  have hblock : G.blockSize < 2 ^ 31 := by
    apply lt_of_le_of_lt _ G.size_lt
    exact Nat.le_mul_of_pos_left _ (Nat.add_pos_left G.direct_pos _)
  have hput : ∀ bytes : List UInt8, bytes ≠ [] → G.put fs.dataRoot
      (-1 * G.blockSize + ((fs.inodeRoot i).size % G.blockSize : ℕ)) bytes = none := by
    intro bytes hne
    rw [Geometry.put, if_neg hne, if_neg (by omega)]
  have hbuf : ∀ n bytes, 0 < n → upTo buf n = some bytes → bytes ≠ [] := by
    rintro n bytes hn hbytes rfl
    have := (upTo_eq_some hbytes).1
    simp at this
    omega
  have hnone : writeBlocks (fs.inodeRoot i) buf.length ((fs.inodeRoot i).size % G.blockSize) (-1)
      ⟨fs.dataRoot, off, 0, buf, G.blockCount (fs.inodeRoot i).size⟩ = none := by
    rw [writeBlocks, Nat.mod_eq_of_lt (by omega)]
    split
    · cases hbytes : upTo buf buf.length with
      | none => rfl
      | some bytes =>
        simp only [Option.bind_eq_bind, Option.bind_some, hput bytes (hbuf _ _ hpos hbytes),
          Option.bind_none]
    · cases hbytes : upTo buf (G.blockSize - (fs.inodeRoot i).size % G.blockSize) with
      | none => simp only [Option.bind_eq_bind, hbytes, Option.bind_none]
      | some bytes =>
        simp only [Option.bind_eq_bind, hbytes, Option.bind_some,
          hput bytes (hbuf _ _ (by omega) hbytes), Option.bind_none]
  simp only [writeInode, hmin, hdir, if_true, Inode.directAt_eq hdir, hneg, Option.bind_eq_bind,
    Option.bind_some, hnone, Option.bind_none]

/-- Every byte of the file can be read after an overwrite, so it lies in direct blocks. -/
theorem end_le_of_readAfterWrite (hvirtual : U.isVirtualPath path = none) {size count : ℕ}
    {old : ℕ → UInt8} (hlimit : max size (off + count) < 2 ^ 31)
    (hraw : ReadAfterWrite U fs path size old off count) :
    max size (off + count) ≤ G.NUM_DIRECT_BLOCKS * G.blockSize := by
  have hpos := G.blockSize_pos
  by_contra hgt
  obtain ⟨fs', i', -, hget', hsize', hread⟩ := hraw (List.replicate count 0) 0 0 (by simp)
  obtain ⟨fs'', hone⟩ := hread (G.NUM_DIRECT_BLOCKS * G.blockSize) 1 (by omega)
  rw [minixfsRead_behind_direct hvirtual hget' (by omega) 0 (by omega)] at hone
  simp at hone

/-- What an overwrite of a regular file has done: the bytes read afterwards are those of
`finishWrite`, which changes blocks behind those in use. -/
theorem write_of_readAfterWrite (hU : U.Correct) {isDirectory : ℕ → Bool}
    (hdirs : U.ResolvesEntries isDirectory) (h : fs.WellFormed) (hget : U.getInode fs path = some i)
    (hfile : isDirectory (fs.inodeRoot i).mode = false) {count : ℕ}
    (hmax : off + count ≤ (G.NUM_DIRECT_BLOCKS + G.NUM_INDIRECT_BLOCKS) * G.blockSize)
    (hbc : G.blockCount (fs.inodeRoot i).size ≤ G.NUM_DIRECT_BLOCKS)
    (hraw : ReadAfterWrite U fs path (fs.inodeRoot i).size (fs.fileByte i) off count)
    (hlen : buf.length = count) : ∃ data,
      U.writeInode fs path i buf off 0 0 =
        some (fs.finishWrite i data (off + count) 0 0, ⟨count, off + count, none⟩) ∧
      G.ChangedOnly (fs.inodeRoot i).blocksBehind fs.dataRoot data ∧
      ((fs.finishWrite i data (off + count) 0 0).inodeRoot i).size =
        max (fs.inodeRoot i).size (off + count) ∧
      (G.blockCount (fs.inodeRoot i).size < G.NUM_DIRECT_BLOCKS →
        (off + count : ℤ) = off + (fs.inodeRoot i).spill count + count) ∧
      ∀ start n, start + n ≤ max (fs.inodeRoot i).size (off + count) → ∃ fs'',
        U.minixfsRead (fs.finishWrite i data (off + count) 0 0) (some path) n start 0 =
          some (fs'', (List.range n).map fun k ↦ overwrite (fs.fileByte i) off buf (start + k),
            ⟨n, start + n, none⟩) := by
  have hlimit := G.size_lt
  obtain ⟨fs', i', hwrite, hget', hsize', hread⟩ := hraw buf 0 0 hlen
  rw [minixfsWrite_eq (by omega), hget] at hwrite
  obtain ⟨data, rfl, -, -, hdata, -, hdir⟩ :=
    writeInode_changedOnly (minBlockcount_eq hU h hget) hbc (by omega) hwrite
  obtain rfl : i' = i := by
    have hstable := h.getInode_write hdirs hfile hdata (off + count) 0 0 path
    rw [hget', hget] at hstable
    exact Option.some.inj hstable
  exact ⟨data, hwrite, hdata, hsize', fun hlt ↦ by simpa [hlen] using (hdir hlt).1, hread⟩

/-- The byte at the offset of an overwrite can be any byte, and the blocks in use keep theirs,
so the offset lies behind them. -/
theorem blockCount_le_of_read {isDirectory : ℕ → Bool}
    (hdirs : U.ResolvesEntries isDirectory) (h : fs.WellFormed)
    (hvirtual : U.isVirtualPath path = none) (hget : U.getInode fs path = some i)
    (hfile : isDirectory (fs.inodeRoot i).mode = false) {data : Bytes} {size : ℤ} {c : UInt8}
    (hne : c ≠ fs.fileByte i off) (hoff_lt : off / G.blockSize < G.NUM_DIRECT_BLOCKS)
    (hdata : G.ChangedOnly (fs.inodeRoot i).blocksBehind fs.dataRoot data)
    (hsize : ((fs.finishWrite i data size 0 0).inodeRoot i).size < 2 ^ 63)
    (hoff : off < ((fs.finishWrite i data size 0 0).inodeRoot i).size)
    (hread : ∃ fs'', U.minixfsRead (fs.finishWrite i data size 0 0) (some path) 1 off 0 =
      some (fs'', [c], ⟨1, off + 1, none⟩)) :
    G.blockCount (fs.inodeRoot i).size ≤ off / G.blockSize := by
  by_contra hlt
  rw [not_le] at hlt
  have hget' : U.getInode (fs.finishWrite i data size 0 0) path = some i :=
    (h.getInode_write hdirs hfile hdata ..).trans hget
  obtain ⟨hvalid, hold⟩ := h.fileByte_old hdata hoff_lt hlt size 0 0
  obtain ⟨fs₁, hread₁⟩ := minixfsRead_direct hvirtual hget' hsize (n := 1) 0
    (show off + 1 ≤ _ by omega) fun b hle hlt' ↦ by
      obtain rfl : b = off := by omega
      rw [fileBlock_finishWrite hoff_lt]
      exact ⟨(Nat.div_lt_iff_lt_mul G.blockSize_pos).mp hoff_lt, hvalid⟩
  obtain ⟨fs₂, hread₂⟩ := hread
  rw [hread₁] at hread₂
  simp only [Option.some.injEq, Prod.mk.injEq, List.range_one, List.map_cons, List.map_nil,
    Nat.add_zero, List.cons.injEq, and_true] at hread₂
  exact hne (hread₂.2.1.symm.trans hold)

/-- A write that behaves as an overwrite lands. -/
theorem lands_of_readAfterWrite (hU : U.Correct) {isDirectory : ℕ → Bool}
    (hdirs : U.ResolvesEntries isDirectory) (h : fs.WellFormed)
    (hvirtual : U.isVirtualPath path = none) (hget : U.getInode fs path = some i)
    (hfile : isDirectory (fs.inodeRoot i).mode = false) {count : ℕ}
    (hoff : off ≤ (fs.inodeRoot i).size)
    (hmax : off + count ≤ (G.NUM_DIRECT_BLOCKS + G.NUM_INDIRECT_BLOCKS) * G.blockSize)
    (hraw : ReadAfterWrite U fs path (fs.inodeRoot i).size (fs.fileByte i) off count) :
    (fs.inodeRoot i).WriteLands off count := by
  have hlimit := G.size_lt
  have hpos := G.blockSize_pos
  have hsize_le := h.size_le i
  have hend := end_le_of_readAfterWrite hvirtual (by omega) hraw
  have hbc : G.blockCount (fs.inodeRoot i).size ≤ G.NUM_DIRECT_BLOCKS :=
    Geometry.blockCount_le.mpr (by omega)
  have hsize' : ∀ data, ((fs.finishWrite i data (off + count) 0 0).inodeRoot i).size =
      off + count := by
    intro data
    simp only [FileSystem.finishWrite, setInode_inodeRoot_self]
    omega
  -- a byte at the offset that differs from the old one
  obtain ⟨data, hdone, hdata, hsize, hdir, hread⟩ := write_of_readAfterWrite hU hdirs h hget hfile
    hmax hbc hraw (List.length_replicate (n := count) (a := fs.fileByte i off + 1))
  rcases Nat.eq_zero_or_pos count with hzero | hcount
  · rw [hsize' data] at hsize
    exact ⟨by omega, Or.inl ⟨hzero, by omega⟩⟩
  have hoff_lt : off / G.blockSize < G.NUM_DIRECT_BLOCKS :=
    (Nat.div_lt_iff_lt_mul hpos).mpr (by omega)
  have hbehind : G.blockCount (fs.inodeRoot i).size ≤ off / G.blockSize := by
    refine blockCount_le_of_read (c := fs.fileByte i off + 1) hdirs h hvirtual hget hfile ?_ hoff_lt
      hdata (by rw [hsize']; omega) (by rw [hsize']; omega) ?_
    · simp
    · obtain ⟨fs₂, hread₂⟩ := hread off 1 (by omega)
      exact ⟨fs₂, by simpa [overwrite, hcount] using hread₂⟩
  obtain ⟨hrem, hoff_eq⟩ := Geometry.eq_of_blockCount_le hoff hbehind
  have hbc' : G.blockCount (fs.inodeRoot i).size = (fs.inodeRoot i).size / G.blockSize := by
    simp [Geometry.blockCount, hrem]
  have hdirect : G.blockCount (fs.inodeRoot i).size < G.NUM_DIRECT_BLOCKS := by omega
  refine ⟨hoff_eq, Or.inr ⟨hcount, ?_, hrem, (fs.inodeRoot i).direct ⟨_, hdirect⟩, ?_, ?_⟩⟩
  · by_contra hlong
    have hspill : (fs.inodeRoot i).spill count = G.blockSize := by
      rw [Inode.spill, if_neg (by omega), hrem, Nat.sub_zero]
    have := hdir hdirect
    rw [hspill] at this
    omega
  · rw [← hbc']
    exact Inode.directAt_eq hdirect
  · intro hneg
    rw [writeInode_unassigned (minBlockcount_eq hU h hget) hdirect hneg (by simpa using hcount)
      (by simp; omega)] at hdone
    simp at hdone

theorem created_inode (hcreate : U.minixfsCreateInodeForPath fs path = some (fs', some i)) :
    ∃ parent node, fs'.inodeRoot i = U.initInode parent node := by
  unfold minixfsCreateInodeForPath at hcreate
  split at hcreate
  · simp at hcreate
  · simp only [Option.bind_eq_bind, Option.bind_eq_some_iff] at hcreate
    obtain ⟨⟨fs₁, added⟩, -, hcreate⟩ := hcreate
    split at hcreate
    · simp only [Option.pure_def, Option.some.injEq, Prod.mk.injEq] at hcreate
      obtain ⟨rfl, rfl⟩ := hcreate
      exact ⟨_, _, setInode_inodeRoot_self⟩
    · simp at hcreate

/-- A new file behaves as an overwritten one after empty writes only. -/
theorem readAfterWrite_created (hU : U.Correct) {isDirectory : ℕ → Bool}
    (hdirs : U.ResolvesEntries isDirectory) (hvirtual : U.isVirtualPath path = none)
    (hget : U.getInode fs path = none)
    (hcreate : U.minixfsCreateInodeForPath fs path = some (fs', some i))
    (hget' : U.getInode fs' path = some i) (old : ℕ → UInt8) {count : ℕ}
    (hmax : count ≤ (G.NUM_DIRECT_BLOCKS + G.NUM_INDIRECT_BLOCKS) * G.blockSize) :
    ReadAfterWrite U fs path 0 old 0 count ↔ count = 0 := by
  have hlimit := G.size_lt
  obtain ⟨parent, node, hnode⟩ := created_inode hcreate
  obtain ⟨hsize, hdirect, -⟩ := hU.initInode parent node
  rw [← hnode] at hsize hdirect
  have hmin : U.minBlockcount fs' path (G.blockCount (fs'.inodeRoot i).size) = some fs' := by
    apply hU.minBlockcount_covered fs' path i _ hget'
    simp [FileSystem.Covers, hsize]
  have hwrite : ∀ (buf : List UInt8) (mtim atim : ℕ), buf.length = count →
      U.minixfsWrite fs path buf (0 : ℕ) mtim atim =
        U.writeInode fs' path i buf (0 : ℕ) mtim atim := by
    intro buf mtim atim hlen
    rw [minixfsWrite_eq (by omega), hget]
    simp only [hcreate, Option.bind_some]
  constructor
  · intro hraw
    by_contra hne
    obtain ⟨fs₁, i₁, hdone, -⟩ := hraw (List.replicate count 0) 0 0 (by simp)
    have hlen : (List.replicate count (0 : UInt8)).length = count := by simp
    have hbc : G.blockCount (fs'.inodeRoot i).size < G.NUM_DIRECT_BLOCKS := by
      rw [hsize, Geometry.blockCount_zero]
      exact G.direct_pos
    rw [hwrite _ 0 0 hlen, writeInode_unassigned hmin hbc (hdirect _) (by omega) (by omega)] at hdone
    simp at hdone
  · rintro rfl buf mtim atim hlen
    obtain rfl := List.length_eq_zero_iff.mp hlen
    rw [hsize, Geometry.blockCount_zero] at hmin
    have hdone := writeInode_nil path mtim atim hsize (le_refl (0 : ℤ)) (by norm_num) hmin
    set fs₁ := fs'.finishWrite i fs'.dataRoot 0 mtim atim with hfs₁
    have hsize₁ : (fs₁.inodeRoot i).size = 0 := by simp [hfs₁, FileSystem.finishWrite]
    have hget₁ : U.getInode fs₁ path = some i := by
      rw [← hget']
      apply hdirs.congr
      · intro d
        by_cases hd : d = i
        · simp [hfs₁, FileSystem.finishWrite, hd]
        · simp [hfs₁, FileSystem.finishWrite, setInode_inodeRoot_of_ne hd]
      · intro d hdir
        have hd : d ≠ i := by
          rintro rfl
          rw [hnode, hdirs.initInode] at hdir
          simp at hdir
        refine ⟨by simp [hfs₁, FileSystem.finishWrite, setInode_inodeRoot_of_ne hd], fun b _ ↦ ?_⟩
        rw [hfs₁, fileByte_finishWrite]
    refine ⟨fs₁, i, ?_, hget₁, by simp [hsize₁], fun start n hle ↦ ?_⟩
    · rw [hwrite [] mtim atim rfl]
      exact hdone
    · obtain ⟨rfl, rfl⟩ : start = 0 ∧ n = 0 := by omega
      obtain ⟨fs₂, hread⟩ := minixfsRead_direct hvirtual hget₁ (by omega) atim
        (show 0 + 0 ≤ (fs₁.inodeRoot i).size by omega) (by omega)
      exact ⟨fs₂, hread⟩

end Utils

/-- A write behaves as an overwrite of a range of the file exactly when the range starts
at the end of the file and at the beginning of an assigned direct block that holds it. -/
theorem readAfterWrite_iff_lands {U : Utils G} (hU : U.Correct) {isDirectory : ℕ → Bool}
    (hdirs : U.ResolvesEntries isDirectory) {fs : FileSystem G} (h : fs.WellFormed)
    {path : String} (hvirtual : U.isVirtualPath path = none) {size : ℕ} {old : ℕ → UInt8}
    (htarget : Target U isDirectory fs path size old) {off count : ℕ} (hoff : off ≤ size)
    (hmax : off + count ≤ (G.NUM_DIRECT_BLOCKS + G.NUM_INDIRECT_BLOCKS) * G.blockSize) :
    ReadAfterWrite U fs path size old off count ↔ U.WriteLands fs path off count := by
  cases htarget with
  | @existing i hget hfile =>
    rw [Utils.WriteLands, hget]
    exact ⟨Utils.lands_of_readAfterWrite hU hdirs h hvirtual hget hfile hoff hmax,
      Utils.readAfterWrite_of_lands hU hdirs h hvirtual hget hfile hmax⟩
  | @created fs₁ i _ hget hcreate hget₁ =>
    obtain rfl : off = 0 := by omega
    rw [Utils.WriteLands, hget]
    exact Utils.readAfterWrite_created hU hdirs hvirtual hget hcreate hget₁ old (by omega)

theorem smallUtils_resolvesEntries :
    smallUtils.ResolvesEntries fun mode ↦ decide (mode / 512 = 1) where
  congr _ _ _ _ _ := rfl
  initInode parent _ := by
    have hlt := Nat.mod_lt parent.mode (show 0 < 512 by decide)
    simp [smallUtils, Nat.div_eq_of_lt hlt]

theorem smallDisk_target : Target smallUtils (fun mode ↦ decide (mode / 512 = 1)) smallDisk "/b" 4
    (smallDisk.fileByte 2) := Target.existing (i := 2) rfl rfl

/-- One byte is appended to `b`. -/
theorem readAfterWrite_append : ReadAfterWrite smallUtils smallDisk "/b" 4 (smallDisk.fileByte 2) 4 1 :=
  (readAfterWrite_iff_lands smallUtils_correct smallUtils_resolvesEntries smallDisk_wellFormed rfl
    smallDisk_target (by decide) (by decide)).mpr
    ⟨rfl, Or.inr ⟨by decide, by decide, rfl, 6, rfl, by decide⟩⟩

/-- The first byte of `b` is to be overwritten: the file of four bytes is left with one. -/
theorem overwriting_shrinks : smallUtils.Correct ∧
    smallUtils.ResolvesEntries (fun mode ↦ decide (mode / 512 = 1)) ∧ smallDisk.WellFormed ∧
    Target smallUtils (fun mode ↦ decide (mode / 512 = 1)) smallDisk "/b" 4 (smallDisk.fileByte 2) ∧
    ¬ ReadAfterWrite smallUtils smallDisk "/b" 4 (smallDisk.fileByte 2) 0 1 := by
  refine ⟨smallUtils_correct, smallUtils_resolvesEntries, smallDisk_wellFormed, smallDisk_target, ?_⟩
  intro h
  obtain ⟨fs', i, hwrite, hget, hsize, -⟩ := h [7] 0 0 rfl
  have hdone : smallUtils.minixfsWrite smallDisk "/b" [7] (0 : ℕ) 0 0 =
      some (smallDisk.finishWrite 2 (memcpy smallDisk.dataRoot 24 [7]) 1 0 0, ⟨1, 1, none⟩) := rfl
  obtain rfl := (Prod.mk.inj (Option.some.inj (hdone.symm.trans hwrite))).1
  obtain rfl : 2 = i := Option.some.inj hget
  exact absurd hsize (by decide)

end SystemProgramming.FindingFilesystems
