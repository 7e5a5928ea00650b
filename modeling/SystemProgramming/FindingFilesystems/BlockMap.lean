import SystemProgramming.FindingFilesystems.ReadAfterWrite

/-!
# Reading along the block map

A read goes to the direct blocks as the block map says.  Behind them it counts on from the
indirect block itself instead of looking up the entries of that block.
-/

namespace SystemProgramming.FindingFilesystems

variable {G : Geometry}

theorem fetch_eq_some {data : Bytes} {addr : ℤ} {n : ℕ} {part : List UInt8}
    (h : G.fetch data addr n = some part) :
    part.length = n ∧ ∀ k < n, part[k]? = some (data (addr + k).toNat) := by
  unfold Geometry.fetch at h
  split at h
  · next hn =>
    subst hn
    cases h
    simp
  · split at h
    · next haddr =>
      cases h
      refine ⟨by simp, fun k hk ↦ ?_⟩
      have hk' : (addr + k).toNat = addr.toNat + k := by omega
      simp [hk, hk']
    · cases h

/-- Where the loop comes to an end, every byte was read from the place of its block. -/
theorem readLoop_eq_some {fs : FileSystem G} {node : Inode G} {count : ℕ} :
    ∀ (fuel blockCount blockRemain : ℕ) (bytes r : List UInt8), blockRemain < G.blockSize →
      bytes.length ≤ count → count - bytes.length ≤ fuel →
      readLoop fs node count fuel blockCount blockRemain bytes = some r →
      bytes <+: r ∧ ∀ k < count - bytes.length,
        ∃ z, node.readPlace ((blockCount * G.blockSize + blockRemain + k) / G.blockSize) = some z ∧
          r[bytes.length + k]? = some (fs.dataRoot ((z * G.blockSize +
            ((blockCount * G.blockSize + blockRemain + k) % G.blockSize : ℕ)).toNat)) := by
  intro fuel
  induction fuel with
  | zero =>
    intro bc rem bytes r _ _ hfuel h
    cases h
    exact ⟨List.prefix_rfl, fun k hk ↦ by omega⟩
  | succ fuel ih =>
    intro bc rem bytes r hrem hle hfuel h
    by_cases hdone : bytes.length = count
    · rw [readLoop, if_neg (not_not_intro hdone)] at h
      cases h
      exact ⟨List.prefix_rfl, fun k hk ↦ by omega⟩
    have hpos := G.blockSize_pos
    rw [readLoop_succ _ _ _ _ _ _ _ hdone] at h
    obtain ⟨z, hz, hbind⟩ := Option.bind_eq_some_iff.mp h
    obtain ⟨part, hpart, hloop⟩ := Option.bind_eq_some_iff.mp hbind
    obtain ⟨hlength, hbytes⟩ := fetch_eq_some hpart
    set readSize := min (count - bytes.length) (G.blockSize - rem) with hsize
    have hlen : (bytes ++ part).length = bytes.length + readSize := by
      rw [List.length_append, hlength]
    obtain ⟨hrest, hall⟩ := ih (bc + 1) 0 (bytes ++ part) r hpos (by omega) (by omega) hloop
    refine ⟨(List.prefix_append _ _).trans hrest, fun k hk ↦ ?_⟩
    rcases lt_or_ge k readSize with hlt | hge
    · have hsum : bc * G.blockSize + rem + k = G.blockSize * bc + (rem + k) := by ring
      have hdiv : (bc * G.blockSize + rem + k) / G.blockSize = bc := by
        rw [hsum, Nat.mul_add_div hpos, Nat.div_eq_of_lt (by omega), Nat.add_zero]
      have hmod : (bc * G.blockSize + rem + k) % G.blockSize = rem + k := by
        rw [hsum, Nat.mul_add_mod, Nat.mod_eq_of_lt (by omega)]
      have hfound : r[bytes.length + k]? = part[k]? := by
        rw [List.prefix_iff_getElem?.mp hrest _ (by omega), ← List.getElem?_eq_getElem (by omega),
          List.getElem?_append_right (Nat.le_add_right _ _), Nat.add_sub_cancel_left]
      refine ⟨z, by rw [hdiv, hz], ?_⟩
      rw [hfound, hbytes k hlt, hmod]
      push_cast
      rw [add_assoc]
    · obtain ⟨j, rfl⟩ := Nat.exists_eq_add_of_le hge
      obtain ⟨y, hy, hfound⟩ := hall j (by omega)
      have hsum : (bc + 1) * G.blockSize + 0 + j = bc * G.blockSize + rem + (readSize + j) := by
        rw [Nat.succ_mul]
        omega
      rw [hsum] at hy hfound
      rw [hlen, Nat.add_assoc] at hfound
      exact ⟨y, hy, hfound⟩

namespace FileSystem

/-- The blocks of the file `i` exist, and those behind the direct blocks are entries of an
indirect block that is none of them. -/
structure BlockMap (fs : FileSystem G) (i : ℕ) : Prop where
  size_le : (fs.inodeRoot i).size ≤ (G.NUM_DIRECT_BLOCKS + G.NUM_INDIRECT_BLOCKS) * G.blockSize
  valid : ∀ b < (fs.inodeRoot i).size, 0 ≤ fs.fileBlock i b ∧ fs.fileBlock i b < G.DATA_NUMBER
  indirect_valid : G.NUM_DIRECT_BLOCKS * G.blockSize < (fs.inodeRoot i).size →
    0 ≤ (fs.inodeRoot i).indirect ∧ (fs.inodeRoot i).indirect < G.DATA_NUMBER
  separate : G.NUM_DIRECT_BLOCKS * G.blockSize < (fs.inodeRoot i).size →
    ∀ b < (fs.inodeRoot i).size, fs.fileBlock i b ≠ (fs.inodeRoot i).indirect

theorem WellFormed.blockMap {fs : FileSystem G} (h : fs.WellFormed) (i : ℕ) : fs.BlockMap i := by
  have hin : ∀ b < (fs.inodeRoot i).size, fs.InUse (blockSlot G i b) := fun b hb ↦
    h.inUse_blockSlot (div_lt_blockCount hb)
  have hindirect : G.NUM_DIRECT_BLOCKS * G.blockSize < (fs.inodeRoot i).size →
      fs.InUse (.indirect i) := fun hlt ↦ h.indirect_ne i (Geometry.lt_blockCount.mpr hlt)
  constructor
  · exact h.size_le i
  · intro b hb
    rw [← slot_blockSlot]
    exact h.valid _ (hin b hb)
  · exact fun hlt ↦ h.valid _ (hindirect hlt)
  · intro hlt b hb heq
    rw [← slot_blockSlot] at heq
    have hslot := h.unique _ (.indirect i) (hin b hb) (hindirect hlt) heq
    unfold blockSlot at hslot
    split at hslot <;> cases hslot

/-- The disks that differ from `fs` in the data only, but not in the block map of `i`. -/
def SameMap (fs fs' : FileSystem G) (i : ℕ) : Prop :=
  (∃ data, fs' = { fs with dataRoot := data }) ∧
    ∀ b < (fs.inodeRoot i).size, fs'.fileBlock i b = fs.fileBlock i b

theorem SameMap.refl (fs : FileSystem G) (i : ℕ) : fs.SameMap fs i :=
  ⟨⟨fs.dataRoot, rfl⟩, fun _ _ ↦ rfl⟩

end FileSystem

/-- The bytes of `i` from `off` on are read, and nothing but the access time changes. -/
def FileSystem.Reads (fs : FileSystem G) (i off count atim : ℕ)
    (r : Option (FileSystem G × List UInt8 × Reply)) : Prop :=
  ∃ fs', r = some (fs', (List.range (min count ((fs.inodeRoot i).size - off))).map
      (fun k ↦ fs.fileByte i (off + k)),
    ⟨(min count ((fs.inodeRoot i).size - off) : ℕ),
      (off + min count ((fs.inodeRoot i).size - off) : ℕ), none⟩) ∧
    (fs' = fs ∨ fs' = fs.setInode i { fs.inodeRoot i with atim })

/-- The read follows the block map: whatever the data blocks hold, it gives the bytes of the
file and so depends on no other block. -/
def FileSystem.ReadsMap (fs : FileSystem G) (i off count : ℕ) : Prop :=
  ∀ (U : Utils G) (path : String) (atim : ℕ) (fs' : FileSystem G), fs.SameMap fs' i →
    U.isVirtualPath path = none → U.getInode fs' path = some i →
    fs'.Reads i off count atim (U.minixfsRead fs' (some path) count off atim)

/-- The block of the byte `b` is where the loop looks for it. -/
def FileSystem.Consecutive (fs : FileSystem G) (i b : ℕ) : Prop :=
  b / G.blockSize < G.NUM_DIRECT_BLOCKS ∨ G.NUM_DIRECT_BLOCKS < b / G.blockSize ∧
    fs.fileBlock i b = (fs.inodeRoot i).indirect + ((b / G.blockSize : ℕ) - G.NUM_DIRECT_BLOCKS)

namespace FileSystem

variable {fs : FileSystem G} {i off count b : ℕ}

theorem BlockMap.div_lt (h : fs.BlockMap i) (hb : b < (fs.inodeRoot i).size) :
    b / G.blockSize < G.NUM_DIRECT_BLOCKS + G.NUM_INDIRECT_BLOCKS :=
  (Nat.div_lt_iff_lt_mul G.blockSize_pos).mpr (hb.trans_le h.size_le)

theorem Consecutive.readPlace (hc : fs.Consecutive i b)
    (hlt : b / G.blockSize < G.NUM_DIRECT_BLOCKS + G.NUM_INDIRECT_BLOCKS) :
    (fs.inodeRoot i).readPlace (b / G.blockSize) = some (fs.fileBlock i b) := by
  rcases hc with hdirect | ⟨hbehind, hblock⟩
  · rw [Inode.readPlace_direct hdirect, fileBlock, dif_pos hdirect]
  · rw [Inode.readPlace, if_neg (by omega), if_pos hlt.le, hblock]

/-- A place that the loop finds behind the direct blocks. -/
theorem readPlace_behind {z : ℤ} (hnot : ¬ b / G.blockSize < G.NUM_DIRECT_BLOCKS)
    (h : (fs.inodeRoot i).readPlace (b / G.blockSize) = some z) :
    G.NUM_DIRECT_BLOCKS < b / G.blockSize ∧
      z = (fs.inodeRoot i).indirect + ((b / G.blockSize : ℕ) - G.NUM_DIRECT_BLOCKS) ∧
      b / G.blockSize ≤ G.NUM_DIRECT_BLOCKS + G.NUM_INDIRECT_BLOCKS := by
  unfold Inode.readPlace at h
  split at h
  · rw [Inode.directAt, dif_neg hnot] at h
    cases h
  · split at h
    · next hlt hle => exact ⟨by omega, (Option.some.inj h).symm, hle⟩
    · cases h

end FileSystem

namespace FileSystem

variable {U : Utils G} {fs : FileSystem G} {path : String} {i off count : ℕ}

/-- A read that starts inside the file is one run of the loop.  The sum of the offset and the
count is taken modulo `2 ^ 64`, and where it wraps around the count is not cut. -/
theorem minixfsRead_inside (hvirtual : U.isVirtualPath path = none)
    (hget : U.getInode fs path = some i) (h : fs.BlockMap i) (hoff : off < (fs.inodeRoot i).size)
    (hcount : count < 2 ^ 64) (atim : ℕ) {n : ℕ}
    (hn : n = if off + count < 2 ^ 64 then min count ((fs.inodeRoot i).size - off) else count) :
    U.minixfsRead fs (some path) count off atim =
      (readLoop fs (fs.inodeRoot i) n n (off / G.blockSize) (off % G.blockSize) []).map fun bytes ↦
        (fs.setInode i { fs.inodeRoot i with atim }, bytes, ⟨n, off + n, none⟩) := by
  have hmax := h.size_le.trans_lt G.size_lt
  have hlt := h.div_lt hoff
  have hbmod : ((fs.inodeRoot i).size : ℤ).bmod (2 ^ 64) = (fs.inodeRoot i).size := by
    apply Int.bmod_eq_of_le <;> omega
  have hstart : ((off : ℤ) % 2 ^ 64).toNat = off := by omega
  have hcut : (if (fs.inodeRoot i).size ≤ (off + count) % 2 ^ 64 then
      (((fs.inodeRoot i).size - off : ℤ) % 2 ^ 64).toNat else count) = n := by
    rw [hn]
    split <;> split <;> omega
  simp only [Utils.minixfsRead, Option.bind_some, hvirtual, hget, hbmod, hstart, hcut]
  rw [if_neg (by omega), if_neg (by omega)]
  cases readLoop fs (fs.inodeRoot i) n n (off / G.blockSize) (off % G.blockSize) [] <;> rfl

/-- The bytes that a loop from the offset `off` on has returned. -/
theorem readLoop_places {r : List UInt8}
    (h : readLoop fs (fs.inodeRoot i) count count (off / G.blockSize) (off % G.blockSize) [] = some r)
    {k : ℕ} (hk : k < count) :
    ∃ z, (fs.inodeRoot i).readPlace ((off + k) / G.blockSize) = some z ∧
      r[k]? = some (fs.dataRoot ((z * G.blockSize + ((off + k) % G.blockSize : ℕ)).toNat)) := by
  have hall := (readLoop_eq_some count _ _ [] r (Nat.mod_lt _ G.blockSize_pos) (Nat.zero_le _)
    le_rfl h).2
  obtain ⟨z, hz, hfound⟩ := hall k hk
  rw [Nat.div_add_mod'] at hz hfound
  rw [List.length_nil, Nat.zero_add] at hfound
  exact ⟨z, hz, hfound⟩

/-- Where the blocks of a read lie as the loop assumes, it returns the bytes of the file. -/
theorem reads_of_consecutive (hvirtual : U.isVirtualPath path = none)
    (hget : U.getInode fs path = some i) (h : fs.BlockMap i) (hoff : off < (fs.inodeRoot i).size)
    (hsum : off + count < 2 ^ 64) (atim : ℕ)
    (hc : ∀ b, off ≤ b → b < off + count → b < (fs.inodeRoot i).size → fs.Consecutive i b) :
    fs.Reads i off count atim (U.minixfsRead fs (some path) count off atim) := by
  obtain ⟨n, hn⟩ : ∃ n, n = min count ((fs.inodeRoot i).size - off) := ⟨_, rfl⟩
  have hloop : readLoop fs (fs.inodeRoot i) n n (off / G.blockSize) (off % G.blockSize) [] = _ :=
    readLoop_spec (f := fs.fileByte i) n _ _ [] (Nat.mod_lt _ G.blockSize_pos) (Nat.zero_le _)
      le_rfl (by
        intro b hle hlt
        rw [Nat.div_add_mod', List.length_nil] at hlt
        rw [Nat.div_add_mod'] at hle
        have hb : b < (fs.inodeRoot i).size := by omega
        obtain ⟨hz, hzlt⟩ := h.valid b hb
        exact ⟨_, (hc b hle (by omega) hb).readPlace (h.div_lt hb), hz, hzlt, rfl⟩)
  rw [Nat.div_add_mod', List.length_nil, Nat.sub_zero, List.nil_append] at hloop
  rw [minixfsRead_inside hvirtual hget h hoff (by omega) atim (hn.trans (if_pos hsum).symm),
    hloop]
  refine ⟨_, ?_, Or.inr rfl⟩
  rw [← hn]
  push_cast
  rfl

end FileSystem

/-- The helpers for a disk on which every path leads to the inode `i`. -/
def Utils.finding (G : Geometry) (i : ℕ) : Utils G where
  getInode _ _ := some i
  firstUnusedInode _ := none
  parentDirectory _ _ := (none, "")
  validFilename _ := false
  makeStringFromDirent _ _ _ := 0
  initInode _ node := node
  firstUnusedData _ := -1
  getDataUsed fs z := fs.dataUsed z
  setDataUsed fs z := fs.mark z
  minBlockcount fs _ _ := some fs
  isVirtualPath _ := none
  geteuid := 0
  getegid := 0

namespace FileSystem

variable {fs fs' : FileSystem G} {i off count b : ℕ}

theorem SameMap.inodeRoot (hs : fs.SameMap fs' i) : fs'.inodeRoot = fs.inodeRoot := by
  obtain ⟨⟨data, rfl⟩, -⟩ := hs
  rfl

theorem SameMap.blockMap (hs : fs.SameMap fs' i) (h : fs.BlockMap i) : fs'.BlockMap i := by
  have hroot := hs.inodeRoot
  constructor
  · rw [hroot]
    exact h.size_le
  · intro b hb
    rw [hroot] at hb
    rw [hs.2 b hb]
    exact h.valid b hb
  · rw [hroot]
    exact h.indirect_valid
  · intro hlt b hb
    rw [hroot] at hlt hb ⊢
    rw [hs.2 b hb]
    exact h.separate hlt b hb

/-- What a read that follows the map tells about the loop. -/
theorem ReadsMap.loop (hr : fs.ReadsMap i off count) (h : fs.BlockMap i)
    (hoff : off < (fs.inodeRoot i).size) (hcount : count < 2 ^ 64) (hs : fs.SameMap fs' i) :
    off + count < 2 ^ 64 ∧ ∀ b, off ≤ b → b < off + count → b < (fs.inodeRoot i).size →
      ∃ z, (fs.inodeRoot i).readPlace (b / G.blockSize) = some z ∧
        fs'.fileByte i b = fs'.dataRoot ((z * G.blockSize + (b % G.blockSize : ℕ)).toNat) := by
  have hroot := hs.inodeRoot
  have hmax := h.size_le.trans_lt G.size_lt
  obtain ⟨n, hn⟩ : ∃ n, n = if off + count < 2 ^ 64 then min count ((fs.inodeRoot i).size - off)
    else count := ⟨_, rfl⟩
  have hread := hr (.finding G i) "" 0 fs' hs rfl rfl
  rw [minixfsRead_inside (n := n) rfl rfl (hs.blockMap h) (by rwa [hroot]) hcount 0
    (by rw [hn, hroot])] at hread
  obtain ⟨fs'', hsome, -⟩ := hread
  obtain ⟨r, hloop, hreply⟩ := Option.map_eq_some_iff.mp hsome
  simp only [Prod.mk.injEq, Reply.mk.injEq, Nat.cast_inj, hroot] at hreply
  obtain ⟨-, hbytes, hret, -⟩ := hreply
  have hsum : off + count < 2 ^ 64 := by
    by_contra hwrap
    rw [if_neg hwrap] at hn
    omega
  refine ⟨hsum, fun b hle hlt hb ↦ ?_⟩
  obtain ⟨k, rfl⟩ := Nat.exists_eq_add_of_le hle
  have hk : k < n := by omega
  obtain ⟨z, hz, hfound⟩ := readLoop_places hloop hk
  rw [hroot] at hz
  refine ⟨z, hz, ?_⟩
  have hget : r[k]? = some (fs'.fileByte i (off + k)) := by
    rw [hbytes, ← hret]
    simp [hk]
  exact Option.some.inj (hget.symm.trans hfound)

def setByte (fs : FileSystem G) (a : ℕ) (v : UInt8) : FileSystem G :=
  { fs with dataRoot := Function.update fs.dataRoot a v }

/-- Other data may stand in the block of a byte behind the direct blocks. -/
theorem BlockMap.sameMap_setByte (h : fs.BlockMap i) (hb : b < (fs.inodeRoot i).size)
    (hbehind : G.NUM_DIRECT_BLOCKS < b / G.blockSize) (v : UInt8) :
    fs.SameMap (fs.setByte ((fs.fileBlock i b * G.blockSize).toNat + b % G.blockSize) v) i := by
  have hlt : G.NUM_DIRECT_BLOCKS * G.blockSize < (fs.inodeRoot i).size := by
    apply lt_of_le_of_lt _ hb
    exact (Nat.le_div_iff_mul_le G.blockSize_pos).mp hbehind.le
  have hne : G.blockOf ((fs.fileBlock i b * G.blockSize).toNat + b % G.blockSize) ≠
      (fs.inodeRoot i).indirect := by
    rw [blockOf_offset (h.valid b hb).1 (Nat.mod_lt _ G.blockSize_pos)]
    exact h.separate hlt b hb
  generalize (fs.fileBlock i b * G.blockSize).toNat + b % G.blockSize = place at hne
  refine ⟨⟨_, rfl⟩, fun c hc ↦ ?_⟩
  have hcd := h.div_lt hc
  unfold fileBlock
  split
  · rfl
  · apply Geometry.number_congr (h.indirect_valid hlt).1 (by omega)
    intro a ha
    apply Function.update_of_ne
    rintro rfl
    exact hne ha

end FileSystem

/-- A read along a well-formed block map follows it exactly where the sum of the offset and the
count does not wrap around and where no byte of it lies in the first block behind the direct blocks
or in a block that does not stand as far behind the indirect block as its entry in it. -/
theorem readsMap_iff {fs : FileSystem G} {i off count : ℕ} (h : fs.BlockMap i)
    (hcount : count < 2 ^ 64) : fs.ReadsMap i off count ↔ (fs.inodeRoot i).size ≤ off ∨
      off + count < 2 ^ 64 ∧ ∀ b, off ≤ b → b < off + count → b < (fs.inodeRoot i).size →
        fs.Consecutive i b := by
  constructor
  · intro hr
    rcases le_or_gt (fs.inodeRoot i).size off with hend | hinside
    · exact Or.inl hend
    right
    obtain ⟨hsum, hplaces⟩ := hr.loop h hinside hcount (.refl fs i)
    refine ⟨hsum, fun b hle hlt hb ↦ ?_⟩
    by_cases hdirect : b / G.blockSize < G.NUM_DIRECT_BLOCKS
    · exact Or.inl hdirect
    obtain ⟨z, hz, hbyte⟩ := hplaces b hle hlt hb
    obtain ⟨hbehind, hzeq, hble⟩ := FileSystem.readPlace_behind hdirect hz
    refine Or.inr ⟨hbehind, ?_⟩
    rw [← hzeq]
    by_contra hne
    -- the block of the byte gets other data, which the loop does not see
    have hsame := h.sameMap_setByte hb hbehind (fs.fileByte i b + 1)
    obtain ⟨-, hplaces'⟩ := hr.loop h hinside hcount hsame
    obtain ⟨z', hz', hbyte'⟩ := hplaces' b hle hlt hb
    obtain rfl : z = z' := Option.some.inj (hz.symm.trans hz')
    have hpos := G.blockSize_pos
    have hblock := (h.valid b hb).1
    have hindirect : 0 ≤ (fs.inodeRoot i).indirect := by
      apply (h.indirect_valid _).1
      apply lt_of_le_of_lt _ hb
      exact (Nat.le_div_iff_mul_le hpos).mp hbehind.le
    have hmul : z * G.blockSize ≠ fs.fileBlock i b * G.blockSize := by
      intro heq
      exact hne (mul_right_cancel₀ (by omega) heq).symm
    have hz_nonneg : 0 ≤ z * G.blockSize := Int.mul_nonneg (by omega) (by omega)
    have hf_nonneg : 0 ≤ fs.fileBlock i b * G.blockSize := Int.mul_nonneg hblock (by omega)
    rw [FileSystem.fileByte, hsame.2 b hb] at hbyte'
    simp only [FileSystem.setByte, Function.update_self] at hbyte'
    rw [Function.update_of_ne (by omega), ← hbyte] at hbyte'
    simp at hbyte'
  · rintro hc U path atim fs' hs hvirtual hget
    have hroot := hs.inodeRoot
    rcases le_or_gt (fs.inodeRoot i).size off with hend | hinside
    · have hmax := h.size_le.trans_lt G.size_lt
      have hbmod : ((fs.inodeRoot i).size : ℤ).bmod (2 ^ 64) = (fs.inodeRoot i).size := by
        apply Int.bmod_eq_of_le <;> omega
      have hnone : (fs.inodeRoot i).size - off = 0 := by omega
      refine ⟨fs', ?_, Or.inl rfl⟩
      simp only [Utils.minixfsRead, Option.bind_some, hvirtual, hget, hroot, hbmod]
      rw [if_pos (by omega)]
      simp [hnone]
    · obtain ⟨hsum, hall⟩ := hc.resolve_left (by omega)
      apply FileSystem.reads_of_consecutive hvirtual hget (hs.blockMap h) (by rwa [hroot]) hsum
      intro b hle hlt hb
      rw [hroot] at hb
      have hcb := hall b hle hlt hb
      rwa [FileSystem.Consecutive, hs.2 b hb, hroot]

theorem readsMap_last_byte : smallDisk.ReadsMap 2 3 1 := by
  have hinside : ∀ b, 3 ≤ b → b < 3 + 1 → b < (smallDisk.inodeRoot 2).size →
      smallDisk.Consecutive 2 b := by
    intro b hle hlt _
    obtain rfl : b = 3 := by omega
    exact Or.inl (by decide)
  apply (readsMap_iff (smallDisk_wellFormed.blockMap 2) (by norm_num)).mpr
  exact Or.inr ⟨by norm_num, hinside⟩

/-- The byte behind the direct blocks of `a` is looked for behind the array `direct`. -/
theorem readsMap_fails_behind_direct : smallDisk.BlockMap 1 ∧ ¬ smallDisk.ReadsMap 1 8 1 ∧
    smallUtils.minixfsRead smallDisk (some "/a") 1 8 0 = none := by
  have hnone : smallUtils.minixfsRead smallDisk (some "/a") 1 8 0 = none :=
    minixfsRead_behind_direct rfl rfl (by decide) 0 (by decide)
  refine ⟨smallDisk_wellFormed.blockMap 1, fun hr ↦ ?_, hnone⟩
  obtain ⟨fs', hsome, -⟩ := hr smallUtils "/a" 0 smallDisk (.refl _ _) rfl rfl
  cases hnone.symm.trans hsome

end SystemProgramming.FindingFilesystems
