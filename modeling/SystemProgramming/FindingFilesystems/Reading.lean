import SystemProgramming.FindingFilesystems.Ownership

/-!
# Reading

The bytes of a file lie where its block map says.  A read inside the direct blocks
returns them.
-/

namespace SystemProgramming.FindingFilesystems

variable {G : Geometry}

namespace FileSystem

/-- The block that holds byte `b` of the file `i`. -/
def fileBlock (fs : FileSystem G) (i b : ℕ) : ℤ :=
  if h : b / G.blockSize < G.NUM_DIRECT_BLOCKS then (fs.inodeRoot i).direct ⟨b / G.blockSize, h⟩
  else G.number fs.dataRoot (fs.inodeRoot i).indirect (b / G.blockSize - G.NUM_DIRECT_BLOCKS)

/-- Byte `b` of the file `i`. -/
def fileByte (fs : FileSystem G) (i b : ℕ) : UInt8 :=
  fs.dataRoot ((fs.fileBlock i b * G.blockSize).toNat + b % G.blockSize)

end FileSystem

theorem blockOf_offset {z : ℤ} (hz : 0 ≤ z) {o : ℕ} (ho : o < G.blockSize) :
    G.blockOf ((z * G.blockSize).toNat + o) = z := by
  have hpos : (0 : ℤ) ≤ z * G.blockSize := Int.mul_nonneg hz (by omega)
  apply Geometry.blockOf_of_mem <;> push_cast <;> omega

theorem fetch_eq {data : Bytes} {z : ℤ} {o n : ℕ} (hz : 0 ≤ z) (hlt : z < G.DATA_NUMBER)
    (ho : o + n ≤ G.blockSize) : G.fetch data (z * G.blockSize + o) n =
      some ((List.range n).map fun k ↦ data ((z * G.blockSize).toNat + (o + k))) := by
  have hpos : (0 : ℤ) ≤ z * G.blockSize := Int.mul_nonneg hz (by omega)
  have hmul : (z + 1) * G.blockSize ≤ G.DATA_NUMBER * G.blockSize :=
    mul_le_mul_of_nonneg_right (by omega) (by omega)
  rw [add_mul, one_mul] at hmul
  unfold Geometry.fetch
  split
  · next hn => simp [hn]
  · rw [if_pos (by omega)]
    congr 2
    funext k
    congr 1
    omega

/-- The block that the loop goes to at an index: behind the direct blocks it counts on from the
indirect block itself. -/
def Inode.readPlace (node : Inode G) (blockCount : ℕ) : Option ℤ :=
  if blockCount ≤ G.NUM_DIRECT_BLOCKS then node.directAt blockCount
  else if blockCount ≤ G.NUM_DIRECT_BLOCKS + G.NUM_INDIRECT_BLOCKS then
    some (node.indirect + (blockCount - G.NUM_DIRECT_BLOCKS))
  else none

theorem Inode.readPlace_direct {node : Inode G} {j : ℕ} (hj : j < G.NUM_DIRECT_BLOCKS) :
    node.readPlace j = some (node.direct ⟨j, hj⟩) := by
  rw [readPlace, if_pos hj.le, directAt, dif_pos hj]

theorem readLoop_succ (fs : FileSystem G) (node : Inode G) (count fuel blockCount blockRemain : ℕ)
    (bytes : List UInt8) (h : bytes.length ≠ count) :
    readLoop fs node count (fuel + 1) blockCount blockRemain bytes = (do
      let z ← node.readPlace blockCount
      let readSize := min (count - bytes.length) (G.blockSize - blockRemain)
      let part ← G.fetch fs.dataRoot (z * G.blockSize + blockRemain) readSize
      readLoop fs node count fuel (blockCount + 1) 0 (bytes ++ part)) := by
  have hmin : (if count - bytes.length < G.blockSize - blockRemain then count - bytes.length
      else G.blockSize - blockRemain) = min (count - bytes.length) (G.blockSize - blockRemain) := by
    split <;> omega
  rw [readLoop, if_pos h, hmin]
  rfl

theorem readLoop_spec {fs : FileSystem G} {node : Inode G} {count : ℕ} {f : ℕ → UInt8} :
    ∀ (fuel blockCount blockRemain : ℕ) (bytes : List UInt8), blockRemain < G.blockSize →
      bytes.length ≤ count → count - bytes.length ≤ fuel →
      (∀ o, blockCount * G.blockSize + blockRemain ≤ o →
        o < blockCount * G.blockSize + blockRemain + (count - bytes.length) →
        ∃ z, node.readPlace (o / G.blockSize) = some z ∧ 0 ≤ z ∧ z < G.DATA_NUMBER ∧
          f o = fs.dataRoot ((z * G.blockSize).toNat + o % G.blockSize)) →
      readLoop fs node count fuel blockCount blockRemain bytes =
        some (bytes ++ (List.range (count - bytes.length)).map fun k ↦
          f (blockCount * G.blockSize + blockRemain + k)) := by
  intro fuel
  induction fuel with
  | zero =>
    intro bc rem bytes _ _ hfuel _
    have hdone : count - bytes.length = 0 := by omega
    simp [readLoop, hdone]
  | succ fuel ih =>
    intro bc rem bytes hrem hle hfuel hmap
    by_cases hdone : bytes.length = count
    · simp [readLoop, hdone]
    have hpos := G.blockSize_pos
    -- the block of this round
    have hdiv : ∀ k, rem + k < G.blockSize → (bc * G.blockSize + (rem + k)) / G.blockSize = bc ∧
        (bc * G.blockSize + (rem + k)) % G.blockSize = rem + k := by
      intro k hk
      constructor
      · rw [mul_comm, Nat.mul_add_div hpos, Nat.div_eq_of_lt hk, Nat.add_zero]
      · rw [mul_comm, Nat.mul_add_mod, Nat.mod_eq_of_lt hk]
    obtain ⟨z, hat, hz, hzlt, -⟩ := hmap (bc * G.blockSize + rem) le_rfl (by omega)
    have hbc := (hdiv 0 (by omega)).1
    rw [Nat.add_zero] at hbc
    rw [hbc] at hat
    set readSize := min (count - bytes.length) (G.blockSize - rem) with hsize
    have hsize_le : readSize ≤ G.blockSize - rem ∧ readSize ≤ count - bytes.length := by omega
    have hpart : (List.range readSize).map
        (fun k ↦ fs.dataRoot ((z * G.blockSize).toNat + (rem + k))) =
        (List.range readSize).map fun k ↦ f (bc * G.blockSize + rem + k) := by
      apply List.map_congr_left
      intro k hk
      rw [List.mem_range] at hk
      obtain ⟨z', hat', -, -, hf⟩ := hmap (bc * G.blockSize + (rem + k)) (by omega) (by omega)
      obtain ⟨hd, hm⟩ := hdiv k (by omega)
      rw [hd, hat] at hat'
      rw [hm, ← Option.some.inj hat'] at hf
      rw [add_assoc, hf]
    rw [readLoop_succ _ _ _ _ _ _ _ hdone]
    simp only [hat, Option.bind_eq_bind, Option.bind_some, ← hsize,
      fetch_eq hz hzlt (show rem + readSize ≤ G.blockSize by omega), hpart]
    have hlen : (bytes ++ (List.range readSize).map fun k ↦ f (bc * G.blockSize + rem + k)).length =
        bytes.length + readSize := by simp
    have hnext : readSize = count - bytes.length ∨ readSize = G.blockSize - rem := by omega
    rw [ih (bc + 1) 0 _ hpos (by omega) (by omega) ?_, hlen, List.append_assoc]
    · congr 2
      rcases hnext with hlast | hfull
      · have hrest : count - (bytes.length + readSize) = 0 := by omega
        rw [hrest, hlast]
        simp
      · have hsplit : count - bytes.length = readSize + (count - (bytes.length + readSize)) := by omega
        rw [hsplit, List.range_add, List.map_append, List.map_map]
        congr 1
        apply List.map_congr_left
        intro k _
        simp only [Function.comp]
        congr 1
        rw [Nat.succ_mul, hfull]
        omega
    · intro o hle' hlt'
      rw [hlen] at hlt'
      rcases hnext with hlast | hfull
      · omega
      · apply hmap o
        · rw [Nat.succ_mul] at hle'
          omega
        · rw [Nat.succ_mul] at hlt'
          omega

section Read

variable {U : Utils G} {fs : FileSystem G} {path : String} {i : ℕ}

open FileSystem

/-- A read of a part of a file that lies in direct blocks. -/
theorem minixfsRead_direct (hvirtual : U.isVirtualPath path = none)
    (hget : U.getInode fs path = some i)
    (hsize : (fs.inodeRoot i).size < 2 ^ 63) {start n : ℕ} (atim : ℕ)
    (hle : start + n ≤ (fs.inodeRoot i).size)
    (hdirect : ∀ b, start ≤ b → b < start + n → b < G.NUM_DIRECT_BLOCKS * G.blockSize ∧
      0 ≤ fs.fileBlock i b ∧ fs.fileBlock i b < G.DATA_NUMBER) :
    ∃ fs', U.minixfsRead fs (some path) n start atim =
      some (fs', (List.range n).map fun k ↦ fs.fileByte i (start + k), ⟨n, start + n, none⟩) := by
  have hbmod : ((fs.inodeRoot i).size : ℤ).bmod (2 ^ 64) = (fs.inodeRoot i).size := by
    apply Int.bmod_eq_of_le <;> omega
  have hstart : ((start : ℤ) % 2 ^ 64).toNat = start := by omega
  have hcount : (if (fs.inodeRoot i).size ≤ (start + n) % 2 ^ 64 then
      (((fs.inodeRoot i).size - start : ℤ) % 2 ^ 64).toNat else n) = n := by
    split <;> omega
  simp only [Utils.minixfsRead, Option.bind_some, hvirtual, hget, hbmod, hstart, hcount]
  by_cases hend : ((fs.inodeRoot i).size : ℤ) ≤ start
  · obtain rfl : n = 0 := by omega
    exact ⟨fs, by simp [hend]⟩
  rw [if_neg hend]
  by_cases hfar : G.NUM_DIRECT_BLOCKS + G.NUM_INDIRECT_BLOCKS < start / G.blockSize
  · obtain rfl : n = 0 := by
      by_contra hn
      have hlt := (hdirect start le_rfl (by omega)).1
      have := (Nat.div_lt_iff_lt_mul G.blockSize_pos).mpr hlt
      omega
    exact ⟨fs, by simp [hfar]⟩
  have hmul : start / G.blockSize * G.blockSize + start % G.blockSize = start := by
    rw [mul_comm]
    exact Nat.div_add_mod start G.blockSize
  have hloop : readLoop fs (fs.inodeRoot i) n n (start / G.blockSize) (start % G.blockSize) [] = _ :=
    readLoop_spec (f := fs.fileByte i) n _ _ [] (Nat.mod_lt _ G.blockSize_pos) (Nat.zero_le _)
      le_rfl (by
        intro o hle' hlt'
        rw [hmul] at hle' hlt'
        obtain ⟨hlt, hz, hzlt⟩ := hdirect o hle' hlt'
        have ho := (Nat.div_lt_iff_lt_mul G.blockSize_pos).mpr hlt
        have hblock : fs.fileBlock i o = (fs.inodeRoot i).direct ⟨o / G.blockSize, ho⟩ := dif_pos ho
        refine ⟨_, Inode.readPlace_direct ho, ?_, ?_, ?_⟩
        · rwa [← hblock]
        · rwa [← hblock]
        · rw [fileByte, hblock])
  rw [hmul] at hloop
  simp only [List.length_nil, Nat.sub_zero, List.nil_append] at hloop
  rw [if_neg hfar, hloop]
  exact ⟨_, rfl⟩

/-- A read of the first byte behind the direct blocks goes outside the array. -/
theorem minixfsRead_behind_direct (hvirtual : U.isVirtualPath path = none)
    (hget : U.getInode fs path = some i) (hsize : (fs.inodeRoot i).size < 2 ^ 63) (atim : ℕ)
    (hlt : G.NUM_DIRECT_BLOCKS * G.blockSize < (fs.inodeRoot i).size) :
    U.minixfsRead fs (some path) 1 (G.NUM_DIRECT_BLOCKS * G.blockSize : ℕ) atim = none := by
  set start := G.NUM_DIRECT_BLOCKS * G.blockSize with hstart
  have hbmod : ((fs.inodeRoot i).size : ℤ).bmod (2 ^ 64) = (fs.inodeRoot i).size := by
    apply Int.bmod_eq_of_le <;> omega
  have hnat : ((start : ℤ) % 2 ^ 64).toNat = start := by omega
  have hcount : (if (fs.inodeRoot i).size ≤ (start + 1) % 2 ^ 64 then
      (((fs.inodeRoot i).size - start : ℤ) % 2 ^ 64).toNat else 1) = 1 := by
    split <;> omega
  have hdiv : start / G.blockSize = G.NUM_DIRECT_BLOCKS := Nat.mul_div_cancel _ G.blockSize_pos
  have hat : (fs.inodeRoot i).directAt G.NUM_DIRECT_BLOCKS = none := dif_neg (lt_irrefl _)
  simp only [Utils.minixfsRead, Option.bind_some, hvirtual, hget, hbmod, hnat, hcount, hdiv]
  rw [if_neg (by omega), if_neg (by omega)]
  simp [readLoop, hat]

end Read

end SystemProgramming.FindingFilesystems
