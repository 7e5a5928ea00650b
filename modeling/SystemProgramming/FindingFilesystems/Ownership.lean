import SystemProgramming.FindingFilesystems.Model

/-!
# Block references

A slot is a place of an inode that can hold a block number.  The slots in use of a
disk refer to different blocks, which are all marked.
-/

namespace SystemProgramming.FindingFilesystems

variable {G : Geometry}

namespace Geometry

theorem lt_blockCount {n size : ℕ} : n < G.blockCount size ↔ n * G.blockSize < size := by
  have hpos := G.blockSize_pos
  have hlt := Nat.mod_lt size hpos
  have hdiv := Nat.div_add_mod size G.blockSize
  rw [mul_comm] at hdiv
  unfold blockCount
  split
  · rw [Nat.lt_succ_iff, Nat.le_div_iff_mul_le hpos]
    constructor
    · intro hle
      by_contra hge
      have heq : n * G.blockSize = size := by omega
      rw [← heq, Nat.mul_mod_left] at hlt
      rename_i hmod
      simp [← heq] at hmod
    · exact le_of_lt
  · rw [Nat.add_zero]
    constructor
    · intro hn
      have := Nat.mul_le_mul_right G.blockSize (Nat.succ_le_of_lt hn)
      rw [Nat.succ_mul] at this
      omega
    · intro hn
      by_contra hge
      have := Nat.mul_le_mul_right G.blockSize (Nat.le_of_not_lt hge)
      omega

theorem blockCount_le {n size : ℕ} : G.blockCount size ≤ n ↔ size ≤ n * G.blockSize := by
  rw [← not_lt, lt_blockCount, not_lt]

/-- A block that is not full is in use. -/
theorem last_lt_blockCount {size : ℕ} (hmod : size % G.blockSize ≠ 0) :
    size / G.blockSize < G.blockCount size := by
  have hdiv := Nat.div_add_mod' size G.blockSize
  apply lt_blockCount.mpr
  omega

/-- The last block of a directory holds another entry. -/
theorem add_entry_le {n size : ℕ} (hfits : size % G.blockSize + G.FILE_NAME_ENTRY ≤ G.blockSize)
    (hlt : size < n * G.blockSize) : size + G.FILE_NAME_ENTRY ≤ n * G.blockSize := by
  have hdiv := Nat.div_add_mod size G.blockSize
  have hq : size / G.blockSize + 1 ≤ n := (Nat.div_lt_iff_lt_mul G.blockSize_pos).mpr hlt
  have hmul := Nat.mul_le_mul_right G.blockSize hq
  rw [add_mul, one_mul, mul_comm (size / _)] at hmul
  omega

@[simp] theorem blockCount_zero : G.blockCount 0 = 0 := by simp [blockCount]

/-- The block that a byte of the data region belongs to. -/
def blockOf (G : Geometry) (a : ℕ) : ℤ := (a / G.blockSize : ℕ)

theorem blockOf_of_mem {z : ℤ} {a : ℕ} (hle : z * G.blockSize ≤ a)
    (hlt : (a : ℤ) < z * G.blockSize + G.blockSize) : G.blockOf a = z := by
  have hpos := G.blockSize_pos
  have hz : 0 ≤ z := by
    by_contra hneg
    have hmul : (z + 1) * G.blockSize ≤ 0 := Int.mul_nonpos_of_nonpos_of_nonneg (by omega) (by omega)
    rw [add_mul, one_mul] at hmul
    omega
  lift z to ℕ using hz
  unfold blockOf
  congr 1
  apply Nat.div_eq_of_lt_le
  · exact_mod_cast hle
  · rw [Nat.succ_mul]
    exact_mod_cast hlt

/-- The data blocks in `S` are the only ones that differ. -/
def ChangedOnly (G : Geometry) (S : Set ℤ) (data data' : Bytes) : Prop :=
  ∀ a, G.blockOf a ∉ S → data' a = data a

namespace ChangedOnly

variable {S T : Set ℤ} {data data' data'' : Bytes}

theorem refl (S : Set ℤ) (data : Bytes) : G.ChangedOnly S data data := fun _ _ ↦ rfl

theorem trans (h : G.ChangedOnly S data data') (h' : G.ChangedOnly S data' data'') :
    G.ChangedOnly S data data'' :=
  fun a ha ↦ (h' a ha).trans (h a ha)

theorem mono (hST : S ⊆ T) (h : G.ChangedOnly S data data') : G.ChangedOnly T data data' :=
  fun a ha ↦ h a fun hS ↦ ha (hST hS)

end ChangedOnly

theorem put_changedOnly {data data' : Bytes} {z : ℤ} {o : ℕ} {bytes : List UInt8}
    (ho : o + bytes.length ≤ G.blockSize)
    (h : G.put data (z * G.blockSize + o) bytes = some data') : G.ChangedOnly {z} data data' := by
  intro a ha
  unfold put at h
  split at h
  · exact congrFun (Option.some.inj h).symm a
  split at h
  · next hne haddr =>
    rw [← Option.some.inj h]
    apply memcpy_outside
    by_contra hin
    push Not at hin
    apply ha
    apply blockOf_of_mem <;> omega
  · simp at h

theorem exists_put {z : ℤ} {o : ℕ} (data : Bytes) (bytes : List UInt8) (hz : 0 ≤ z)
    (hlt : z < G.DATA_NUMBER) (ho : o + bytes.length ≤ G.blockSize) :
    ∃ data', G.put data (z * G.blockSize + o) bytes = some data' := by
  have hpos : (0 : ℤ) ≤ z * G.blockSize := Int.mul_nonneg hz (by omega)
  have hmul : (z + 1) * G.blockSize ≤ G.DATA_NUMBER * G.blockSize :=
    mul_le_mul_of_nonneg_right (by omega) (by omega)
  rw [add_mul, one_mul] at hmul
  unfold put
  split
  · exact ⟨_, rfl⟩
  · rw [if_pos (by omega)]
    exact ⟨_, rfl⟩

section Numbers

variable {data data' : Bytes} {z n : ℤ} {k : ℕ}

theorem number_bound (hk : k < G.NUM_INDIRECT_BLOCKS) : 4 * k + 4 ≤ G.blockSize := by
  have := G.indirect_le
  omega

theorem number_congr (hz : 0 ≤ z) (hk : k < G.NUM_INDIRECT_BLOCKS)
    (h : ∀ a, G.blockOf a = z → data' a = data a) : G.number data' z k = G.number data z k := by
  have hbound := number_bound hk
  have hpos : (0 : ℤ) ≤ z * G.blockSize := Int.mul_nonneg hz (by omega)
  unfold number
  congr 1
  apply Layout.load_congr
  intro o hle hlt
  apply h
  apply blockOf_of_mem <;> omega

theorem number_of_changedOnly {S : Set ℤ} (hz : 0 ≤ z) (hk : k < G.NUM_INDIRECT_BLOCKS)
    (hchanged : G.ChangedOnly S data data') (hS : z ∉ S) : G.number data' z k = G.number data z k := by
  apply number_congr hz hk
  intro a ha
  apply hchanged
  rwa [ha]

theorem loadNumber_eq (data : Bytes) (hz : 0 ≤ z) (hlt : z < G.DATA_NUMBER)
    (hk : k < G.NUM_INDIRECT_BLOCKS) : G.loadNumber data z k = some (G.number data z k) := by
  have hbound := number_bound hk
  have hmul : (z + 1) * G.blockSize ≤ G.DATA_NUMBER * G.blockSize :=
    mul_le_mul_of_nonneg_right (by omega) (by omega)
  rw [add_mul, one_mul] at hmul
  unfold loadNumber
  rw [if_pos (by omega)]

theorem exists_storeNumber (data : Bytes) (n : ℤ) (hz : 0 ≤ z) (hlt : z < G.DATA_NUMBER)
    (hk : k < G.NUM_INDIRECT_BLOCKS) : ∃ data', G.storeNumber data z k n = some data' := by
  have hbound := number_bound hk
  have hmul : (z + 1) * G.blockSize ≤ G.DATA_NUMBER * G.blockSize :=
    mul_le_mul_of_nonneg_right (by omega) (by omega)
  rw [add_mul, one_mul] at hmul
  unfold storeNumber
  rw [if_pos (by omega)]
  exact ⟨_, rfl⟩

theorem storeNumber_eq_some (h : G.storeNumber data z k n = some data') :
    0 ≤ z ∧
      G.numbers.store data ((z * G.blockSize).toNat + 4 * k) (BitVec.ofInt 32 n) = data' := by
  unfold storeNumber at h
  split at h
  · next hz => exact ⟨hz.1, Option.some.inj h⟩
  · simp at h

theorem storeNumber_changedOnly (hk : k < G.NUM_INDIRECT_BLOCKS)
    (h : G.storeNumber data z k n = some data') : G.ChangedOnly {z} data data' := by
  have hbound := number_bound hk
  obtain ⟨hz, rfl⟩ := storeNumber_eq_some h
  have hpos : (0 : ℤ) ≤ z * G.blockSize := Int.mul_nonneg hz (by omega)
  intro a ha
  apply Layout.store_outside
  by_contra hin
  push Not at hin
  apply ha
  apply blockOf_of_mem <;> omega

theorem number_storeNumber_self (hn : 0 ≤ n) (hlt : n < G.DATA_NUMBER)
    (h : G.storeNumber data z k n = some data') : G.number data' z k = n := by
  have hbound := G.data_lt
  obtain ⟨-, rfl⟩ := storeNumber_eq_some h
  rw [number, Layout.load_store_self, BitVec.toInt_ofInt]
  apply Int.bmod_eq_of_le <;> omega

theorem number_storeNumber_of_ne {l : ℕ} (hne : l ≠ k)
    (h : G.storeNumber data z k n = some data') : G.number data' z l = G.number data z l := by
  obtain ⟨-, rfl⟩ := storeNumber_eq_some h
  unfold number
  rw [Layout.load_store_of_disjoint]
  omega

end Numbers

end Geometry

/-- A place for a block number, of an inode or of its indirect block. -/
inductive Slot (G : Geometry)
  | direct (i : ℕ) (j : Fin G.NUM_DIRECT_BLOCKS)
  | indirect (i : ℕ)
  | entry (i k : ℕ)
  deriving DecidableEq

def Slot.inode : Slot G → ℕ
  | .direct i _ => i
  | .indirect i => i
  | .entry i _ => i

/-- The part of well-formedness that survives a size set beyond the assigned direct
blocks. -/
structure Inode.Sized (node : Inode G) : Prop where
  blockCount_le : G.blockCount node.size ≤ G.NUM_DIRECT_BLOCKS + G.NUM_INDIRECT_BLOCKS
  direct_ne : G.NUM_DIRECT_BLOCKS < G.blockCount node.size → ∀ j, node.direct j ≠ -1
  indirect_ne : G.NUM_DIRECT_BLOCKS < G.blockCount node.size → node.indirect ≠ -1

theorem Inode.sized_of_le {node : Inode G} (h : G.blockCount node.size ≤ G.NUM_DIRECT_BLOCKS) :
    node.Sized :=
  ⟨by omega, fun hlt ↦ absurd hlt (by omega), fun hlt ↦ absurd hlt (by omega)⟩

namespace FileSystem

variable (fs fs' : FileSystem G)

def slot : Slot G → ℤ
  | .direct i j => (fs.inodeRoot i).direct j
  | .indirect i => (fs.inodeRoot i).indirect
  | .entry i k => G.number fs.dataRoot (fs.inodeRoot i).indirect k

/-- The slots that refer to a block.  The entries of an indirect block count up to the
size of the inode. -/
def InUse : Slot G → Prop
  | .direct i j => (fs.inodeRoot i).direct j ≠ -1
  | .indirect i => (fs.inodeRoot i).indirect ≠ -1
  | .entry i k => (fs.inodeRoot i).indirect ≠ -1 ∧
      G.NUM_DIRECT_BLOCKS + k < G.blockCount (fs.inodeRoot i).size

/-- The blocks that an inode refers to. -/
def blocks (i : ℕ) : Set ℤ :=
  {z | ∃ s : Slot G, s.inode = i ∧ fs.InUse s ∧ fs.slot s = z}

/-- A block that can be allocated. -/
def Free (z : ℤ) : Prop :=
  0 ≤ z ∧ z < G.DATA_NUMBER ∧ fs.dataUsed z = false

/-- Every referenced block exists, is marked and is referenced once. -/
structure Owned : Prop where
  valid : ∀ s, fs.InUse s → 0 ≤ fs.slot s ∧ fs.slot s < G.DATA_NUMBER
  used : ∀ s, fs.InUse s → fs.dataUsed (fs.slot s) = true
  unique : ∀ s t, fs.InUse s → fs.InUse t → fs.slot s = fs.slot t → s = t

/-- A disk on which the blocks of every inode cover its size. -/
structure WellFormed : Prop extends Owned fs where
  size_le : ∀ i, (fs.inodeRoot i).size ≤
    (G.NUM_DIRECT_BLOCKS + G.NUM_INDIRECT_BLOCKS) * G.blockSize
  direct_ne : ∀ i (j : Fin G.NUM_DIRECT_BLOCKS), j < G.blockCount (fs.inodeRoot i).size →
    (fs.inodeRoot i).direct j ≠ -1
  indirect_ne : ∀ i, G.NUM_DIRECT_BLOCKS < G.blockCount (fs.inodeRoot i).size →
    (fs.inodeRoot i).indirect ≠ -1

structure Inv : Prop extends Owned fs where
  sized : ∀ i, (fs.inodeRoot i).Sized

variable {fs fs'}

theorem WellFormed.inv (h : fs.WellFormed) : fs.Inv where
  toOwned := h.toOwned
  sized i :=
    { blockCount_le := Geometry.blockCount_le.mpr (h.size_le i)
      direct_ne := fun hlt j ↦ h.direct_ne i j (j.isLt.trans hlt)
      indirect_ne := h.indirect_ne i }

/-- Blocks that are free are not referenced. -/
theorem Owned.not_free (h : fs.Owned) {s : Slot G} (hs : fs.InUse s) : ¬ fs.Free (fs.slot s) := by
  intro hfree
  have hused := h.used s hs
  rw [hfree.2.2] at hused
  simp at hused

/-- The slots in use after a step are old slots with their old blocks or slots that
have received a block that was free. -/
theorem Owned.extend (h : fs.Owned)
    (hmark : ∀ z, fs.dataUsed z = true → fs'.dataUsed z = true)
    (hslot : ∀ s, fs'.InUse s → fs.InUse s ∧ fs'.slot s = fs.slot s ∨
      fs.Free (fs'.slot s) ∧ fs'.dataUsed (fs'.slot s) = true)
    (hfresh : ∀ s t, fs'.InUse s → fs'.InUse t → fs.Free (fs'.slot s) →
      fs'.slot s = fs'.slot t → s = t) : fs'.Owned where
  valid s hs := by
    rcases hslot s hs with ⟨hold, heq⟩ | ⟨hfree, -⟩
    · rw [heq]
      exact h.valid s hold
    · exact ⟨hfree.1, hfree.2.1⟩
  used s hs := by
    rcases hslot s hs with ⟨hold, heq⟩ | ⟨-, hused⟩
    · rw [heq]
      exact hmark _ (h.used s hold)
    · exact hused
  unique s t hs ht heq := by
    rcases hslot s hs with ⟨holds, heqs⟩ | ⟨hfree, -⟩
    · rcases hslot t ht with ⟨holdt, heqt⟩ | ⟨hfree, -⟩
      · exact h.unique s t holds holdt (by rw [← heqs, heq, heqt])
      · exact (hfresh t s ht hs hfree heq.symm).symm
    · exact hfresh s t hs ht hfree heq

/-- A step that assigns no block. -/
theorem Owned.shrink (h : fs.Owned)
    (hmark : ∀ z, fs.dataUsed z = true → fs'.dataUsed z = true)
    (hslot : ∀ s, fs'.InUse s → fs.InUse s ∧ fs'.slot s = fs.slot s) : fs'.Owned := by
  apply h.extend hmark fun s hs ↦ Or.inl (hslot s hs)
  intro s t hs ht hfree heq
  obtain ⟨hin, hsame⟩ := hslot s hs
  exact absurd (hsame ▸ hfree) (h.not_free hin)

/-- A step that assigns one block, to the slot `s₀`. -/
theorem Owned.assign (h : fs.Owned) (s₀ : Slot G) {z : ℤ} (hz : fs.Free z)
    (hmark : ∀ y, fs.dataUsed y = true → fs'.dataUsed y = true) (hused : fs'.dataUsed z = true)
    (hself : fs'.slot s₀ = z)
    (hslot : ∀ s, s ≠ s₀ → fs'.InUse s → fs.InUse s ∧ fs'.slot s = fs.slot s) : fs'.Owned := by
  have hold : ∀ s, fs'.InUse s → fs.Free (fs'.slot s) → s = s₀ := by
    intro s hs hfree
    by_contra hne
    obtain ⟨hin, heq⟩ := hslot s hne hs
    exact h.not_free hin (heq ▸ hfree)
  apply h.extend hmark
  · intro s hs
    by_cases hne : s = s₀
    · right
      rw [hne, hself]
      exact ⟨hz, hused⟩
    · exact Or.inl (hslot s hne hs)
  · intro s t hs ht hfree heq
    rw [hold s hs hfree, hold t ht (heq ▸ hfree)]

theorem Inv.indirect_lt (h : fs.Inv) {i k : ℕ} (hs : fs.InUse (.entry i k)) :
    k < G.NUM_INDIRECT_BLOCKS := by
  have := (h.sized i).blockCount_le
  have := hs.2
  omega

/-- Bytes may change outside the indirect blocks. -/
theorem Inv.slot_withData (h : fs.Inv) {S : Set ℤ} {data : Bytes}
    (hdata : G.ChangedOnly S fs.dataRoot data)
    (hS : ∀ i, fs.InUse (.indirect i) → fs.slot (.indirect i) ∉ S) {s : Slot G}
    (hs : fs.InUse s) : ({ fs with dataRoot := data } : FileSystem G).slot s = fs.slot s := by
  cases s with
  | direct i j => rfl
  | indirect i => rfl
  | entry i k =>
    exact Geometry.number_of_changedOnly (h.valid (.indirect i) hs.1).1 (h.indirect_lt hs) hdata
      (hS i hs.1)

theorem Inv.withData (h : fs.Inv) {S : Set ℤ} {data : Bytes}
    (hdata : G.ChangedOnly S fs.dataRoot data)
    (hS : ∀ i, fs.InUse (.indirect i) → fs.slot (.indirect i) ∉ S) :
    ({ fs with dataRoot := data } : FileSystem G).Inv where
  toOwned := h.shrink (fun _ hz ↦ hz) fun s hs ↦ by
    have hin : fs.InUse s := by cases s <;> exact hs
    exact ⟨hin, h.slot_withData hdata hS hin⟩
  sized := h.sized

/-- Writing to blocks of other slots than the indirect ones. -/
theorem Owned.indirect_notMem (h : fs.Owned) {S : Set ℤ}
    (hS : ∀ z ∈ S, ∃ s, fs.InUse s ∧ fs.slot s = z ∧ ∀ i, s ≠ .indirect i) :
    ∀ i, fs.InUse (.indirect i) → fs.slot (.indirect i) ∉ S := by
  intro i hi hmem
  obtain ⟨s, hs, heq, hne⟩ := hS _ hmem
  exact hne i (h.unique s _ hs hi heq)

end FileSystem

end SystemProgramming.FindingFilesystems
