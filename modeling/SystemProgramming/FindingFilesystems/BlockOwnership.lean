import SystemProgramming.FindingFilesystems.CreateInode

/-!
# Block ownership over runs

A write keeps the references sound when it stays in assigned direct blocks and its new
size calls for no further entry of the indirect block.
-/

namespace SystemProgramming.FindingFilesystems

variable {G : Geometry}

namespace Inode

/-- What a write of `count` bytes adds to the offset beyond `count`: the part that goes to
the last block is counted twice when more blocks follow. -/
def spill (node : Inode G) (count : ℕ) : ℕ :=
  if node.size % G.blockSize + count ≤ G.blockSize then 0
  else G.blockSize - node.size % G.blockSize

/-- The write touches assigned direct blocks only, and the size that it sets lies within
the direct blocks or within the blocks in use. -/
structure WriteFits (node : Inode G) (count : ℕ) (off : ℤ) : Prop where
  nonneg : 0 ≤ off
  size_le : off + node.spill count + count ≤
    (max G.NUM_DIRECT_BLOCKS (G.blockCount node.size) * G.blockSize : ℕ)
  direct : count = 0 ∨ ∀ j, j * G.blockSize < node.size % G.blockSize + count →
    ∃ z, node.directAt (G.blockCount node.size + j) = some z ∧ z ≠ -1

theorem directAt_eq_some {node : Inode G} {j : ℕ} {z : ℤ} (h : node.directAt j = some z) :
    ∃ hj : j < G.NUM_DIRECT_BLOCKS, node.direct ⟨j, hj⟩ = z := by
  unfold directAt at h
  split at h
  · next hj => exact ⟨hj, Option.some.inj h⟩
  · simp at h

end Inode

theorem put_nil (data : Bytes) (addr : ℤ) : G.put data addr [] = some data := if_pos rfl

section WriteBlocks

variable {node : Inode G} {count : ℕ} {S : Set ℤ}

theorem writeLoop_spec (hS : ∀ z ∈ S, 0 ≤ z ∧ z < G.DATA_NUMBER) :
    ∀ (k : ℕ) (p : Progress), k = G.NUM_DIRECT_BLOCKS - p.blockCount →
      p.writtenByte + p.buf.length = count →
      (∀ j, j * G.blockSize < count - p.writtenByte →
        ∃ z ∈ S, node.directAt (p.blockCount + 1 + j) = some z) →
      ∃ p', writeLoop node count k p = some p' ∧ p'.writtenByte = count ∧ p'.off = p.off ∧
        G.ChangedOnly S p.data p'.data := by
  intro k
  induction k with
  | zero =>
    intro p hk hlen hdirect
    refine ⟨p, rfl, ?_, rfl, .refl _ _⟩
    by_contra hne
    -- a further block would be a direct one
    obtain ⟨z, -, hz⟩ := hdirect 0 (by omega)
    obtain ⟨hj, -⟩ := Inode.directAt_eq_some hz
    omega
  | succ k ih =>
    intro p hk hlen hdirect
    by_cases hdone : p.writtenByte = count
    · exact ⟨p, by simp [writeLoop, hdone], hdone, rfl, .refl _ _⟩
    obtain ⟨z, hzS, hz⟩ := hdirect 0 (by omega)
    rw [Nat.add_zero] at hz
    set writeSize := if G.blockSize < count - p.writtenByte then G.blockSize
      else count - p.writtenByte with hws
    have hwle : writeSize ≤ G.blockSize ∧ writeSize ≤ count - p.writtenByte := by
      rw [hws]
      split <;> omega
    have hupTo : upTo p.buf writeSize = some (p.buf.take writeSize) := if_pos (by omega)
    have hput_le : 0 + (p.buf.take writeSize).length ≤ G.blockSize := by
      rw [List.length_take]
      omega
    obtain ⟨data, hput⟩ := Geometry.exists_put p.data _ (hS z hzS).1 (hS z hzS).2 hput_le
    have hchanged := Geometry.put_changedOnly hput_le hput
    rw [Nat.cast_zero, add_zero] at hput
    obtain ⟨p', hloop, hwritten, hoff, hdata⟩ := ih
      { data, off := p.off, writtenByte := p.writtenByte + writeSize,
        buf := p.buf.drop writeSize, blockCount := p.blockCount + 1 } (by simp; omega)
      (by simp; omega) (by
        intro j hj
        -- the loop goes on only after a whole block
        have hfull : writeSize = G.blockSize := by
          apply if_pos
          by_contra hle
          rw [hws, if_neg hle] at hj
          simp only at hj
          omega
        obtain ⟨z', hz', hat⟩ := hdirect (j + 1) (by
          simp only [hfull] at hj
          rw [Nat.succ_mul]
          omega)
        exact ⟨z', hz', by rw [← hat]; congr 1; ring⟩)
    refine ⟨p', ?_, hwritten, hoff, (hchanged.mono ?_).trans hdata⟩
    · simp only [writeLoop, ne_eq, hdone, not_false_eq_true, if_true, hz, Option.bind_eq_bind,
        Option.bind_some, ← hws, hupTo, hput, hloop]
    · rintro y rfl
      exact hzS

theorem writeBlocks_spec {z : ℤ} {p : Progress} (hS : ∀ z ∈ S, 0 ≤ z ∧ z < G.DATA_NUMBER)
    (hsmall : node.size % G.blockSize + count < 2 ^ 64) (hwritten : p.writtenByte = 0)
    (hlen : p.buf.length = count) (hz : count = 0 ∨ z ∈ S)
    (hdirect : ∀ j, (j + 1) * G.blockSize < node.size % G.blockSize + count →
      ∃ z ∈ S, node.directAt (p.blockCount + 1 + j) = some z) :
    ∃ p', writeBlocks node count (node.size % G.blockSize) z p = some p' ∧
      p'.writtenByte = count ∧ p'.off = p.off + node.spill count ∧
      G.ChangedOnly S p.data p'.data := by
  have hlt := Nat.mod_lt node.size G.blockSize_pos
  rw [writeBlocks, Nat.mod_eq_of_lt hsmall]
  rcases Nat.eq_zero_or_pos count with hzero | hpos
  · have hnil : p.buf = [] := List.length_eq_zero_iff.mp (hlen.trans hzero)
    subst hzero
    refine ⟨p, ?_, hwritten, by simp [Inode.spill, hlt.le], .refl _ _⟩
    cases p
    simp_all [hlt.le, upTo, put_nil]
  have hzS : z ∈ S := hz.resolve_left (by omega)
  obtain ⟨hz0, hzlt⟩ := hS z hzS
  have hsub : ({z} : Set ℤ) ⊆ S := by simpa using hzS
  by_cases hfit : node.size % G.blockSize + count ≤ G.blockSize
  · have hupTo : upTo p.buf count = some p.buf := by
      rw [upTo, if_pos hlen.ge, ← hlen, List.take_length]
    have hput_le : node.size % G.blockSize + p.buf.length ≤ G.blockSize := by omega
    obtain ⟨data, hput⟩ := Geometry.exists_put p.data p.buf hz0 hzlt hput_le
    refine ⟨{ p with data, writtenByte := p.writtenByte + count }, ?_, ?_, ?_, ?_⟩
    · simp only [hfit, if_true, hupTo, Option.bind_eq_bind, Option.bind_some, hput, Option.pure_def]
    · simp [hwritten]
    · simp [Inode.spill, hfit]
    · exact (Geometry.put_changedOnly hput_le hput).mono hsub
  · set writeSize := G.blockSize - node.size % G.blockSize with hws
    have hupTo : upTo p.buf writeSize = some (p.buf.take writeSize) := if_pos (by omega)
    have hput_le : node.size % G.blockSize + (p.buf.take writeSize).length ≤ G.blockSize := by
      rw [List.length_take]
      omega
    obtain ⟨data, hput⟩ := Geometry.exists_put p.data _ hz0 hzlt hput_le
    have hchanged := (Geometry.put_changedOnly hput_le hput).mono hsub
    set p₁ : Progress := { p with data, off := p.off + writeSize,
                                  writtenByte := p.writtenByte + writeSize,
                                  buf := p.buf.drop writeSize } with hp₁
    have hlen₁ : p₁.writtenByte + p₁.buf.length = count := by
      simp only [hp₁, List.length_drop]
      omega
    obtain ⟨p', hloop, hdone, hoff, hdata⟩ := writeLoop_spec hS _ p₁ rfl hlen₁ (by
      intro j hj
      apply hdirect
      simp only [hp₁, hwritten] at hj
      rw [Nat.succ_mul]
      omega)
    refine ⟨p', ?_, hdone, ?_, hchanged.trans hdata⟩
    · simp only [hfit, if_false, hupTo, Option.bind_eq_bind, Option.bind_some, hput]
      exact hloop
    · rw [hoff, Inode.spill, if_neg hfit]

end WriteBlocks

namespace FillsDirect

variable {fs fs' : FileSystem G} {i n : ℕ}

theorem size_eq (hf : FillsDirect fs fs' i n) (l : ℕ) :
    (fs'.inodeRoot l).size = (fs.inodeRoot l).size := by
  by_cases hl : l = i
  · rw [hl, hf.inode]
  · rw [hf.inode_ne l hl]

theorem indirect_eq (hf : FillsDirect fs fs' i n) (l : ℕ) :
    (fs'.inodeRoot l).indirect = (fs.inodeRoot l).indirect := by
  by_cases hl : l = i
  · rw [hl, hf.inode]
  · rw [hf.inode_ne l hl]

theorem direct_cases (hf : FillsDirect fs fs' i n) (l : ℕ) (j : Fin G.NUM_DIRECT_BLOCKS) :
    (fs'.inodeRoot l).direct j = (fs.inodeRoot l).direct j ∨
      l = i ∧ fs.Free ((fs'.inodeRoot l).direct j) := by
  by_cases hl : l = i
  · subst hl
    rcases hf.direct j with heq | ⟨-, -, hfree⟩
    · exact Or.inl heq
    · exact Or.inr ⟨rfl, hfree⟩
  · rw [hf.inode_ne l hl]
    exact Or.inl rfl

/-- The entries of indirect blocks stay: the blocks that are written were free. -/
theorem number_eq (hf : FillsDirect fs fs' i n) (h : fs.Inv) {l k : ℕ}
    (hs : fs.InUse (.entry l k)) :
    G.number fs'.dataRoot (fs.inodeRoot l).indirect k = fs.slot (.entry l k) := by
  apply Geometry.number_congr (h.valid (.indirect l) hs.1).1 (h.indirect_lt hs)
  intro a ha
  apply hf.data
  intro j hfree heq
  rw [heq, ha] at hfree
  exact h.not_free (s := .indirect l) hs.1 hfree

theorem slot_cases (hf : FillsDirect fs fs' i n) (h : fs.Inv) {s : Slot G} (hs : fs'.InUse s) :
    fs.InUse s ∧ fs'.slot s = fs.slot s ∨ fs.Free (fs'.slot s) ∧ ∃ j, s = .direct i j := by
  cases s with
  | direct l j =>
    rcases hf.direct_cases l j with heq | ⟨rfl, hfree⟩
    · left
      refine ⟨?_, heq⟩
      rwa [FileSystem.InUse, heq] at hs
    · exact Or.inr ⟨hfree, j, rfl⟩
  | indirect l =>
    left
    refine ⟨?_, hf.indirect_eq l⟩
    rwa [FileSystem.InUse, hf.indirect_eq l] at hs
  | entry l k =>
    left
    rw [FileSystem.InUse, hf.indirect_eq l, hf.size_eq l] at hs
    refine ⟨hs, ?_⟩
    rw [FileSystem.slot, hf.indirect_eq l]
    exact hf.number_eq h hs

theorem sized (hf : FillsDirect fs fs' i n) (h : fs.Inv) (l : ℕ) : (fs'.inodeRoot l).Sized := by
  have hold := h.sized l
  constructor
  · rw [hf.size_eq]
    exact hold.blockCount_le
  · intro hlt j
    rw [hf.size_eq] at hlt
    rcases hf.direct_cases l j with heq | ⟨-, hfree⟩
    · rw [heq]
      exact hold.direct_ne hlt j
    · have := hfree.1
      omega
  · rw [hf.size_eq, hf.indirect_eq]
    exact hold.indirect_ne

end FillsDirect

namespace FileSystem

variable {fs fs' : FileSystem G} {i n : ℕ}

theorem Inv.fillsDirect (h : fs.Inv) (hf : FillsDirect fs fs' i n) : fs'.Inv := by
  refine ⟨h.extend (fun z hz ↦ (hf.used z).mpr (Or.inl hz)) ?_ ?_, hf.sized h⟩
  · intro s hs
    rcases hf.slot_cases h hs with hold | ⟨hfree, j, rfl⟩
    · exact Or.inl hold
    · exact Or.inr ⟨hfree, (hf.used _).mpr (Or.inr ⟨hfree, j, rfl⟩)⟩
  · intro s t hs ht hfree heq
    have hnew : ∀ s, fs'.InUse s → fs.Free (fs'.slot s) → ∃ j, s = .direct i j := by
      intro s hs hfree
      rcases hf.slot_cases h hs with ⟨hin, hsame⟩ | ⟨-, hj⟩
      · exact absurd (hsame ▸ hfree) (h.not_free hin)
      · exact hj
    obtain ⟨j, rfl⟩ := hnew s hs hfree
    obtain ⟨k, rfl⟩ := hnew t ht (heq ▸ hfree)
    rw [hf.distinct j k hfree heq]

/-- The direct blocks of an inode. -/
def directBlocks (fs : FileSystem G) (i : ℕ) : Set ℤ :=
  {z | ∃ j, (fs.inodeRoot i).direct j = z ∧ z ≠ -1}

theorem Owned.directBlocks_valid (h : fs.Owned) : ∀ z ∈ fs.directBlocks i,
    0 ≤ z ∧ z < G.DATA_NUMBER := by
  rintro z ⟨j, rfl, hne⟩
  exact h.valid (.direct i j) hne

theorem Inv.finishWrite (h : fs.Inv) {data : Bytes} {off : ℤ} (mtim atim : ℕ)
    (hdata : G.ChangedOnly (fs.directBlocks i) fs.dataRoot data) (hoff : 0 ≤ off)
    (hle : off ≤ (max G.NUM_DIRECT_BLOCKS (G.blockCount (fs.inodeRoot i).size) *
      G.blockSize : ℕ)) : (fs.finishWrite i data off mtim atim).Inv := by
  have hnot := h.indirect_notMem (S := fs.directBlocks i) fun z hz ↦ by
    obtain ⟨j, rfl, hne⟩ := hz
    exact ⟨.direct i j, hne, rfl, by simp⟩
  unfold FileSystem.finishWrite
  apply (h.withData hdata hnot).resize
  · rfl
  · rfl
  · apply Geometry.blockCount_le.mpr
    simp only
    omega

theorem directBlocks_subset_finishWrite (data : Bytes) (off : ℤ) (mtim atim : ℕ) :
    fs.directBlocks i ⊆ (fs.finishWrite i data off mtim atim).blocks i := by
  rintro z ⟨j, rfl, hne⟩
  refine ⟨.direct i j, rfl, ?_, ?_⟩
  · simpa [InUse, FileSystem.finishWrite] using hne
  · simp [slot, FileSystem.finishWrite]

end FileSystem

section FillsDirect

variable {fs fs' : FileSystem G} {i n : ℕ}

/-- Only the direct blocks of `i` change. -/
theorem FillsDirect.changedOnly (hf : FillsDirect fs fs' i n) :
    G.ChangedOnly (fs'.directBlocks i) fs.dataRoot fs'.dataRoot := by
  intro a ha
  apply hf.data
  intro j hfree heq
  apply ha
  refine ⟨j, heq, ?_⟩
  have := hfree.1
  omega

theorem FillsDirect.refl (fs : FileSystem G) (h : fs.Owned) (i n : ℕ) :
    FillsDirect fs fs i n where
  inode_ne _ _ := rfl
  inode := rfl
  direct _ := Or.inl rfl
  distinct j k hfree heq := by
    by_contra hne
    have hin : fs.InUse (.direct i j) := by
      intro hneg
      have := hfree.1
      omega
    exact h.not_free hin hfree
  used z := by
    constructor
    · exact Or.inl
    · rintro (hz | ⟨hfree, j, rfl⟩)
      · exact hz
      · have hin : fs.InUse (.direct i j) := by
          intro hneg
          have := hfree.1
          omega
        exact absurd hfree (h.not_free hin)
  data _ _ := rfl

/-- The direct blocks from index `n` on stay. -/
theorem FillsDirect.directAt_eq (hf : FillsDirect fs fs' i n) {j : ℕ} (hj : n ≤ j) :
    (fs'.inodeRoot i).directAt j = (fs.inodeRoot i).directAt j := by
  unfold Inode.directAt
  split
  · next hlt =>
    rcases hf.direct ⟨j, hlt⟩ with heq | ⟨hlt', -, -⟩
    · rw [heq]
    · exact absurd hlt' (Nat.not_lt.mpr hj)
  · rfl

/-- The blocks that a write which fits goes through have been assigned. -/
theorem FillsDirect.exists_directAt (hf : FillsDirect fs fs' i (G.blockCount (fs.inodeRoot i).size))
    {count : ℕ} {off : ℤ} (hfits : (fs.inodeRoot i).WriteFits count off) (hne : count ≠ 0) {j : ℕ}
    (hj : j * G.blockSize < (fs.inodeRoot i).size % G.blockSize + count) :
    ∃ z ∈ fs'.directBlocks i,
      (fs'.inodeRoot i).directAt (G.blockCount (fs.inodeRoot i).size + j) = some z := by
  obtain ⟨z, hat, hassigned⟩ := (hfits.direct.resolve_left hne) j hj
  rw [← hf.directAt_eq (Nat.le_add_right _ _)] at hat
  obtain ⟨hlt, heq⟩ := Inode.directAt_eq_some hat
  exact ⟨z, ⟨_, heq, hassigned⟩, hat⟩

end FillsDirect

namespace Utils

variable {U : Utils G} {fs fs' : FileSystem G} {path : String} {buf : List UInt8} {off : ℤ}
  {mtim atim : ℕ}

open FileSystem

/-- The inodes whose blocks a call on a path may change. -/
def Touched (U : Utils G) (fs : FileSystem G) (path : String) (i : ℕ) : Prop :=
  U.getInode fs path = some i ∨ U.getInode fs path = none ∧
    (U.firstUnusedInode fs = some i ∨ (U.parentDirectory fs path).1 = some i)

/-- What a call on a path keeps: the references are sound after it, and only blocks of
the inodes that it writes to have changed. -/
structure Keeps (U : Utils G) (path : String) (fs fs' : FileSystem G) : Prop where
  owned : fs'.Owned
  frame : G.ChangedOnly {z | ∃ i, U.Touched fs path i ∧ z ∈ fs'.blocks i} fs.dataRoot fs'.dataRoot

theorem minBlockcount_fills (hU : U.Correct) (h : fs.Inv) {i : ℕ}
    (hi : U.getInode fs path = some i)
    (hmin : U.minBlockcount fs path (G.blockCount (fs.inodeRoot i).size) = some fs') :
    FillsDirect fs fs' i (G.blockCount (fs.inodeRoot i).size) := by
  rcases Nat.lt_or_ge G.NUM_DIRECT_BLOCKS (G.blockCount (fs.inodeRoot i).size) with hlt | hle
  · have hcovers : fs.Covers i (G.blockCount (fs.inodeRoot i).size) :=
      ⟨fun j _ ↦ (h.sized i).direct_ne hlt j, fun _ ↦ ⟨(h.sized i).indirect_ne hlt, le_rfl⟩⟩
    have heq := (hU.minBlockcount_covered fs path i _ hi hcovers).symm.trans hmin
    rw [← Option.some.inj heq]
    exact .refl fs h.toOwned i _
  · exact hU.minBlockcount_direct fs fs' path i _ h.toOwned hi hle hmin

/-- The write to the inode `i` whose blocks up to its size have been assigned. -/
theorem writeInode_spec (h : fs.Inv) (path : String) (mtim atim : ℕ) {i : ℕ}
    (hfits : (fs.inodeRoot i).WriteFits buf.length off)
    (hmin : ∀ fs₁, U.minBlockcount fs path (G.blockCount (fs.inodeRoot i).size) = some fs₁ →
      FillsDirect fs fs₁ i (G.blockCount (fs.inodeRoot i).size)) :
    ∃ fs' reply, U.writeInode fs path i buf off mtim atim = some (fs', reply) ∧ fs'.Inv ∧
      G.ChangedOnly (fs'.blocks i) fs.dataRoot fs'.dataRoot := by
  unfold writeInode
  set bc := G.blockCount (fs.inodeRoot i).size with hbc
  cases hmin' : U.minBlockcount fs path bc with
  | none =>
    refine ⟨fs, ⟨-1, off, none⟩, ?_, h, .refl _ _⟩
    simp only [hmin']
  | some fs₁ =>
    have hf := hmin fs₁ hmin'
    have hinv := h.fillsDirect hf
    have hsize : (fs₁.inodeRoot i).size = (fs.inodeRoot i).size := by rw [hf.inode]
    have hspill : (fs₁.inodeRoot i).spill buf.length = (fs.inodeRoot i).spill buf.length := by
      simp only [Inode.spill, hsize]
    have hle := hfits.size_le
    rw [← hbc] at hle
    have hlimit : max G.NUM_DIRECT_BLOCKS bc * G.blockSize < 2 ^ 31 := by
      apply lt_of_le_of_lt _ G.size_lt
      apply Nat.mul_le_mul_right
      exact max_le (Nat.le_add_right _ _) (h.sized i).blockCount_le
    have hnonneg := hfits.nonneg
    have hlt := Nat.mod_lt (fs.inodeRoot i).size G.blockSize_pos
    have hblock : G.blockSize ≤ max G.NUM_DIRECT_BLOCKS bc * G.blockSize :=
      Nat.le_mul_of_pos_left _ (lt_max_of_lt_left G.direct_pos)
    have hsmall : (fs₁.inodeRoot i).size % G.blockSize + buf.length < 2 ^ 64 := by
      rw [hsize]
      omega
    have hS := hinv.directBlocks_valid (i := i)
    by_cases hdir : bc < G.NUM_DIRECT_BLOCKS
    · -- the direct branch, which writes the whole buffer
      have hz : buf.length = 0 ∨ (fs₁.inodeRoot i).direct ⟨bc, hdir⟩ ∈ fs₁.directBlocks i := by
        rcases Nat.eq_zero_or_pos buf.length with hzero | hpos
        · exact Or.inl hzero
        obtain ⟨z, hmem, hat⟩ := hf.exists_directAt hfits hpos.ne' (j := 0) (by omega)
        rw [Nat.add_zero, ← hbc, Inode.directAt_eq hdir] at hat
        exact Or.inr (Option.some.inj hat ▸ hmem)
      have hdirect : ∀ j, (j + 1) * G.blockSize < (fs₁.inodeRoot i).size % G.blockSize + buf.length →
          ∃ z ∈ fs₁.directBlocks i, (fs₁.inodeRoot i).directAt (bc + 1 + j) = some z := by
        intro j hj
        rw [hsize] at hj
        have hne : buf.length ≠ 0 := by
          rw [Nat.succ_mul] at hj
          omega
        rw [add_assoc, Nat.add_comm 1 j]
        exact hf.exists_directAt hfits hne hj
      obtain ⟨p, hwrite, hwritten, hoff, hdata⟩ := writeBlocks_spec
        (p := ⟨fs₁.dataRoot, off, 0, buf, bc⟩) hS hsmall rfl rfl hz hdirect
      rw [hsize] at hwrite
      simp only at hoff
      have hfinal : (p.off + buf.length).bmod (2 ^ 64) =
          off + (fs.inodeRoot i).spill buf.length + buf.length := by
        rw [hoff, hspill]
        apply Int.bmod_eq_of_le <;> omega
      refine ⟨fs₁.finishWrite i p.data (off + (fs.inodeRoot i).spill buf.length + buf.length)
        mtim atim, ⟨buf.length, off + (fs.inodeRoot i).spill buf.length + buf.length, none⟩,
        ?_, ?_, ?_⟩
      · simp only [hmin', hdir, if_true, Inode.directAt_eq hdir, Option.bind_eq_bind,
          Option.bind_some, hwrite, hwritten, and_self, hfinal, Option.pure_def]
      · apply hinv.finishWrite _ _ hdata (by omega)
        rwa [hsize, ← hbc]
      · exact (hf.changedOnly.trans hdata).mono (directBlocks_subset_finishWrite ..)
    · -- nothing is written, and the offset becomes the size
      have hzero : buf.length = 0 := by
        rcases hfits.direct with hzero | hassigned
        · exact hzero
        · by_contra hpos
          obtain ⟨z, hat, -⟩ := hassigned 0 (by omega)
          obtain ⟨hlt', -⟩ := Inode.directAt_eq_some hat
          exact hdir hlt'
      obtain ⟨p, hwrite, -, hoff, hdata⟩ := writeBlocks_spec (S := fs₁.directBlocks i)
        (z := (fs₁.inodeRoot i).indirect + (bc - G.NUM_DIRECT_BLOCKS))
        (p := ⟨fs₁.dataRoot, off, 0, buf, bc⟩) hS hsmall rfl rfl (Or.inl hzero) (by
          intro j hj
          rw [hsize, Nat.succ_mul] at hj
          omega)
      rw [hsize] at hwrite
      simp only at hoff
      refine ⟨fs₁.finishWrite i p.data p.off mtim atim, ⟨buf.length, p.off, none⟩, ?_, ?_, ?_⟩
      · simp only [hmin', hdir, if_false, false_and, Option.pure_def, Option.bind_eq_bind,
          Option.bind_some, hwrite]
      · rw [hoff, hspill]
        apply hinv.finishWrite _ _ hdata
        · omega
        · rw [hsize, ← hbc]
          omega
      · exact (hf.changedOnly.trans hdata).mono (directBlocks_subset_finishWrite ..)

/-- Nothing written to an empty inode: the offset becomes its size. -/
theorem writeInode_nil (path : String) (mtim atim : ℕ) {i : ℕ}
    (hsize : (fs.inodeRoot i).size = 0) (hoff : 0 ≤ off) (hle : off < 2 ^ 31)
    (hmin : U.minBlockcount fs path 0 = some fs) : U.writeInode fs path i [] off mtim atim =
      some (fs.finishWrite i fs.dataRoot off mtim atim, ⟨0, off, none⟩) := by
  have hbmod : off.bmod 18446744073709551616 = off := by apply Int.bmod_eq_of_le <;> omega
  simp [writeInode, hsize, hmin, G.direct_pos, Inode.directAt_eq, writeBlocks, upTo, put_nil, hbmod]

theorem writeInode_nil_cases (hU : U.Correct) (path : String) (mtim atim : ℕ) {i : ℕ}
    (hsize : (fs.inodeRoot i).size = 0) (hoff : 0 ≤ off) (hle : off < 2 ^ 31) :
    ∃ fs' reply, U.writeInode fs path i [] off mtim atim = some (fs', reply) ∧
      (fs' = fs ∨ fs' = fs.finishWrite i fs.dataRoot off mtim atim) := by
  cases hmin : U.minBlockcount fs path 0 with
  | none =>
    refine ⟨fs, ⟨-1, off, none⟩, ?_, Or.inl rfl⟩
    simp only [writeInode, hsize, Geometry.blockCount_zero, hmin]
  | some fs₁ =>
    obtain rfl := hU.minBlockcount_zero fs fs₁ path hmin
    exact ⟨_, _, writeInode_nil path mtim atim hsize hoff hle hmin, Or.inr rfl⟩

/-- The condition under which a call keeps the references sound. -/
def CallFits (U : Utils G) (fs : FileSystem G) : Call → Prop
  | .create path => ∀ i parent name, U.creation fs path = some (i, parent, name) →
      (fs.inodeRoot parent).EntryFits
  | .write path buf off _ _ => (off + buf.length).bmod (2 ^ 32) ≤ G.maxFilesize →
      (∀ i, U.getInode fs path = some i → (fs.inodeRoot i).WriteFits buf.length off) ∧
        ∀ i parent name, U.creation fs path = some (i, parent, name) →
          (fs.inodeRoot parent).EntryFits ∧ buf = [] ∧ 0 ≤ off ∧
            off ≤ (G.NUM_DIRECT_BLOCKS * G.blockSize : ℕ)

theorem Keeps.refl (h : fs.Owned) : U.Keeps path fs fs := ⟨h, .refl _ _⟩

theorem create_keeps (hU : U.Correct) (h : fs.Inv) (hfits : U.CallFits fs (.create path)) :
    ∃ fs', U.step fs (.create path) = some fs' ∧ fs'.Inv ∧ U.Keeps path fs fs' := by
  obtain ⟨fs', created, hcreate, hinv, hnone, hsome⟩ := minixfsCreateInodeForPath_spec hU h hfits
  refine ⟨fs', by simp [step, hcreate], hinv, hinv.toOwned, ?_⟩
  cases created with
  | none =>
    rw [hnone rfl]
    exact .refl _ _
  | some i =>
    obtain ⟨parent, name, hcreation, hchanged, -⟩ := hsome i rfl
    obtain ⟨hno, -, hparent⟩ := creation_eq_some hcreation
    exact hchanged.mono fun z hz ↦ ⟨parent, Or.inr ⟨hno, Or.inr hparent⟩, hz⟩

theorem write_keeps (hU : U.Correct) (h : fs.Inv)
    (hfits : U.CallFits fs (.write path buf off mtim atim)) :
    ∃ fs', U.step fs (.write path buf off mtim atim) = some fs' ∧ fs'.Inv ∧
      U.Keeps path fs fs' := by
  simp only [step, minixfsWrite]
  by_cases hmax : G.maxFilesize < (off + buf.length).bmod (2 ^ 32)
  · exact ⟨fs, by simp only [if_pos hmax, Option.map_some], h, .refl h.toOwned⟩
  obtain ⟨hexisting, hnew⟩ := hfits (Int.not_lt.mp hmax)
  rw [if_neg hmax]
  cases hget : U.getInode fs path with
  | some i =>
    obtain ⟨fs', reply, hwrite, hinv, hchanged⟩ := writeInode_spec (U := U) h path mtim atim
      (hexisting i hget) fun fs₁ hmin ↦ minBlockcount_fills hU h hget hmin
    exact ⟨fs', by simp [hwrite], hinv, hinv.toOwned,
      hchanged.mono fun z hz ↦ ⟨i, Or.inl hget, hz⟩⟩
  | none =>
    obtain ⟨fs₁, created, hcreate, hinv, hnone, hsome⟩ :=
      minixfsCreateInodeForPath_spec hU h fun i parent name hc ↦ (hnew i parent name hc).1
    cases created with
    | none =>
      rw [hnone rfl] at hcreate
      exact ⟨fs, by simp [hcreate], h, .refl h.toOwned⟩
    | some i =>
      obtain ⟨parent, name, hcreation, hchanged, hsize, -⟩ := hsome i rfl
      obtain ⟨-, hi, hparent⟩ := creation_eq_some hcreation
      obtain ⟨-, rfl, hoff, hle⟩ := hnew i parent name hcreation
      have hlimit : G.NUM_DIRECT_BLOCKS * G.blockSize < 2 ^ 31 :=
        lt_of_le_of_lt (Nat.mul_le_mul_right _ (Nat.le_add_right _ _)) G.size_lt
      obtain ⟨fs', reply, hwrite, hfs'⟩ := writeInode_nil_cases hU path mtim atim
        hsize hoff (by omega)
      have htouched : U.Touched fs path parent := Or.inr ⟨hget, Or.inr hparent⟩
      refine ⟨fs', by simp [hcreate, hwrite], ?_⟩
      rcases hfs' with rfl | rfl
      · exact ⟨hinv, hinv.toOwned, hchanged.mono fun z hz ↦ ⟨parent, htouched, hz⟩⟩
      · have hfinish := hinv.finishWrite (i := i) mtim atim (.refl _ _) hoff
          (hle.trans (by
            apply Int.ofNat_le.mpr
            exact Nat.mul_le_mul_right _ (le_max_left _ _)))
        refine ⟨hfinish, hfinish.toOwned, hchanged.mono ?_⟩
        rintro z ⟨s, hs, hin, hz⟩
        have hne : s.inode ≠ i := by
          rw [hs]
          exact (hU.parent_ne fs path i parent hi hparent).symm
        exact ⟨parent, htouched, s, hs, (inUse_setInode_of_ne hne).mpr hin,
          (slot_setInode_of_ne hne).trans hz⟩

theorem step_keeps (hU : U.Correct) (h : fs.Inv) {call : Call} (hfits : U.CallFits fs call) :
    ∃ fs', U.step fs call = some fs' ∧ fs'.Inv ∧ U.Keeps call.path fs fs' := by
  cases call with
  | create path => exact create_keeps hU h hfits
  | write path buf off mtim atim => exact write_keeps hU h hfits

end Utils

/-- Along a run of calls that stay in assigned direct blocks every referenced block is
marked and referenced once, and no call changes a block of another inode. -/
theorem block_ownership {U : Utils G} (hU : U.Correct) {fs₀ fs : FileSystem G} {calls : List Call}
    (h₀ : fs₀.WellFormed) (hrun : Run (Guarded (StepOf U.step) U.CallFits) fs₀ calls fs) :
    fs.Owned ∧ ∀ call, U.CallFits fs call →
      ∃ fs', U.step fs call = some fs' ∧ U.Keeps call.path fs fs' := by
  have hinv : fs.Inv := by
    apply hrun.invariant _ h₀.inv
    intro fs call fs' h ⟨hfits, hstep⟩
    obtain ⟨fs'', hstep', hinv, -⟩ := Utils.step_keeps hU h hfits
    rwa [Option.some.inj (hstep.symm.trans hstep')]
  refine ⟨hinv.toOwned, fun call hfits ↦ ?_⟩
  obtain ⟨fs', hstep, -, hkeeps⟩ := Utils.step_keeps hU hinv hfits
  exact ⟨fs', hstep, hkeeps⟩

section SmallDisk

/-- Eight blocks of four bytes, two direct blocks and one entry in an indirect block. -/
abbrev smallGeometry : Geometry where
  blockSize := 4
  NUM_DIRECT_BLOCKS := 2
  NUM_INDIRECT_BLOCKS := 1
  DATA_NUMBER := 8
  FILE_NAME_ENTRY := 2
  numbers := Layout.int32
  blockSize_pos := Layout.int32_pos
  direct_pos := by decide
  indirect_le := by decide
  entry_pos := by decide
  entry_le := by decide
  data_lt := by decide
  size_lt := by decide

def smallUtils : Utils smallGeometry where
  getInode _ path := if path = "/" then some 0 else if path = "/a" then some 1
    else if path = "/b" then some 2 else none
  firstUnusedInode _ := some 3
  parentDirectory _ _ := (some 0, "c")
  validFilename _ := true
  makeStringFromDirent _ i k := if k.val = 0 then 99 else UInt8.ofNat i
  initInode parent node :=
    { node with size := 0, direct := fun _ ↦ -1, indirect := -1, mode := parent.mode % 512 }
  firstUnusedData fs :=
    ((List.range 8).find? fun z : ℕ ↦ !fs.dataUsed z).elim (-1) fun z ↦ z
  getDataUsed fs z := fs.dataUsed z
  setDataUsed fs z := fs.mark z
  -- the blocks are there, or none can be allocated
  minBlockcount fs path n :=
    let i := if path = "/" then 0 else if path = "/a" then 1 else 2
    if (∀ j : Fin 2, ¬ (j.val < n ∧ (fs.inodeRoot i).direct j = -1)) ∧
        ¬ (2 < n ∧ (fs.inodeRoot i).indirect = -1) then some fs
    else none
  isVirtualPath _ := none
  geteuid := 0
  getegid := 0

theorem smallUtils_minBlockcount {fs fs' : FileSystem smallGeometry} {path : String} {n : ℕ}
    (h : smallUtils.minBlockcount fs path n = some fs') : fs' = fs := by
  simp only [smallUtils, Option.ite_none_right_eq_some] at h
  exact (Option.some.inj h.2).symm

theorem smallUtils_correct : smallUtils.Correct where
  setDataUsed _ _ := rfl
  firstUnusedData fs := by
    simp only [smallUtils]
    cases hfind : (List.range 8).find? fun z : ℕ ↦ !fs.dataUsed z with
    | none => exact Or.inl rfl
    | some z =>
      right
      have hlt := List.mem_range.mp (List.mem_of_find?_eq_some hfind)
      have hfree := List.find?_some hfind
      refine ⟨Int.natCast_nonneg z, ?_, by simpa using hfree⟩
      exact Int.ofNat_lt.mpr hlt
  parent_ne _ _ _ _ hi hparent := by
    simp only [smallUtils, Option.some.injEq] at hi hparent
    omega
  initInode _ _ := ⟨rfl, fun _ ↦ rfl, rfl⟩
  minBlockcount_zero _ _ _ h := smallUtils_minBlockcount h
  minBlockcount_covered fs path i n hi hcovers := by
    have hpath : (if path = "/" then 0 else if path = "/a" then 1 else 2) = i := by
      simp only [smallUtils] at hi
      split_ifs at hi ⊢ <;> simp_all
    simp only [smallUtils, hpath]
    rw [if_pos]
    exact ⟨fun j hj ↦ hcovers.1 j hj.1 hj.2, fun hlt ↦ (hcovers.2 hlt.1).1 hlt.2⟩
  minBlockcount_direct _ _ _ _ _ howned _ _ h := by
    rw [smallUtils_minBlockcount h]
    exact .refl _ howned _ _

/-- A root directory with the files `a`, of nine bytes, and `b`, of four. -/
def smallDisk : FileSystem smallGeometry where
  inodeRoot
    | 0 => ⟨0, 0, 0o1200, 0, 0, 0, 4, ![0, -1], -1⟩
    | 1 => ⟨0, 0, 0o200, 0, 0, 0, 9, ![1, 2], 4⟩
    | 2 => ⟨0, 0, 0o200, 0, 0, 0, 4, ![5, 6], -1⟩
    | _ => ⟨0, 0, 0, 0, 0, 0, 0, ![-1, -1], -1⟩
  dataRoot o := if o = 16 then 3 else 0
  dataUsed z := 0 ≤ z ∧ z < 7

def smallSlots : List (Slot smallGeometry) :=
  [.direct 0 0, .direct 1 0, .direct 1 1, .indirect 1, .entry 1 0, .direct 2 0, .direct 2 1]

theorem mem_smallSlots {s : Slot smallGeometry} (h : smallDisk.InUse s) : s ∈ smallSlots := by
  cases s with
  | direct i j =>
    rcases i with _ | _ | _ | i
    · fin_cases j
      · decide
      · exact absurd rfl h
    · fin_cases j <;> decide
    · fin_cases j <;> decide
    · fin_cases j <;> exact absurd rfl h
  | indirect i =>
    rcases i with _ | _ | _ | i
    · exact absurd rfl h
    · decide
    · exact absurd rfl h
    · exact absurd rfl h
  | entry i k =>
    rcases i with _ | _ | _ | i
    · exact absurd rfl h.1
    · have hk : 2 + k < 3 := h.2
      obtain rfl : k = 0 := by omega
      decide
    · exact absurd rfl h.1
    · exact absurd rfl h.1

theorem smallDisk_wellFormed : smallDisk.WellFormed where
  valid s hs := (by decide : ∀ s ∈ smallSlots, 0 ≤ smallDisk.slot s ∧ smallDisk.slot s < 8) s
    (mem_smallSlots hs)
  used s hs := (by decide : ∀ s ∈ smallSlots, smallDisk.dataUsed (smallDisk.slot s) = true) s
    (mem_smallSlots hs)
  unique s t hs ht := (by decide : ∀ s ∈ smallSlots, ∀ t ∈ smallSlots,
    smallDisk.slot s = smallDisk.slot t → s = t) s (mem_smallSlots hs) t (mem_smallSlots ht)
  size_le i := by
    rcases i with _ | _ | _ | i
    · decide
    · decide
    · decide
    · exact Nat.zero_le _
  direct_ne i j hj := by
    rcases i with _ | _ | _ | i
    · fin_cases j
      · decide
      · exact absurd hj (by decide)
    · fin_cases j <;> decide
    · fin_cases j <;> decide
    · exact absurd hj (show ¬ j.val < smallGeometry.blockCount 0 by simp)
  indirect_ne i h := by
    rcases i with _ | _ | _ | i
    · exact absurd h (by decide)
    · decide
    · exact absurd h (by decide)
    · exact absurd h (show ¬ 2 < smallGeometry.blockCount 0 by simp)

/-- A write to `b` inside its second direct block, and then a new file. -/
theorem block_ownership_write_create : ∃ fs fs',
    Run (Guarded (StepOf smallUtils.step) smallUtils.CallFits) smallDisk [.write "/b" [7] 4 0 0] fs ∧
      fs.Owned ∧ smallUtils.step fs (.create "/c") = some fs' ∧ smallUtils.Keeps "/c" fs fs' := by
  have hfits : smallUtils.CallFits smallDisk (.write "/b" [7] 4 0 0) := by
    intro _
    constructor
    · rintro i ⟨⟩
      refine ⟨by decide, by decide, Or.inr fun j hj ↦ ?_⟩
      have hj' : j * 4 < 1 := hj
      obtain rfl : j = 0 := by omega
      exact ⟨6, rfl, by decide⟩
    · intro i parent name h
      exact absurd (Utils.creation_eq_some h).1 (by decide)
  set fs := smallDisk.finishWrite 2 (memcpy smallDisk.dataRoot 24 [7]) 5 0 0 with hfs
  have hrun : Run (Guarded (StepOf smallUtils.step) smallUtils.CallFits) smallDisk
      [.write "/b" [7] 4 0 0] fs := Run.single ⟨hfits, rfl⟩
  obtain ⟨howned, hcalls⟩ := block_ownership smallUtils_correct smallDisk_wellFormed hrun
  have hcreate : smallUtils.CallFits fs (.create "/c") := by
    intro i parent name h
    obtain ⟨-, -, hparent⟩ := Utils.creation_eq_some h
    obtain rfl : 0 = parent := Option.some.inj hparent
    exact ⟨by decide, by decide, by decide, by decide⟩
  obtain ⟨fs', hstep, hkeeps⟩ := hcalls _ hcreate
  exact ⟨fs, fs', hrun, howned, hstep, hkeeps⟩

/-- The entry of the indirect block is not followed: the last block of `a` is looked for
behind the indirect block, where the block of `b` lies. -/
theorem write_changes_other_file : smallUtils.Correct ∧ smallDisk.WellFormed ∧ ∃ fs',
    Run (StepOf smallUtils.step) smallDisk [.write "/a" [9] 9 0 0] fs' ∧
      ¬ smallUtils.Keeps "/a" smallDisk fs' := by
  refine ⟨smallUtils_correct, smallDisk_wellFormed,
    smallDisk.finishWrite 1 (memcpy smallDisk.dataRoot 21 [9]) 9 0 0, Run.single ?_, ?_⟩
  · rfl
  · intro h
    have hbyte := h.frame 21 ?_
    · revert hbyte
      decide
    · rintro ⟨i, htouched, s, hs, hin, hz⟩
      obtain rfl : 1 = i := by
        rcases htouched with hget | ⟨hget, -⟩
        · exact Option.some.inj hget
        · exact absurd hget (by decide)
      cases s with
      | direct l j =>
        obtain rfl : l = 1 := hs
        fin_cases j <;> exact absurd hz (by decide)
      | indirect l =>
        obtain rfl : l = 1 := hs
        exact absurd hz (by decide)
      | entry l k =>
        obtain rfl : l = 1 := hs
        have hk : 2 + k < 3 := hin.2
        obtain rfl : k = 0 := by omega
        exact absurd hz (by decide)

end SmallDisk

end SystemProgramming.FindingFilesystems
