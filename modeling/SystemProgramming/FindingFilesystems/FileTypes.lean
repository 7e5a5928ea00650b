import SystemProgramming.FindingFilesystems.BlockOwnership

/-!
# The type bits of a mode

The bits of a mode at and above `RWX_BITS_NUMBER` hold the type of a file.  Only
`minixfs_chmod` assigns the mode of an inode that is in use.
-/

namespace SystemProgramming.FindingFilesystems

variable {G : Geometry}

/-- The `mode` field of an inode: an unsigned number of `width` bits. -/
structure ModeFormat where
  width : ℕ
  RWX_BITS_NUMBER : ℕ
  rwx_le : RWX_BITS_NUMBER ≤ width

namespace ModeFormat

variable (M : ModeFormat)

/-- The conversion of a number to the type of the field. -/
def convert (n : ℤ) : ℕ := (n % 2 ^ M.width).toNat

def typeBits (mode : ℕ) : ℕ := mode >>> M.RWX_BITS_NUMBER

def permissionBits (mode : ℤ) : ℤ := mode % 2 ^ M.RWX_BITS_NUMBER

end ModeFormat

namespace Utils

variable (U : Utils G) (M : ModeFormat)

def minixfsChmod (fs : FileSystem G) (path : String) (newPermissions : ℤ) (ctim : ℕ) :
    FileSystem G × ℤ × Option Errno :=
  match U.getInode fs path with
  | none => (fs, -1, some .ENOENT)
  | some i =>
    let mode := M.convert newPermissions
    let mode := M.convert ((mode ||| mode >>> M.RWX_BITS_NUMBER <<< M.RWX_BITS_NUMBER : ℕ) : ℤ)
    (fs.setInode i { fs.inodeRoot i with mode, ctim }, 0, none)

/-- An owner or a group of `-1`, as a number of 32 bits, is left as it is. -/
def minixfsChown (fs : FileSystem G) (path : String) (owner group : BitVec 32) (ctim : ℕ) :
    FileSystem G × ℤ × Option Errno :=
  match U.getInode fs path with
  | none => (fs, -1, some .ENOENT)
  | some i =>
    let node := fs.inodeRoot i
    let uid := if owner ≠ -1 then owner.toNat else node.uid
    let gid := if group ≠ -1 then group.toNat else node.gid
    (fs.setInode i { node with uid, gid, ctim }, 0, none)

end Utils

/-- A call of one of the functions that take the path of a file. -/
inductive FileCall
  | chmod (path : String) (newPermissions : ℤ) (ctim : ℕ)
  | chown (path : String) (owner group : BitVec 32) (ctim : ℕ)
  | write (path : String) (buf : List UInt8) (off : ℤ) (mtim atim : ℕ)
  | read (path : Option String) (count : ℕ) (off : ℤ) (atim : ℕ)

def Utils.fileStep (U : Utils G) (M : ModeFormat) (fs : FileSystem G) :
    FileCall → Option (FileSystem G)
  | .chmod path newPermissions ctim => some (U.minixfsChmod M fs path newPermissions ctim).1
  | .chown path owner group ctim => some (U.minixfsChown fs path owner group ctim).1
  | .write path buf off mtim atim => (U.minixfsWrite fs path buf off mtim atim).map Prod.fst
  | .read path count off atim => (U.minixfsRead fs path count off atim).map Prod.fst

/-- Marking a block and adding blocks to a file change no mode. -/
structure Utils.LeavesModes (U : Utils G) : Prop where
  setDataUsed : ∀ fs z i, ((U.setDataUsed fs z).inodeRoot i).mode = (fs.inodeRoot i).mode
  minBlockcount : ∀ fs fs' path n, U.minBlockcount fs path n = some fs' →
    ∀ i, (fs'.inodeRoot i).mode = (fs.inodeRoot i).mode

/-- The inodes in `E` have the same modes. -/
def FileSystem.SameModes (E : Set ℕ) (fs fs' : FileSystem G) : Prop :=
  ∀ i ∈ E, (fs'.inodeRoot i).mode = (fs.inodeRoot i).mode

namespace FileSystem

variable {E F : Set ℕ} {fs fs' fs'' : FileSystem G} {i : ℕ} {node : Inode G}

theorem SameModes.refl (E : Set ℕ) (fs : FileSystem G) : SameModes E fs fs := fun _ _ ↦ rfl

theorem SameModes.trans (h : SameModes E fs fs') (h' : SameModes E fs' fs'') :
    SameModes E fs fs'' :=
  fun i hi ↦ (h' i hi).trans (h i hi)

theorem SameModes.mono (hF : F ⊆ E) (h : SameModes E fs fs') : SameModes F fs fs' :=
  fun i hi ↦ h i (hF hi)

/-- An inode is replaced by one with the same mode, or is not looked at. -/
theorem sameModes_setInode (node : Inode G) (h : i ∈ E → node.mode = (fs.inodeRoot i).mode) :
    SameModes E fs (fs.setInode i node) := by
  intro k hk
  rcases eq_or_ne k i with rfl | hne
  · rw [setInode_inodeRoot_self]
    exact h hk
  · rw [setInode_inodeRoot_of_ne hne]

end FileSystem

open FileSystem

theorem Inode.mode_setDirect {node node' : Inode G} {j : ℕ} {z : ℤ}
    (h : node.setDirect j z = some node') : node'.mode = node.mode := by
  unfold Inode.setDirect at h
  split at h
  · rw [← Option.some.inj h]
  · simp at h

namespace Utils

variable {U : Utils G} {M : ModeFormat} {fs fs' : FileSystem G}

theorem LeavesModes.sameModes_setDataUsed (hU : U.LeavesModes) (fs : FileSystem G) (z : ℤ) :
    SameModes Set.univ fs (U.setDataUsed fs z) :=
  fun i _ ↦ hU.setDataUsed fs z i

theorem addEntry_sameModes (hU : U.LeavesModes) {parent : ℕ} {entry : List UInt8} {added : Bool}
    (h : U.addEntry fs parent entry = some (fs', added)) : SameModes Set.univ fs fs' := by
  have hdata (data : Bytes) : SameModes Set.univ fs { fs with dataRoot := data } := fun _ _ ↦ rfl
  have hindirect (z : ℤ) : SameModes Set.univ fs
      (U.setDataUsed (fs.setInode parent { fs.inodeRoot parent with indirect := z }) z) :=
    (sameModes_setInode { fs.inodeRoot parent with indirect := z } fun _ ↦ rfl).trans
      (hU.sameModes_setDataUsed _ _)
  simp only [addEntry] at h
  split_ifs at h
  all_goals simp only [Option.some.injEq, Prod.mk.injEq, Option.bind_eq_bind,
    Option.bind_eq_some_iff, Option.pure_def] at h
  · exact h.1 ▸ .refl _ _
  · obtain ⟨data, -, node, hnode, rfl, -⟩ := h
    apply (hdata data).trans
    apply SameModes.trans _ (hU.sameModes_setDataUsed _ _)
    exact sameModes_setInode _ fun _ ↦ Inode.mode_setDirect hnode
  · obtain ⟨z, -, data, -, rfl, -⟩ := h
    exact hdata data
  · exact h.1 ▸ .refl _ _
  · rw [← h.1]
    exact hindirect _
  · obtain ⟨data, -, data', -, rfl, -⟩ := h
    apply (hindirect _).trans
    exact hU.sameModes_setDataUsed _ _
  · obtain ⟨z, -, data, -, rfl, -⟩ := h
    exact hdata data
  · exact h.1 ▸ .refl _ _
  · obtain ⟨data, -, data', -, rfl, -⟩ := h
    apply (hdata data).trans
    exact hU.sameModes_setDataUsed _ _
  · exact h.1 ▸ .refl _ _

/-- Only the inode that has been found unused is initialised. -/
theorem create_sameModes (hU : U.LeavesModes) {E : Set ℕ} {path : String} {created : Option ℕ}
    (hE : ∀ i ∈ E, U.firstUnusedInode fs ≠ some i)
    (h : U.minixfsCreateInodeForPath fs path = some (fs', created)) : SameModes E fs fs' := by
  unfold minixfsCreateInodeForPath at h
  cases hcreation : U.creation fs path with
  | none =>
    simp only [hcreation, Option.some.injEq, Prod.mk.injEq] at h
    exact h.1 ▸ .refl _ _
  | some found =>
    obtain ⟨newInode, parent, filename⟩ := found
    have hnew : newInode ∉ E := fun hmem ↦ hE _ hmem (creation_eq_some hcreation).2.1
    simp only [hcreation, Option.bind_eq_bind, Option.bind_eq_some_iff] at h
    obtain ⟨⟨fs₁, added⟩, hadd, h⟩ := h
    have hadded := (addEntry_sameModes hU hadd).mono (Set.subset_univ E)
    split at h
    · simp only [Option.pure_def, Option.some.injEq, Prod.mk.injEq] at h
      rw [← h.1]
      apply hadded.trans
      have hgrown : SameModes E fs₁ (fs₁.grow parent) := sameModes_setInode _ fun _ ↦ rfl
      exact hgrown.trans (sameModes_setInode _ fun hmem ↦ absurd hmem hnew)
    · simp only [Option.pure_def, Option.some.injEq, Prod.mk.injEq] at h
      exact h.1 ▸ hadded

theorem writeInode_sameModes (hU : U.LeavesModes) {path : String} {i : ℕ} {buf : List UInt8}
    {off : ℤ} {mtim atim : ℕ} {reply : Reply}
    (h : U.writeInode fs path i buf off mtim atim = some (fs', reply)) :
    SameModes Set.univ fs fs' := by
  have hfinish (fs : FileSystem G) (data : Bytes) (off : ℤ) :
      SameModes Set.univ fs (fs.finishWrite i data off mtim atim) :=
    sameModes_setInode { fs.inodeRoot i with size := (off % 2 ^ 64).toNat, mtim, atim } fun _ ↦ rfl
  simp only [writeInode] at h
  cases hmin : U.minBlockcount fs path (G.blockCount (fs.inodeRoot i).size) with
  | none =>
    simp only [hmin, Option.some.injEq, Prod.mk.injEq] at h
    exact h.1 ▸ .refl _ _
  | some fs₁ =>
    have hblocks : SameModes Set.univ fs fs₁ := fun k _ ↦ hU.minBlockcount _ _ _ _ hmin k
    simp only [hmin, Option.bind_eq_bind, Option.bind_eq_some_iff] at h
    obtain ⟨p, -, h⟩ := h
    split at h
    · simp only [Option.pure_def, Option.some.injEq, Prod.mk.injEq] at h
      exact h.1 ▸ hblocks.trans (hfinish _ _ _)
    · simp only [Option.bind_eq_some_iff, Option.pure_def, Option.some.injEq, Prod.mk.injEq] at h
      obtain ⟨p', -, rfl, -⟩ := h
      exact hblocks.trans (hfinish _ _ _)

theorem write_sameModes (hU : U.LeavesModes) {E : Set ℕ} {path : String} {buf : List UInt8}
    {off : ℤ} {mtim atim : ℕ} {reply : Reply} (hE : ∀ i ∈ E, U.firstUnusedInode fs ≠ some i)
    (h : U.minixfsWrite fs path buf off mtim atim = some (fs', reply)) : SameModes E fs fs' := by
  unfold minixfsWrite at h
  split at h
  · simp only [Option.some.injEq, Prod.mk.injEq] at h
    exact h.1 ▸ .refl _ _
  · cases hget : U.getInode fs path with
    | some i =>
      rw [hget] at h
      exact (writeInode_sameModes hU h).mono (Set.subset_univ E)
    | none =>
      simp only [hget, Option.bind_eq_bind, Option.bind_eq_some_iff] at h
      obtain ⟨⟨fs₁, created⟩, hcreate, h⟩ := h
      have hcreated := create_sameModes hU hE hcreate
      cases created with
      | none =>
        simp only [Option.pure_def, Option.some.injEq, Prod.mk.injEq] at h
        exact h.1 ▸ hcreated
      | some i => exact hcreated.trans ((writeInode_sameModes hU h).mono (Set.subset_univ E))

theorem read_sameModes {path : Option String} {count : ℕ} {off : ℤ} {atim : ℕ}
    {bytes : List UInt8} {reply : Reply}
    (h : U.minixfsRead fs path count off atim = some (fs', bytes, reply)) :
    SameModes Set.univ fs fs' := by
  unfold minixfsRead minixfsVirtualRead at h
  split at h
  · simp only at h
    split_ifs at h <;> · simp only [Option.some.injEq, Prod.mk.injEq] at h; exact h.1 ▸ .refl _ _
  · split at h
    · simp only [Option.some.injEq, Prod.mk.injEq] at h
      exact h.1 ▸ .refl _ _
    · simp only at h
      split at h
      · simp only [Option.some.injEq, Prod.mk.injEq] at h
        exact h.1 ▸ .refl _ _
      split at h
      · simp only [Option.some.injEq, Prod.mk.injEq] at h
        exact h.1 ▸ .refl _ _
      · simp only [Option.bind_eq_bind, Option.bind_eq_some_iff, Option.pure_def,
          Option.some.injEq, Prod.mk.injEq] at h
        obtain ⟨_, -, rfl, -⟩ := h
        exact sameModes_setInode _ fun _ ↦ rfl

theorem chown_sameModes (path : String) (owner group : BitVec 32) (ctim : ℕ) :
    SameModes Set.univ fs (U.minixfsChown fs path owner group ctim).1 := by
  unfold minixfsChown
  split
  · exact .refl _ _
  · exact sameModes_setInode _ fun _ ↦ rfl

end Utils

namespace ModeFormat

variable (M : ModeFormat)

theorem convert_lt (n : ℤ) : M.convert n < 2 ^ M.width := by
  have hlt := Int.emod_lt_of_pos n (b := 2 ^ M.width) (by positivity)
  unfold convert
  zify
  rwa [Int.toNat_of_nonneg (Int.emod_nonneg n (by positivity))]

theorem convert_natCast {mode : ℕ} (h : mode < 2 ^ M.width) : M.convert mode = mode := by
  unfold convert
  rw [Int.emod_eq_of_lt (by positivity) (by exact_mod_cast h), Int.toNat_natCast]

/-- Shifting the upper bits of a number down and up again and adding them changes
nothing. -/
theorem lor_shift (mode : ℕ) :
    mode ||| mode >>> M.RWX_BITS_NUMBER <<< M.RWX_BITS_NUMBER = mode := by
  apply Nat.eq_of_testBit_eq
  intro k
  rw [Nat.testBit_or, Nat.testBit_shiftLeft, Nat.testBit_shiftRight]
  rcases Nat.lt_or_ge k M.RWX_BITS_NUMBER with hk | hk
  · simp [Nat.not_le.mpr hk]
  · simp [hk]

theorem permissionBits_convert (n : ℤ) : M.permissionBits (M.convert n) = M.permissionBits n := by
  unfold permissionBits convert
  rw [Int.toNat_of_nonneg (Int.emod_nonneg n (by positivity))]
  exact Int.emod_emod_of_dvd n (pow_dvd_pow 2 M.rwx_le)

end ModeFormat

namespace Utils

variable {U : Utils G} {M : ModeFormat} {fs fs' : FileSystem G}

/-- The second assignment of `minixfs_chmod` does nothing. -/
theorem minixfsChmod_found {path : String} {i : ℕ} (hget : U.getInode fs path = some i)
    (newPermissions : ℤ) (ctim : ℕ) : U.minixfsChmod M fs path newPermissions ctim =
      (fs.setInode i { fs.inodeRoot i with mode := M.convert newPermissions, ctim }, 0, none) := by
  have hconvert : M.convert (M.convert newPermissions : ℕ) = M.convert newPermissions := by
    apply M.convert_natCast
    exact M.convert_lt newPermissions
  simp only [minixfsChmod, hget, ModeFormat.lor_shift, hconvert]

theorem minixfsChmod_missing {path : String} (hget : U.getInode fs path = none)
    (newPermissions : ℤ) (ctim : ℕ) :
    U.minixfsChmod M fs path newPermissions ctim = (fs, -1, some .ENOENT) := by
  simp only [minixfsChmod, hget]

/-- Above the permissions, a call of `minixfs_chmod` gives the type that the inode
has. -/
def TypesGiven (U : Utils G) (M : ModeFormat) (E : Set ℕ) (fs : FileSystem G) : FileCall → Prop
  | .chmod path newPermissions _ => ∀ i ∈ E, U.getInode fs path = some i →
      M.typeBits (M.convert newPermissions) = M.typeBits (fs.inodeRoot i).mode
  | _ => True

/-- The inodes in `E` have the types they had before. -/
def SameTypes (M : ModeFormat) (E : Set ℕ) (fs fs' : FileSystem G) : Prop :=
  ∀ i ∈ E, M.typeBits (fs'.inodeRoot i).mode = M.typeBits (fs.inodeRoot i).mode

theorem sameTypes_step (hU : U.LeavesModes) {E : Set ℕ} {call : FileCall}
    (hE : ∀ i ∈ E, U.firstUnusedInode fs ≠ some i) (hgiven : U.TypesGiven M E fs call)
    (h : U.fileStep M fs call = some fs') : SameTypes M E fs fs' := by
  have hmodes (hsame : SameModes E fs fs') : SameTypes M E fs fs' := fun i hi ↦ by rw [hsame i hi]
  cases call with
  | chmod path newPermissions ctim =>
    obtain rfl := Option.some.inj h
    cases hget : U.getInode fs path with
    | none =>
      rw [minixfsChmod_missing hget]
      exact fun _ _ ↦ rfl
    | some k =>
      rw [minixfsChmod_found hget]
      intro i hi
      rcases eq_or_ne i k with rfl | hne
      · rw [setInode_inodeRoot_self]
        exact hgiven i hi hget
      · rw [setInode_inodeRoot_of_ne hne]
  | chown path owner group ctim =>
    obtain rfl := Option.some.inj h
    exact hmodes ((chown_sameModes path owner group ctim).mono (Set.subset_univ E))
  | write path buf off mtim atim =>
    obtain ⟨⟨fs₁, reply⟩, hwrite, rfl⟩ := Option.map_eq_some_iff.mp h
    exact hmodes (write_sameModes hU hE hwrite)
  | read path count off atim =>
    obtain ⟨⟨fs₁, bytes, reply⟩, hread, rfl⟩ := Option.map_eq_some_iff.mp h
    exact hmodes ((read_sameModes hread).mono (Set.subset_univ E))

/-- A call that gives another type changes the type. -/
theorem typesGiven_of_sameTypes {E : Set ℕ} {call : FileCall}
    (h : U.fileStep M fs call = some fs') (hsame : SameTypes M E fs fs') :
    U.TypesGiven M E fs call := by
  cases call with
  | chmod path newPermissions ctim =>
    obtain rfl := Option.some.inj h
    intro i hi hget
    have htype := hsame i hi
    rwa [minixfsChmod_found hget, setInode_inodeRoot_self] at htype
  | chown => trivial
  | write => trivial
  | read => trivial

/-- The inodes of `E` are in use from the start: no state of a run offers one of them for
a new file.  Their types stay as long as every call of `minixfs_chmod` gives them. -/
theorem fileTypes_permanent_iff (hU : U.LeavesModes) {E : Set ℕ} {fs₀ : FileSystem G}
    (hE : ∀ calls fs, Run (StepOf (U.fileStep M)) fs₀ calls fs →
      ∀ i ∈ E, U.firstUnusedInode fs ≠ some i)
    {calls : List FileCall} (hrun : Run (StepOf (U.fileStep M)) fs₀ calls fs) :
    ((∀ done rest fs₁, calls = done ++ rest → Run (StepOf (U.fileStep M)) fs₀ done fs₁ →
        SameTypes M E fs₀ fs₁) ↔
      Run (Guarded (StepOf (U.fileStep M)) (U.TypesGiven M E)) fs₀ calls fs) ∧
    ∀ path newPermissions ctim fs',
      U.minixfsChmod M fs path newPermissions ctim = (fs', 0, none) →
        ∃ i, U.getInode fs path = some i ∧
          M.permissionBits (fs'.inodeRoot i).mode = M.permissionBits newPermissions := by
  constructor
  · apply Run.forall_visited_iff_guarded (I := fun fs ↦
      (∃ calls, Run (StepOf (U.fileStep M)) fs₀ calls fs) ∧ SameTypes M E fs₀ fs)
    · exact fun _ h ↦ h.2
    · rintro fs call fs' ⟨⟨calls, hcalls⟩, hsame⟩ hgiven hstep
      refine ⟨⟨_, hcalls.snoc hstep⟩, fun i hi ↦ ?_⟩
      exact (sameTypes_step hU (hE _ _ hcalls) hgiven hstep i hi).trans (hsame i hi)
    · rintro fs call fs' ⟨-, hsame⟩ hgiven hstep hsame'
      apply hgiven
      apply typesGiven_of_sameTypes hstep
      exact fun i hi ↦ (hsame' i hi).trans (hsame i hi).symm
    · exact ⟨⟨[], .nil⟩, fun _ _ ↦ rfl⟩
    · exact hrun
  · intro path newPermissions ctim fs' hchmod
    cases hget : U.getInode fs path with
    | none =>
      rw [minixfsChmod_missing hget] at hchmod
      simp at hchmod
    | some i =>
      rw [minixfsChmod_found hget] at hchmod
      obtain rfl := (Prod.mk.inj hchmod).1
      refine ⟨i, rfl, ?_⟩
      rw [setInode_inodeRoot_self]
      exact M.permissionBits_convert newPermissions

end Utils

section SmallDisk

def smallModes : ModeFormat := ⟨16, 9, by decide⟩

theorem smallUtils_leavesModes : smallUtils.LeavesModes where
  setDataUsed _ _ _ := rfl
  minBlockcount _ _ _ _ h _ := by rw [smallUtils_minBlockcount h]

/-- A new mode for the root directory, with its type. -/
theorem fileTypes_permanent_root : ∃ fs,
    Run (StepOf (smallUtils.fileStep smallModes)) smallDisk [.chmod "/" 0o1755 3] fs ∧
      Utils.SameTypes smallModes {0, 1, 2} smallDisk fs := by
  have hrun : Run (StepOf (smallUtils.fileStep smallModes)) smallDisk [.chmod "/" 0o1755 3]
      (smallUtils.minixfsChmod smallModes smallDisk "/" 0o1755 3).1 := Run.single rfl
  have hgiven : smallUtils.TypesGiven smallModes {0, 1, 2} smallDisk (.chmod "/" 0o1755 3) := by
    intro i _ hget
    obtain rfl : 0 = i := Option.some.inj hget
    decide
  refine ⟨_, hrun, ?_⟩
  have hiff := Utils.fileTypes_permanent_iff (E := {0, 1, 2}) smallUtils_leavesModes
    (fun _ _ _ i hi heq ↦ ?_) hrun
  · exact hiff.1.mpr (Run.single ⟨hgiven, rfl⟩) [.chmod "/" 0o1755 3] [] _ rfl hrun
  · obtain rfl : 3 = i := Option.some.inj heq
    simp at hi

/-- The usual mode of a directory turns the root directory into a file of another
type. -/
theorem chmod_changes_type : smallUtils.LeavesModes ∧ ∃ fs,
    Run (StepOf (smallUtils.fileStep smallModes)) smallDisk [.chmod "/" 0o755 3] fs ∧
      ¬ Utils.SameTypes smallModes {0, 1, 2} smallDisk fs := by
  refine ⟨smallUtils_leavesModes, (smallUtils.minixfsChmod smallModes smallDisk "/" 0o755 3).1,
    Run.single rfl, fun h ↦ ?_⟩
  have hroot := h 0 (by simp)
  revert hroot
  decide

end SmallDisk

end SystemProgramming.FindingFilesystems
