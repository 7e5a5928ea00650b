import SystemProgramming.FindingFilesystems.BlockOwnership

/-!
# The virtual file `info`

`minixfs_virtual_read` copies from the text and moves the offset, but then it falls through to the
end of the function and returns `-1`.  Behind the end of the text the rest wraps around, and the
copy leaves the text.
-/

namespace SystemProgramming.FindingFilesystems

variable {G : Geometry}

/-! ## Files -/

/-- The text of `info` on a disk with `n` data blocks of which `u` are used. -/
def infoText (n u : ℕ) : List UInt8 :=
  ("Free blocks: " ++ toString (n - u) ++ "\nUsed blocks: " ++ toString u ++ "\n").toUTF8.toList

/-- What is copied, the returned value and the offset behind the call. -/
structure FileRead where
  bytes : List UInt8
  ret : ℤ
  off : ℤ
  deriving DecidableEq

/-- Up to `count` bytes from a place of the text on, and none from its end on. -/
def readAt (text : List UInt8) (off count : ℕ) : List UInt8 := (text.drop off).take count

/-- Successive reads of a file with this text.  There is no other file. -/
def fileReads (text : List UInt8) : ℤ → List (String × ℕ) → List FileRead
  | _, [] => []
  | off, (path, count) :: calls =>
      if path = "info" then
        let bytes := readAt text off.toNat count
        ⟨bytes, bytes.length, off + bytes.length⟩ :: fileReads text (off + bytes.length) calls
      else ⟨[], -1, off⟩ :: fileReads text off calls

namespace Utils

variable (U : Utils G)

def usedBlocks (fs : FileSystem G) : ℕ :=
  ((Finset.range G.DATA_NUMBER).filter fun z : ℕ ↦ U.getDataUsed fs z).card

/-- Successive calls that share one offset: the disk behind them and what each call gives. -/
def virtualReads : FileSystem G → ℤ → List (String × ℕ) → Option (FileSystem G × List FileRead)
  | fs, _, [] => some (fs, [])
  | fs, off, (path, count) :: calls => do
      let (fs, bytes, reply) ← U.minixfsVirtualRead fs path count off
      let (fs, reads) ← virtualReads fs reply.off calls
      pure (fs, ⟨bytes, reply.ret, reply.off⟩ :: reads)

/-- Each call does what it should do for a file, and the disk stays as it is. -/
def ReadsLikeFile (fs : FileSystem G) (off : ℤ) (calls : List (String × ℕ)) : Prop :=
  U.virtualReads fs off calls =
    some (fs, fileReads (infoText G.DATA_NUMBER (U.usedBlocks fs)) off calls)

/-- The same without the returned values. -/
def CopiesLikeFile (fs : FileSystem G) (off : ℤ) (calls : List (String × ℕ)) : Prop :=
  (U.virtualReads fs off calls).map (Prod.map id (List.map fun r ↦ (r.bytes, r.off))) =
    some (fs, (fileReads (infoText G.DATA_NUMBER (U.usedBlocks fs)) off calls).map
      fun r ↦ (r.bytes, r.off))

end Utils

/-! ## The text -/

theorem length_toListLoop (bytes : ByteArray) (i : ℕ) (r : List UInt8) :
    (ByteArray.toList.loop bytes i r).length = r.length + (bytes.size - i) := by
  fun_induction ByteArray.toList.loop bytes i r with
  | case1 i r hlt ih =>
      rw [ih, List.length_cons]
      omega
  | case2 i r hge =>
      rw [List.length_reverse]
      omega

theorem length_toUTF8 (text : String) : text.toUTF8.toList.length = text.utf8ByteSize := by
  rw [ByteArray.toList, length_toListLoop]
  simp

theorem utf8ByteSize_le (text : String) : text.utf8ByteSize ≤ 4 * text.length := by
  have hlen (cs : List Char) : String.utf8Len cs ≤ 4 * cs.length := by
    induction cs with
    | nil => simp
    | cons c cs ih =>
        have hsize := c.utf8Size_le_four
        simp only [String.utf8Len_cons, List.length_cons]
        omega
  have h := hlen text.toList
  rwa [← String.utf8ByteSize_ofList, String.ofList_toList, String.length_toList] at h

theorem utf8ByteSize_repr_le {n : ℕ} (h : n < 2 ^ 31) : n.repr.utf8ByteSize ≤ 40 := by
  have hrepr := Nat.repr_length n 10 (by decide) (h.trans (by decide))
  exact (utf8ByteSize_le n.repr).trans (by omega)

theorem length_infoText_lt {n u : ℕ} (hn : n < 2 ^ 31) (hu : u ≤ n) :
    (infoText n u).length < 2 ^ 31 := by
  have hfree := utf8ByteSize_repr_le (n := n - u) (by omega)
  have hused := utf8ByteSize_repr_le (n := u) (by omega)
  rw [infoText, length_toUTF8]
  simp only [String.utf8ByteSize_append]
  have hfront : "Free blocks: ".utf8ByteSize = 13 := rfl
  have hmiddle : "\nUsed blocks: ".utf8ByteSize = 14 := rfl
  have hend : "\n".utf8ByteSize = 1 := rfl
  change _ + (n - u).repr.utf8ByteSize + _ + u.repr.utf8ByteSize + _ < _
  omega

namespace Utils

variable {U : Utils G} {fs : FileSystem G} {off : ℤ} {path : String} {count : ℕ}
  {calls : List (String × ℕ)}

theorem usedBlocks_le (U : Utils G) (fs : FileSystem G) : U.usedBlocks fs ≤ G.DATA_NUMBER := by
  have h := Finset.card_filter_le (Finset.range G.DATA_NUMBER)
    (fun z : ℕ ↦ U.getDataUsed fs z = true)
  rwa [Finset.card_range] at h

theorem info_eq (U : Utils G) (fs : FileSystem G) :
    U.info fs = infoText G.DATA_NUMBER (U.usedBlocks fs) := by
  have hused : (((List.range G.DATA_NUMBER).map fun z : ℕ ↦ (z : ℤ)).filter fun z ↦
      U.getDataUsed fs z).length = U.usedBlocks fs := by
    rw [List.filter_map, List.length_map,
      ← List.toFinset_card_of_nodup (List.nodup_range.filter _), List.toFinset_filter,
      List.toFinset_range]
    rfl
  have hlist : (do let z ← List.range G.DATA_NUMBER; pure (z : ℤ) : List ℤ) =
      (List.range G.DATA_NUMBER).map fun z : ℕ ↦ (z : ℤ) := List.map_eq_flatMap.symm
  unfold info
  rw [hlist, hused]
  rfl

theorem length_info_lt (U : Utils G) (fs : FileSystem G) : (U.info fs).length < 2 ^ 31 := by
  rw [info_eq]
  exact length_infoText_lt G.data_lt (U.usedBlocks_le fs)

/-! ## Single calls -/

theorem minixfsVirtualRead_of_ne (h : path ≠ "info") :
    U.minixfsVirtualRead fs path count off = some (fs, [], ⟨-1, off, some .ENOENT⟩) := if_neg h

/-- Up to the end of the text only the returned value is wrong. -/
theorem minixfsVirtualRead_inside (hoff : 0 ≤ off) (hle : off ≤ (U.info fs).length) :
    U.minixfsVirtualRead fs "info" count off =
      some (fs, readAt (U.info fs) off.toNat count,
        ⟨-1, off + (readAt (U.info fs) off.toNat count).length, some .ENOENT⟩) := by
  have hlt := U.length_info_lt fs
  obtain ⟨off, rfl⟩ := Int.eq_ofNat_of_zero_le hoff
  have hend : ((off : ℤ) + (min count ((U.info fs).length - off) : ℕ)).bmod (2 ^ 64) =
      off + (min count ((U.info fs).length - off) : ℕ) := by
    apply Int.bmod_eq_of_le <;> omega
  rw [minixfsVirtualRead, if_pos rfl]
  generalize U.info fs = text at hle hlt hend ⊢
  have hrest : ((text.length - (off : ℤ)) % 2 ^ 64).toNat = text.length - off := by omega
  have hread : (if count < text.length - off then count else text.length - off) =
      min count (text.length - off) := by
    split <;> omega
  have hlength : (readAt text off count).length = min count (text.length - off) := by
    rw [readAt, List.length_take, List.length_drop]
  have htake : (text.drop off).take (min count (text.length - off)) = readAt text off count := by
    rw [← List.length_drop, ← List.take_eq_take_min, readAt]
  simp only [hrest, hread, Int.toNat_natCast, htake, hend, hlength]
  rw [if_pos (.inr ⟨hoff, by omega⟩)]

/-- Behind the end of the text the rest is taken for a large number. -/
theorem minixfsVirtualRead_behind (hlt : (U.info fs).length < off) (hoff : off < 2 ^ 63) :
    U.minixfsVirtualRead fs "info" count off =
      if count = 0 then some (fs, [], ⟨-1, off, some .ENOENT⟩) else none := by
  rw [minixfsVirtualRead, if_pos rfl]
  dsimp only
  generalize U.info fs = text at hlt ⊢
  have hrest : 0 < ((text.length - off) % 2 ^ 64).toNat := by omega
  generalize ((text.length - off) % 2 ^ 64).toNat = rest at hrest
  by_cases hcount : count = 0
  · have hend : off.bmod (2 ^ 64) = off := by apply Int.bmod_eq_of_le <;> omega
    simp only [hcount, if_pos hrest, true_or, if_true, List.take_zero, Nat.cast_zero, add_zero,
      hend]
  · rw [if_neg hcount, if_neg]
    split <;> omega

/-! ## Runs -/

theorem virtualReads_cons {bytes : List UInt8} {reply : Reply}
    (h : U.minixfsVirtualRead fs path count off = some (fs, bytes, reply)) :
    U.virtualReads fs off ((path, count) :: calls) = (U.virtualReads fs reply.off calls).map
      fun r ↦ (r.1, ⟨bytes, reply.ret, reply.off⟩ :: r.2) := by
  rw [virtualReads, h]
  simp [Option.map_eq_bind]

theorem virtualReads_eq_none (h : U.minixfsVirtualRead fs path count off = none) :
    U.virtualReads fs off ((path, count) :: calls) = none := by
  rw [virtualReads, h]
  rfl

theorem virtualReads_of_ne (h : path ≠ "info") :
    U.virtualReads fs off ((path, count) :: calls) =
      (U.virtualReads fs off calls).map fun r ↦ (r.1, ⟨[], -1, off⟩ :: r.2) :=
  virtualReads_cons (minixfsVirtualRead_of_ne h)

/-! ## The returned values -/

theorem readsLikeFile_of_ne (h : path ≠ "info") :
    U.ReadsLikeFile fs off ((path, count) :: calls) ↔ U.ReadsLikeFile fs off calls := by
  unfold ReadsLikeFile
  rw [virtualReads_of_ne h, fileReads, if_neg h]
  simp

/-- The code falls through to its last line. -/
theorem ret_of_info {fs' : FileSystem G} {bytes : List UInt8} {reply : Reply}
    (h : U.minixfsVirtualRead fs "info" count off = some (fs', bytes, reply)) : reply.ret = -1 := by
  rw [minixfsVirtualRead, if_pos rfl] at h
  obtain ⟨-, h⟩ := Option.ite_none_right_eq_some.mp h
  obtain ⟨-, h⟩ := Prod.mk.inj (Option.some.inj h)
  obtain ⟨-, rfl⟩ := Prod.mk.inj h
  rfl

theorem not_readsLikeFile_info : ¬ U.ReadsLikeFile fs off (("info", count) :: calls) := by
  unfold ReadsLikeFile
  intro h
  rw [virtualReads, fileReads, if_pos rfl] at h
  obtain ⟨⟨fs', bytes, reply⟩, hread, h⟩ := Option.bind_eq_some_iff.mp h
  obtain ⟨r, -, hr⟩ := Option.bind_eq_some_iff.mp h
  have hreads := (Prod.mk.inj (Option.some.inj hr)).2
  have hret := congrArg FileRead.ret (List.cons.inj hreads).1
  simp only [ret_of_info hread] at hret
  omega

theorem readsLikeFile_iff :
    U.ReadsLikeFile fs off calls ↔ ∀ call ∈ calls, call.1 ≠ "info" := by
  induction calls with
  | nil => simp [ReadsLikeFile, virtualReads, fileReads]
  | cons call calls ih =>
      obtain ⟨path, count⟩ := call
      rw [List.forall_mem_cons]
      by_cases hpath : path = "info"
      · subst hpath
        exact iff_of_false not_readsLikeFile_info fun h ↦ h.1 rfl
      · rw [readsLikeFile_of_ne hpath, ih]
        exact (and_iff_right hpath).symm

/-! ## What is copied -/

theorem copiesLikeFile_of_ne (h : path ≠ "info") :
    U.CopiesLikeFile fs off ((path, count) :: calls) ↔ U.CopiesLikeFile fs off calls := by
  unfold CopiesLikeFile
  rw [virtualReads_of_ne h, fileReads, if_neg h]
  simp

theorem copiesLikeFile_inside (hoff : 0 ≤ off) (hle : off ≤ (U.info fs).length) :
    U.CopiesLikeFile fs off (("info", count) :: calls) ↔
      U.CopiesLikeFile fs (off + (readAt (U.info fs) off.toNat count).length) calls := by
  unfold CopiesLikeFile
  rw [virtualReads_cons (minixfsVirtualRead_inside hoff hle), fileReads, if_pos rfl, info_eq]
  simp

theorem copiesLikeFile_behind (hlt : (U.info fs).length < off) (hoff : off < 2 ^ 63) :
    U.CopiesLikeFile fs off (("info", count) :: calls) ↔
      count = 0 ∧ U.CopiesLikeFile fs off calls := by
  have hread : U.minixfsVirtualRead fs "info" count off =
      if count = 0 then some (fs, [], ⟨-1, off, some .ENOENT⟩) else none :=
    minixfsVirtualRead_behind hlt hoff
  unfold CopiesLikeFile
  by_cases hcount : count = 0
  · rw [if_pos hcount] at hread
    rw [virtualReads_cons hread, fileReads, if_pos rfl, hcount]
    simp [readAt]
  · rw [if_neg hcount] at hread
    rw [virtualReads_eq_none hread]
    simp [hcount]

/-- A read of something leaves the text if and only if it starts behind its end. -/
theorem copiesLikeFile_iff (hnonneg : 0 ≤ off) (hoff : off < 2 ^ 63) :
    U.CopiesLikeFile fs off calls ↔
      off ≤ (U.info fs).length ∨ ∀ call ∈ calls, call.1 = "info" → call.2 = 0 := by
  induction calls generalizing off with
  | nil => simp [CopiesLikeFile, virtualReads, fileReads]
  | cons call calls ih =>
      obtain ⟨path, count⟩ := call
      rw [List.forall_mem_cons]
      by_cases hpath : path = "info"
      · subst hpath
        by_cases hle : off ≤ (U.info fs).length
        · have hlength : (readAt (U.info fs) off.toNat count).length ≤
              (U.info fs).length - off.toNat := by
            rw [readAt, List.length_take, List.length_drop]
            exact min_le_right ..
          have hlt := U.length_info_lt fs
          rw [copiesLikeFile_inside hnonneg hle, ih (by omega) (by omega)]
          exact iff_of_true (.inl (by omega)) (.inl hle)
        · rw [copiesLikeFile_behind (not_le.mp hle) hoff, ih hnonneg hoff]
          simp [hle]
      · rw [copiesLikeFile_of_ne hpath, ih hnonneg hoff]
        simp [hpath]

/-- The calls read a file exactly if none of them is on `info`.  What they copy is right exactly if
they start inside the text, or copy nothing. -/
theorem virtualReads_iff (hnonneg : 0 ≤ off) (hoff : off < 2 ^ 63) :
    (U.ReadsLikeFile fs off calls ↔ ∀ call ∈ calls, call.1 ≠ "info") ∧
    (U.CopiesLikeFile fs off calls ↔
      off ≤ (infoText G.DATA_NUMBER (U.usedBlocks fs)).length ∨
        ∀ call ∈ calls, call.1 = "info" → call.2 = 0) := by
  refine ⟨readsLikeFile_iff, ?_⟩
  rw [copiesLikeFile_iff hnonneg hoff, info_eq]

end Utils

/-- Another file is not found, and the text of `info` is copied in chunks. -/
theorem virtualReads_iff_chunks :
    smallUtils.ReadsLikeFile smallDisk 0 [("other", 5)] ∧
    smallUtils.CopiesLikeFile smallDisk 0 [("info", 5), ("info", 100)] :=
  ⟨(Utils.virtualReads_iff le_rfl (by decide)).1.mpr (by simp),
    (Utils.virtualReads_iff le_rfl (by decide)).2.mpr (.inl (Int.natCast_nonneg _))⟩

/-- A read of `info` copies a byte and returns `-1`. -/
theorem info_read_fails : ¬ smallUtils.ReadsLikeFile smallDisk 0 [("info", 1)] :=
  Utils.not_readsLikeFile_info

end SystemProgramming.FindingFilesystems
