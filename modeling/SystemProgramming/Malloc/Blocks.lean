import SystemProgramming.Lib.Tiling
import SystemProgramming.Malloc.FreeLists

/-!
# The blocks of the heap

The blocks tile the heap from its base to the break, and the list of every class holds the free
blocks of that class.  The blocks that are not free belong to the client.
-/

namespace SystemProgramming.Malloc

theorem getIndex_eq_last {size : ℕ} : getIndex size = 16 ↔ 262144 < size := by
  have hiff : getIndex size = 16 ↔ ∀ b ∈ blockSize, ¬ size ≤ b := by
    have hlength : blockSize.length = 16 := rfl
    rw [getIndex, ← hlength, List.findIdx_eq_length]
    simp
  rw [hiff]
  constructor
  · intro h
    exact Nat.lt_of_not_le (h 262144 (by decide))
  · intro h b hb
    have hle : ∀ b ∈ blockSize, b ≤ 262144 := by decide
    have := hle b hb
    omega

theorem intptr_of_lt {n : ℕ} (hn : n < 2 ^ 63) : intptr n = n := by
  unfold intptr
  exact Int.bmod_eq_of_le (by omega) (by omega)

theorem intptr_neg {n m : ℕ} (hn : n < 2 ^ 63) (hpos : 0 < n)
    (hm : m = (2 ^ 64 - n % 2 ^ 64) % 2 ^ 64) : intptr m = -n := by
  unfold intptr
  rw [Int.bmod_def]
  split
  · omega
  · omega
namespace Heap

/-- The length of a block with its header. -/
def span (s : Heap) (h : ℕ) : ℕ := META + (s.header h).size

/-- The blocks tile the heap, and the lists hold the free ones by class. -/
structure Inv (base : ℕ) (s : Heap) (blocks : List ℕ) (lists : ℕ → List ℕ) : Prop where
  base_pos : 0 < base
  top_lt : s.top < 2 ^ 63
  tiles : Tiles s.span base blocks s.top
  size_pos : ∀ h ∈ blocks, 0 < (s.header h).size
  flag : ∀ h ∈ blocks, (s.header h).free = 0 ∨ (s.header h).free = 1
  linked : s.Linked blocks lists
  mem_lists : ∀ i h, h ∈ lists i ↔
    h ∈ blocks ∧ (s.header h).free = 1 ∧ getIndex (s.header h).size = i

/-- The blocks of the client other than those in `E` stay, with all their bytes. -/
structure Keeps (E : Set ℕ) (s : Heap) (blocks : List ℕ) (s' : Heap) (blocks' : List ℕ) : Prop where
  used : ∀ h ∈ blocks, h ∉ E → (s.header h).free = 0 →
    h ∈ blocks' ∧ (s'.header h).free = 0 ∧ (s'.header h).size = (s.header h).size
  payload : ∀ h ∈ blocks, h ∉ E → (s.header h).free = 0 →
    ∀ a, h + META ≤ a → a < h + s.span h → s'.mem a = s.mem a

variable {s s' s'' : Heap} {base cur h i : ℕ} {blocks blocks' blocks'' : List ℕ}
  {lists lists' : ℕ → List ℕ} {E F : Set ℕ}

theorem span_eq : s.span h = META + (s.header h).size := rfl

theorem span_pos : 0 < s.span h := Nat.lt_of_lt_of_le (by decide : 0 < META) (Nat.le_add_right _ _)

namespace Keeps

theorem refl (E : Set ℕ) (s : Heap) (blocks : List ℕ) : Keeps E s blocks s blocks :=
  ⟨fun _ hh _ hf ↦ ⟨hh, hf, rfl⟩, fun _ _ _ _ _ _ _ ↦ rfl⟩

theorem trans (hk : Keeps E s blocks s' blocks') (hk' : Keeps E s' blocks' s'' blocks'') :
    Keeps E s blocks s'' blocks'' := by
  constructor
  · intro h hh hE hf
    obtain ⟨hh', hf', hsize⟩ := hk.used h hh hE hf
    obtain ⟨hh'', hf'', hsize'⟩ := hk'.used h hh' hE hf'
    exact ⟨hh'', hf'', hsize'.trans hsize⟩
  · intro h hh hE hf a ha hlt
    obtain ⟨hh', hf', hsize⟩ := hk.used h hh hE hf
    have hlt' : a < h + s'.span h := by rwa [span_eq, hsize, ← span_eq]
    rw [hk'.payload h hh' hE hf' a ha hlt', hk.payload h hh hE hf a ha hlt]

theorem mono (hEF : E ⊆ F) (hk : Keeps E s blocks s' blocks') : Keeps F s blocks s' blocks' :=
  ⟨fun h hh hF ↦ hk.used h hh fun hE ↦ hF (hEF hE),
    fun h hh hF ↦ hk.payload h hh fun hE ↦ hF (hEF hE)⟩

end Keeps

namespace Inv

theorem separate (hs : Inv base s blocks lists) : Separate blocks := by
  intro h hh k hk hne
  have := hs.tiles.separate hh hk hne
  rw [span_eq, span_eq] at this
  unfold Apart
  omega

theorem bounds (hs : Inv base s blocks lists) (hh : h ∈ blocks) :
    base ≤ h ∧ h + META + (s.header h).size ≤ s.top := by
  have := hs.tiles.bounds hh
  rw [span_eq, ← Nat.add_assoc] at this
  exact this

theorem storable (hs : Inv base s blocks lists) (hh : h ∈ blocks) : Storable (some h) := by
  have := hs.bounds hh
  have := hs.top_lt
  have := hs.base_pos
  exact storable_some (by omega) (by omega)

theorem nodup (hs : Inv base s blocks lists) : blocks.Nodup := hs.tiles.nodup fun _ _ ↦ span_pos

/-- The payload of a block lies outside all headers. -/
theorem outside (hs : Inv base s blocks lists) (hh : h ∈ blocks) {a : ℕ} (ha : h + META ≤ a)
    (hlt : a < h + s.span h) : ∀ k ∈ blocks, a < k ∨ k + META ≤ a := by
  intro k hk
  rcases eq_or_ne h k with rfl | hne
  · exact Or.inr ha
  · have := hs.tiles.separate hh hk hne
    rw [span_eq, span_eq] at this
    rw [span_eq] at hlt
    omega

/-- A state with the same headers. -/
theorem of_header_eq (hs : Inv base s blocks lists) (hheader : ∀ h ∈ blocks, s'.header h = s.header h)
    (hhead : s'.freeListHead = s.freeListHead) (htop : s'.top = s.top) :
    Inv base s' blocks lists where
  base_pos := hs.base_pos
  top_lt := htop ▸ hs.top_lt
  tiles := by
    rw [htop]
    exact hs.tiles.congr fun h hh ↦ by rw [span_eq, span_eq, hheader h hh]
  size_pos h hh := by
    rw [hheader h hh]
    exact hs.size_pos h hh
  flag h hh := by
    rw [hheader h hh]
    exact hs.flag h hh
  linked := hs.linked.congr hhead fun i h hh ↦ by
    rw [hheader h (hs.linked.subset i h hh)]
    exact ⟨rfl, rfl⟩
  mem_lists i h := by
    rw [hs.mem_lists]
    constructor
    · rintro ⟨hh, hrest⟩
      rw [hheader h hh]
      exact ⟨hh, hrest⟩
    · rintro ⟨hh, hrest⟩
      rw [hheader h hh] at hrest
      exact ⟨hh, hrest⟩

/-- The blocks stay where only headers and free blocks change. -/
theorem keeps_of_outside (hs : Inv base s blocks lists) (hout : SameOutside blocks s s')
    (hused : ∀ h ∈ blocks, h ∉ E → (s.header h).free = 0 →
      h ∈ blocks' ∧ (s'.header h).free = 0 ∧ (s'.header h).size = (s.header h).size) :
    Keeps E s blocks s' blocks' :=
  ⟨hused, fun _ hh _ _ a ha hlt ↦ hout a (hs.outside hh ha hlt)⟩

theorem notMem_lists (hs : Inv base s blocks lists) (hfree : (s.header cur).free = 0) :
    cur ∉ lists i := by
  intro hmem
  have hone := ((hs.mem_lists i cur).mp hmem).2.1
  rw [hfree] at hone
  exact absurd hone (by decide)

/-- The headers after a block has left its list and is no longer free. -/
theorem header_take (hs : Inv base s blocks lists) (hcur : cur ∈ lists i) {k : ℕ} (hk : k ∈ blocks) :
    (((s.removeblock cur).setFree cur 0).header k).size = (s.header k).size ∧
      (((s.removeblock cur).setFree cur 0).header k).free =
        if k = cur then 0 else (s.header k).free := by
  have hblocks := hs.linked.subset i cur hcur
  obtain ⟨hprev, hnext⟩ := hs.linked.neighbours hcur
  rw [header_setFree hs.separate hblocks hk]
  split
  · next heq =>
    subst heq
    rw [header_removeblock hs.separate hblocks hblocks hprev hnext]
    exact ⟨rfl, rfl⟩
  · rw [header_removeblock hs.separate hblocks hk hprev hnext]
    exact ⟨rfl, rfl⟩

theorem sameOutside_take (hs : Inv base s blocks lists) (hcur : cur ∈ lists i) :
    SameOutside blocks s ((s.removeblock cur).setFree cur 0) := by
  have hblocks := hs.linked.subset i cur hcur
  obtain ⟨hprev, hnext⟩ := hs.linked.neighbours hcur
  exact (sameOutside_removeblock hblocks (fun k hk ↦ (hprev k hk).1)
    fun k hk ↦ (hnext k hk).1).trans (sameOutside_setFree hblocks 0)

theorem take_top : ((s.removeblock cur).setFree cur 0).top = s.top := by
  rw [setFree_top, removeblock_top]

/-- A free block is taken from its list. -/
theorem take (hs : Inv base s blocks lists) {pre post : List ℕ}
    (hsplit : lists i = pre ++ cur :: post) :
    Inv base ((s.removeblock cur).setFree cur 0) blocks (Function.update lists i (pre ++ post)) := by
  have hcur : cur ∈ lists i := by simp [hsplit]
  obtain ⟨hblocks, -, hclass⟩ := (hs.mem_lists i cur).mp hcur
  have hheader : ∀ k ∈ blocks, _ := fun k hk ↦ hs.header_take hcur hk
  have hlinked := hs.linked.removeblock hs.separate hclass hsplit
  constructor
  · exact hs.base_pos
  · rw [take_top]
    exact hs.top_lt
  · rw [take_top]
    exact hs.tiles.congr fun k hk ↦ by rw [span_eq, span_eq, (hheader k hk).1]
  · intro k hk
    rw [(hheader k hk).1]
    exact hs.size_pos k hk
  · intro k hk
    rw [(hheader k hk).2]
    split
    · exact Or.inl rfl
    · exact hs.flag k hk
  · refine hlinked.congr setFree_freeListHead fun j k hk ↦ ?_
    have hkb := hlinked.subset j k hk
    have hne := (hs.linked.mem_update_removed hsplit).mp hk
    rw [header_setFree hs.separate hblocks hkb, if_neg hne.2]
    exact ⟨rfl, rfl⟩
  · intro j k
    rw [hs.linked.mem_update_removed hsplit, hs.mem_lists]
    constructor
    · rintro ⟨⟨hk, hfree, hsize⟩, hne⟩
      rw [(hheader k hk).1, (hheader k hk).2, if_neg hne]
      exact ⟨hk, hfree, hsize⟩
    · rintro ⟨hk, hfree, hsize⟩
      rw [(hheader k hk).1] at hsize
      rw [(hheader k hk).2] at hfree
      split at hfree
      · exact absurd hfree (by decide)
      · next hne => exact ⟨⟨hk, hfree, hsize⟩, hne⟩

theorem keeps_take (hs : Inv base s blocks lists) (hcur : cur ∈ lists i) :
    Keeps ∅ s blocks ((s.removeblock cur).setFree cur 0) blocks := by
  apply hs.keeps_of_outside (hs.sameOutside_take hcur)
  intro k hk _ hfree
  obtain ⟨hsize, hflag⟩ := hs.header_take hcur hk
  rw [hsize, hflag]
  refine ⟨hk, ?_, rfl⟩
  split
  · rfl
  · exact hfree

theorem head_mem (hs : Inv base s blocks lists) {k : ℕ} (hk : s.freeListHead i = some k) :
    k ∈ lists i := by
  rw [(hs.linked.linked i).head?_eq] at hk
  exact List.mem_of_mem_head? hk

/-- The headers after a block has become free. -/
theorem header_put (hs : Inv base s blocks lists) (hcur : cur ∈ blocks)
    (hfree : (s.header cur).free = 0) {k : ℕ} (hk : k ∈ blocks) :
    (((s.setFree cur 1).addblock cur).header k).size = (s.header k).size ∧
      (((s.setFree cur 1).addblock cur).header k).free =
        if k = cur then 1 else (s.header k).free := by
  rw [header_addblock hs.separate hcur hk (hs.storable hcur) fun j l hl ↦ ?_,
    header_setFree hs.separate hcur hk]
  · split
    · next heq => exact ⟨by rw [heq], rfl⟩
    · exact ⟨rfl, rfl⟩
  · have hmem := hs.head_mem hl
    have hl' := hs.linked.subset j l hmem
    refine ⟨hl', ?_, hs.storable hl'⟩
    rintro rfl
    exact hs.notMem_lists hfree hmem

/-- A block of the client becomes free. -/
theorem put (hs : Inv base s blocks lists) (hcur : cur ∈ blocks)
    (hfree : (s.header cur).free = 0) :
    Inv base ((s.setFree cur 1).addblock cur) blocks (Function.update lists
      (getIndex (s.header cur).size) (cur :: lists (getIndex (s.header cur).size))) := by
  have hheader : ∀ k ∈ blocks, _ := fun k hk ↦ hs.header_put hcur hfree hk
  have hout : ∀ j, cur ∉ lists j := fun j ↦ hs.notMem_lists hfree
  have hsize : ((s.setFree cur 1).header cur).size = (s.header cur).size := by
    rw [header_setFree_self]
  have hfreed : (s.setFree cur 1).Linked blocks lists := by
    refine hs.linked.congr setFree_freeListHead fun j k hk ↦ ?_
    rw [header_setFree hs.separate hcur (hs.linked.subset j k hk), if_neg]
    · exact ⟨rfl, rfl⟩
    · rintro rfl
      exact hout j hk
  have hlinked := hfreed.addblock hs.separate hcur (fun h hh ↦ hs.storable hh) hout
  rw [hsize] at hlinked
  constructor
  · exact hs.base_pos
  · rw [addblock_top, setFree_top]
    exact hs.top_lt
  · rw [addblock_top, setFree_top]
    exact hs.tiles.congr fun k hk ↦ by rw [span_eq, span_eq, (hheader k hk).1]
  · intro k hk
    rw [(hheader k hk).1]
    exact hs.size_pos k hk
  · intro k hk
    rw [(hheader k hk).2]
    split
    · exact Or.inr rfl
    · exact hs.flag k hk
  · exact hlinked
  · intro j k
    have hupdate : k ∈ Function.update lists (getIndex (s.header cur).size)
        (cur :: lists (getIndex (s.header cur).size)) j ↔
        k = cur ∧ getIndex (s.header cur).size = j ∨ k ∈ lists j := by
      rcases eq_or_ne j (getIndex (s.header cur).size) with rfl | hj
      · simp
      · simp [Function.update_of_ne hj, hj.symm]
    rw [hupdate, hs.mem_lists]
    constructor
    · rintro (⟨rfl, hclass⟩ | ⟨hk, hone, hclass⟩)
      · rw [(hheader k hcur).1, (hheader k hcur).2, if_pos rfl]
        exact ⟨hcur, rfl, hclass⟩
      · rw [(hheader k hk).1, (hheader k hk).2]
        refine ⟨hk, ?_, hclass⟩
        split
        · rfl
        · exact hone
    · rintro ⟨hk, hone, hclass⟩
      rw [(hheader k hk).1] at hclass
      rw [(hheader k hk).2] at hone
      rcases eq_or_ne k cur with rfl | hne
      · exact Or.inl ⟨rfl, hclass⟩
      · rw [if_neg hne] at hone
        exact Or.inr ⟨hk, hone, hclass⟩

theorem keeps_put (hs : Inv base s blocks lists) (hcur : cur ∈ blocks)
    (hfree : (s.header cur).free = 0) :
    Keeps {cur} s blocks ((s.setFree cur 1).addblock cur) blocks := by
  have hout : SameOutside blocks s ((s.setFree cur 1).addblock cur) :=
    (sameOutside_setFree hcur 1).trans
      (sameOutside_addblock hcur fun j k hk ↦ hs.linked.subset j k (hs.head_mem hk))
  apply hs.keeps_of_outside hout
  intro k hk hne hzero
  obtain ⟨hsize, hflag⟩ := hs.header_put hcur hfree hk
  rw [hsize, hflag, if_neg (by simpa using hne)]
  exact ⟨hk, hzero, rfl⟩

end Inv

theorem sbrk_eq_some {increment : ℕ} {ok : Bool} (hs' : s.sbrk increment ok = some s') :
    ok = true ∧ 0 ≤ (s.top : ℤ) + intptr increment ∧ (s.top : ℤ) + intptr increment < 2 ^ 63 ∧
      s' = { s with top := ((s.top : ℤ) + intptr increment).toNat } := by
  simp only [sbrk] at hs'
  split at hs'
  · next h => exact ⟨h.1, h.2.1, h.2.2, (Option.some.inj hs').symm⟩
  · cases hs'

theorem shrink_cases (hend : s.top = cur + META + (s.header cur).size) (htop : s.top < 2 ^ 63)
    (ok : Bool) : s.shrink cur ok = s ∨ s.shrink cur ok = { s with top := cur } := by
  unfold shrink
  generalize hm : (2 ^ 64 - ((s.header cur).size + META) % 2 ^ 64) % 2 ^ 64 = increment
  have hintptr := intptr_neg (by omega) (Nat.add_pos_right _ (by decide)) hm.symm
  cases hs' : s.sbrk increment ok with
  | none => exact Or.inl rfl
  | some s' =>
    right
    obtain ⟨-, -, -, rfl⟩ := sbrk_eq_some hs'
    have hval : ((s.top : ℤ) + -((s.header cur).size + META : ℕ)).toNat = cur := by omega
    rw [Option.getD_some, hintptr, hval]

/-- The heap has grown by a block. -/
theorem sbrk_grow {size : ℕ} {ok : Bool} (hsize : META + size < 2 ^ 63)
    (hgrow : s.sbrk ((META + size) % 2 ^ 64) ok = some s') :
    s' = { s with top := s.top + META + size } ∧ s.top + META + size < 2 ^ 63 := by
  obtain ⟨-, hle, hlt, rfl⟩ := sbrk_eq_some hgrow
  rw [Nat.mod_eq_of_lt (by omega), intptr_of_lt hsize] at hlt ⊢
  constructor
  · congr 1
    omega
  · omega
namespace Inv

/-- The last block is given back. -/
theorem release (hs : Inv base s blocks lists) (hcur : cur ∈ blocks)
    (hfree : (s.header cur).free = 0) (hend : s.top ≤ cur + META + (s.header cur).size) (ok : Bool) :
    ∃ blocks', Inv base (s.shrink cur ok) blocks' lists ∧
      Keeps {cur} s blocks (s.shrink cur ok) blocks' := by
  have htop := (hs.bounds hcur).2
  rcases shrink_cases (le_antisymm hend htop) hs.top_lt ok with heq | heq
  · rw [heq]
    exact ⟨blocks, hs, .refl _ _ _⟩
  · rw [heq]
    obtain ⟨xs, hxs, htiles⟩ := hs.tiles.split_last (fun _ _ ↦ span_pos) hcur (by
      rw [span_eq]
      omega)
    have hmem : ∀ h, h ∈ blocks ↔ h ∈ xs ∨ h = cur := by simp [hxs]
    have hsub : ∀ h ∈ xs, h ∈ blocks := fun h hh ↦ (hmem h).mpr (Or.inl hh)
    refine ⟨xs, ⟨hs.base_pos, ?_, htiles, fun h hh ↦ hs.size_pos h (hsub h hh),
      fun h hh ↦ hs.flag h (hsub h hh), ?_, ?_⟩, ?_, ?_⟩
    · have := hs.top_lt
      simp only
      omega
    · refine (hs.linked.mono fun j h hh ↦ ?_).congr rfl fun _ _ _ ↦ ⟨rfl, rfl⟩
      rcases (hmem h).mp (hs.linked.subset j h hh) with hh' | rfl
      · exact hh'
      · exact absurd hh (hs.notMem_lists hfree)
    · intro j h
      rw [hs.mem_lists]
      constructor
      · rintro ⟨hh, hone, hclass⟩
        refine ⟨((hmem h).mp hh).resolve_right ?_, hone, hclass⟩
        rintro rfl
        rw [hfree] at hone
        exact absurd hone (by decide)
      · exact fun ⟨hh, hone, hclass⟩ ↦ ⟨hsub h hh, hone, hclass⟩
    · intro h hh hne hzero
      exact ⟨((hmem h).mp hh).resolve_right (by simpa using hne), hzero, rfl⟩
    · exact fun _ _ _ _ _ _ _ ↦ rfl

/-- A new block is added at the break. -/
theorem grow (hs : Inv base s blocks lists) {size : ℕ} (hpos : 0 < size) {ok : Bool} {grown : Heap}
    (hsize : META + size < 2 ^ 63) (hgrow : s.sbrk ((META + size) % 2 ^ 64) ok = some grown)
    (fresh : Bytes) {mem : Bytes} (hmem : mem = fun a ↦ if s.top ≤ a then fresh a else grown.mem a)
    (hs' : s' = (((({ grown with mem } : Heap).setFree s.top 0).setSize s.top size).setNext s.top
      none).setPrev s.top none) :
    Inv base s' (blocks ++ [s.top]) lists ∧ Keeps ∅ s blocks s' (blocks ++ [s.top]) ∧
      s.top ∉ blocks ∧ (s'.header s.top).free = 0 ∧ (s'.header s.top).size = size := by
  obtain ⟨rfl, htop⟩ := sbrk_grow hsize hgrow
  have hnew : s'.header s.top = ⟨size, 0, none, none⟩ := by
    rw [hs', header_setPrev_self storable_none, header_setNext_self storable_none,
      header_setSize_self (by omega), header_setFree_self]
  have hbelow : ∀ a < s.top, s'.mem a = s.mem a := by
    intro a ha
    rw [hs', mem_setPrev (Or.inl ha), mem_setNext (Or.inl ha), mem_setSize (Or.inl ha),
      mem_setFree (Or.inl ha), hmem]
    exact if_neg (by omega)
  have hold : ∀ h ∈ blocks, s'.header h = s.header h := by
    intro h hh
    have := (hs.bounds hh).2
    exact header_congr fun a _ hlt ↦ hbelow a (by omega)
  have hnotMem : s.top ∉ blocks := by
    intro hh
    have := (hs.bounds hh).2
    unfold META at this
    omega
  have htop' : s'.top = s.top + META + size := by rw [hs']; rfl
  have hhead : s'.freeListHead = s.freeListHead := by rw [hs']; rfl
  have hcases : ∀ h ∈ blocks ++ [s.top], h ∈ blocks ∨ h = s.top := by simp
  refine ⟨⟨hs.base_pos, ?_, ?_, ?_, ?_, ?_, ?_⟩, ⟨?_, ?_⟩, hnotMem, by rw [hnew], by rw [hnew]⟩
  · rw [htop']
    exact htop
  · refine Tiles.snoc_iff.mpr ⟨hs.tiles.congr fun h hh ↦ by rw [span_eq, span_eq, hold h hh], ?_⟩
    rw [span_eq, hnew, htop', Nat.add_assoc]
  · intro h hh
    rcases hcases h hh with hh | rfl
    · rw [hold h hh]
      exact hs.size_pos h hh
    · rw [hnew]
      exact hpos
  · intro h hh
    rcases hcases h hh with hh | rfl
    · rw [hold h hh]
      exact hs.flag h hh
    · exact Or.inl (by rw [hnew])
  · refine (hs.linked.mono fun j h hh ↦ ?_).congr hhead fun j h hh ↦ ?_
    · exact List.mem_append_left _ (hs.linked.subset j h hh)
    · rw [hold h (hs.linked.subset j h hh)]
      exact ⟨rfl, rfl⟩
  · intro j h
    rw [hs.mem_lists]
    constructor
    · rintro ⟨hh, hrest⟩
      rw [hold h hh]
      exact ⟨List.mem_append_left _ hh, hrest⟩
    · rintro ⟨hh, hone, hclass⟩
      rcases hcases h hh with hh | rfl
      · rw [hold h hh] at hone hclass
        exact ⟨hh, hone, hclass⟩
      · rw [hnew] at hone
        exact absurd (show (0 : BitVec 32) = 1 from hone) (by decide)
  · intro h hh _ hzero
    rw [hold h hh]
    exact ⟨List.mem_append_left _ hh, hzero, rfl⟩
  · intro h hh _ _ a _ hlt
    have := (hs.bounds hh).2
    rw [span_eq] at hlt
    exact hbelow a (by omega)

end Inv

end Heap

end SystemProgramming.Malloc
