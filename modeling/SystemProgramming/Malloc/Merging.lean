import SystemProgramming.Malloc.Blocks

/-!
# Merging

`combine_next` lets a block absorb the free block behind it.  A free block keeps its place in
its list, so the list is right afterwards only where the class of the block has not changed.
The sweep of `block_coalescing` does this to a whole list.
-/

namespace SystemProgramming.Malloc

namespace Heap

variable {s s' : Heap} {base cur h k i n : ℕ} {blocks blocks' : List ℕ} {lists : ℕ → List ℕ}
  {E F : Set ℕ}

theorem Keeps.of_unused (hk : Keeps E s blocks s' blocks')
    (hE : ∀ h ∈ E, h ∈ blocks → (s.header h).free = 0 → h ∈ F) : Keeps F s blocks s' blocks' :=
  ⟨fun h hh hF hzero ↦ hk.used h hh (fun hE' ↦ hF (hE h hE' hh hzero)) hzero,
    fun h hh hF hzero ↦ hk.payload h hh (fun hE' ↦ hF (hE h hE' hh hzero)) hzero⟩

/-- Free blocks do not belong to the client. -/
theorem Keeps.of_free (hk : Keeps E s blocks s' blocks')
    (hE : ∀ h ∈ E, h ∈ F ∨ (s.header h).free = 1) : Keeps F s blocks s' blocks' := by
  refine hk.of_unused fun h hh _ hzero ↦ (hE h hh).resolve_right ?_
  rw [hzero]
  decide

namespace Inv

/-- A block absorbs the one behind it, which is in no list. -/
theorem absorb (hs : Inv base s blocks lists) (hcur : cur ∈ blocks) (hk : k = cur + s.span cur)
    (hlt : k < s.top) (hfree : (s.header k).free = 0) (hn : n = (s.header cur).size + s.span k)
    (hclass : (s.header cur).free = 1 → getIndex n = getIndex (s.header cur).size) :
    ∃ blocks', Inv base (s.setSize cur n) blocks' lists ∧
      Keeps {cur, k} s blocks (s.setSize cur n) blocks' ∧ cur ∈ blocks' := by
  obtain ⟨xs, ys, hsplit⟩ := hs.tiles.split_next hcur (hk ▸ hlt)
  rw [← hk] at hsplit
  have hkb : k ∈ blocks := by simp [hsplit]
  have hne : cur ≠ k := by
    have := span_pos (s := s) (h := cur)
    omega
  have hnlt : n < 2 ^ 64 := by
    have := (hs.bounds hkb).2
    have := hs.top_lt
    rw [span_eq] at hn hk
    omega
  have hheader : ∀ h ∈ blocks, (s.setSize cur n).header h =
      if h = cur then { s.header cur with size := n } else s.header h :=
    fun h hh ↦ header_setSize hs.separate hcur hh hnlt
  have hnodup := hs.nodup
  rw [hsplit] at hnodup
  have hmem : ∀ h, h ∈ xs ++ cur :: ys ↔ h ∈ blocks ∧ h ≠ k := by
    intro h
    rw [List.append_cons] at hnodup
    rw [hsplit, List.append_cons, mem_removed_iff hnodup, ← List.append_cons]
  have hother : ∀ h ∈ xs ++ k :: ys, h ∈ blocks ∧ h ≠ cur := by
    intro h hh
    rw [hsplit]
    exact (mem_removed_iff hnodup).mp hh
  have hrest : ∀ h ∈ blocks, ((s.setSize cur n).header h).free = (s.header h).free ∧
      ((s.header h).free = 1 →
        getIndex ((s.setSize cur n).header h).size = getIndex (s.header h).size) := by
    intro h hh
    rw [hheader h hh]
    split
    · next heq =>
      subst heq
      exact ⟨rfl, hclass⟩
    · exact ⟨rfl, fun _ ↦ rfl⟩
  refine ⟨xs ++ cur :: ys, ⟨hs.base_pos, hs.top_lt, ?_, ?_, ?_, ?_, ?_⟩, ?_, by simp⟩
  · have htiles := hs.tiles
    rw [hsplit] at htiles
    have hspan : ∀ h ∈ xs ++ k :: ys, (s.setSize cur n).span h = s.span h := by
      intro h hh
      obtain ⟨hb, hne⟩ := hother h hh
      rw [span_eq, hheader h hb, if_neg hne, span_eq]
    refine htiles.merge ?_ (fun h hh ↦ hspan h (List.mem_append_left _ hh))
      fun h hh ↦ hspan h (List.mem_append_right _ (List.mem_cons_of_mem k hh))
    rw [span_eq, hheader cur hcur, if_pos rfl]
    simp only [hn, span_eq, Nat.add_assoc]
  · intro h hh
    rw [hheader h ((hmem h).mp hh).1]
    split
    · rw [hn]
      have := span_pos (s := s) (h := k)
      exact Nat.add_pos_right _ this
    · exact hs.size_pos h ((hmem h).mp hh).1
  · intro h hh
    rw [(hrest h ((hmem h).mp hh).1).1]
    exact hs.flag h ((hmem h).mp hh).1
  · refine (hs.linked.mono fun j h hh ↦ ?_).congr rfl fun j h hh ↦ ?_
    · refine (hmem h).mpr ⟨hs.linked.subset j h hh, ?_⟩
      rintro rfl
      exact hs.notMem_lists hfree hh
    · rw [hheader h (hs.linked.subset j h hh)]
      split
      · next heq => exact ⟨by rw [heq], by rw [heq]⟩
      · exact ⟨rfl, rfl⟩
  · intro j h
    rw [hs.mem_lists, hmem]
    constructor
    · rintro ⟨hh, hone, hj⟩
      rw [(hrest h hh).1, (hrest h hh).2 hone]
      refine ⟨⟨hh, ?_⟩, hone, hj⟩
      rintro rfl
      rw [hfree] at hone
      exact absurd hone (by decide)
    · rintro ⟨⟨hh, -⟩, hone, hj⟩
      rw [(hrest h hh).1] at hone
      rw [(hrest h hh).2 hone] at hj
      exact ⟨hh, hone, hj⟩
  · apply hs.keeps_of_outside (sameOutside_setSize hcur n)
    intro h hh hE hzero
    rw [Set.mem_insert_iff, Set.mem_singleton_iff, not_or] at hE
    refine ⟨(hmem h).mpr ⟨hh, hE.2⟩, by rw [(hrest h hh).1, hzero], ?_⟩
    rw [hheader h hh, if_neg hE.1]

theorem combineNext_eq {t : Heap} (hk : k = cur + s.span cur)
    (ht : t = (s.removeblock k).setFree k 0) (hlt : k < s.top) (hone : (s.header k).free = 1) :
    s.combineNext cur = t.setSize cur ((t.header cur).size + t.span k) := by
  rw [span_eq, ← Nat.add_assoc] at hk
  subst hk ht
  exact if_pos ⟨hlt, hone⟩

theorem combineNext_of_not (hk : k = cur + s.span cur)
    (h : ¬ (k < s.top ∧ (s.header k).free = 1)) : s.combineNext cur = s := by
  rw [span_eq, ← Nat.add_assoc] at hk
  subst hk
  exact if_neg h

/-- `combine_next` at a block of the heap.  The block keeps its place in its list. -/
theorem combineNext (hs : Inv base s blocks lists) (hcur : cur ∈ blocks) :
    ((s.combineNext cur).header cur).free = (s.header cur).free ∧
      (s.header cur).size ≤ ((s.combineNext cur).header cur).size ∧
      (((s.header cur).free = 1 →
          getIndex ((s.combineNext cur).header cur).size = getIndex (s.header cur).size) →
        ∃ blocks' lists', Inv base (s.combineNext cur) blocks' lists' ∧
          Keeps {cur} s blocks (s.combineNext cur) blocks' ∧ cur ∈ blocks' ∧
          (∀ a, cur + META ≤ a → a < cur + s.span cur → (s.combineNext cur).mem a = s.mem a) ∧
          ∀ i pre post, lists i = pre ++ cur :: post →
            ∃ pre' post', lists' i = pre' ++ cur :: post' ∧ post'.length ≤ post.length) := by
  obtain ⟨k, hk⟩ : ∃ k, k = cur + s.span cur := ⟨_, rfl⟩
  by_cases hcond : k < s.top ∧ (s.header k).free = 1
  · obtain ⟨hlt, hone⟩ := hcond
    have hkb : k ∈ blocks := by
      obtain ⟨xs, ys, hsplit⟩ := hs.tiles.split_next hcur (hk ▸ hlt)
      simp [hsplit, hk]
    have hne : cur ≠ k := by
      have := span_pos (s := s) (h := cur)
      omega
    have hmem := (hs.mem_lists _ _).mpr ⟨hkb, hone, rfl⟩
    obtain ⟨pre, post, hsplit⟩ := List.append_of_mem hmem
    obtain ⟨t, ht⟩ : ∃ t, t = (s.removeblock k).setFree k 0 := ⟨_, rfl⟩
    have htake := hs.take hsplit
    have hkeeps := hs.keeps_take hmem
    have hheader : ∀ h ∈ blocks, _ := fun h hh ↦ hs.header_take hmem hh
    have htop : t.top = s.top := by rw [ht, take_top]
    rw [← ht] at htake hkeeps hheader
    have hsize := (hheader cur hcur).1
    have hflag := (hheader cur hcur).2
    have hzero := (hheader k hkb).2
    rw [if_neg hne] at hflag
    rw [if_pos rfl] at hzero
    obtain ⟨n, hn⟩ : ∃ n, n = (t.header cur).size + t.span k := ⟨_, rfl⟩
    have hbound : n < 2 ^ 64 := by
      have := (htake.bounds hkb).2
      have := htake.top_lt
      rw [span_eq] at hk hn
      omega
    have heq : s.combineNext cur = t.setSize cur n := by rw [hn, combineNext_eq hk ht hlt hone]
    have hcur_header : (s.combineNext cur).header cur = { t.header cur with size := n } := by
      rw [heq, header_setSize_self hbound]
    rw [hcur_header]
    refine ⟨hflag, ?_, fun hclass ↦ ?_⟩
    · rw [← hsize, hn]
      exact Nat.le_add_right _ _
    · rw [heq]
      obtain ⟨blocks', hinv, hkeeps', hcur'⟩ := htake.absorb hcur
        (by rw [span_eq, hsize, hk, span_eq]) (htop ▸ hlt) hzero hn
        (by rw [hflag, hsize]; exact hclass)
      refine ⟨blocks', _, hinv, ?_, hcur', ?_, ?_⟩
      · refine ((hkeeps.mono (Set.empty_subset {cur, k})).trans hkeeps').of_free ?_
        rintro _ (rfl | rfl)
        · exact Or.inl rfl
        · exact Or.inr hone
      · intro a ha hlt'
        have hout := (ht ▸ hs.sameOutside_take hmem).trans (sameOutside_setSize hcur n)
        exact hout a (hs.outside hcur ha hlt')
      · intro i pre' post' hsplit'
        rcases eq_or_ne i (getIndex (s.header k).size) with rfl | hi
        · rw [Function.update_self]
          exact exists_split_removed hne (hsplit.symm.trans hsplit')
        · rw [Function.update_of_ne hi]
          exact ⟨pre', post', hsplit', le_rfl⟩
  · rw [combineNext_of_not hk hcond]
    exact ⟨rfl, le_rfl, fun _ ↦ ⟨blocks, lists, hs, .refl _ _ _, hcur, fun _ _ _ ↦ rfl,
      fun _ pre post h ↦ ⟨pre, post, h, le_rfl⟩⟩⟩

end Inv

/-- The sweep of a list leaves the blocks that it merges in the class of the list. -/
def StaysInClass (index : ℕ) : ℕ → Heap → Option ℕ → Prop
  | _, _, none => True
  | 0, _, some _ => True
  | n + 1, s, some cur =>
    let s := if (s.header cur).free = 1 then s.combineNext cur else s
    getIndex (s.header cur).size = index ∧
      (s.top ≤ cur + META + (s.header cur).size ∨ StaysInClass index n s (s.header cur).next)

instance StaysInClass.decidable (index : ℕ) :
    ∀ n s cur, Decidable (StaysInClass index n s cur)
  | 0, _, none => .isTrue trivial
  | _ + 1, _, none => .isTrue trivial
  | 0, _, some _ => .isTrue trivial
  | n + 1, _, some _ =>
    have := StaysInClass.decidable index n
    inferInstanceAs (Decidable (_ ∧ (_ ∨ _)))

namespace Inv

/-- A block of the client stays out of the reach of the sweep.  The fuel is an upper bound of
what is left of the list. -/
theorem coalesce (hs : Inv base s blocks lists) {index : ℕ} {pre l : List ℕ} (ok : Bool)
    (hl : lists index = pre ++ l) (hn : l.length ≤ n)
    (hstay : index = 16 ∨ StaysInClass index n s l.head?) :
    ∃ s' blocks' lists', Heap.coalesce ok n s l.head? = some s' ∧ Inv base s' blocks' lists' ∧
      Keeps ∅ s blocks s' blocks' := by
  induction n generalizing s blocks lists pre l with
  | zero =>
    obtain rfl := List.length_eq_zero_iff.mp (Nat.le_zero.mp hn)
    exact ⟨s, blocks, lists, by simp [Heap.coalesce], hs, .refl _ _ _⟩
  | succ n ih =>
    cases l with
    | nil => exact ⟨s, blocks, lists, by simp [Heap.coalesce], hs, .refl _ _ _⟩
    | cons cur post =>
      obtain ⟨hcur, hone, hclass⟩ := (hs.mem_lists index cur).mp (by simp [hl])
      obtain ⟨hone', hle, hmerge⟩ := hs.combineNext hcur
      rw [List.head?_cons, Heap.coalesce, if_pos hone]
      rw [List.head?_cons, StaysInClass, if_pos hone] at hstay
      have hindex : getIndex ((s.combineNext cur).header cur).size = index := by
        rcases hstay with rfl | hstay
        · exact getIndex_eq_last.mpr ((getIndex_eq_last.mp hclass).trans_le hle)
        · exact hstay.1
      obtain ⟨blocks₁, lists₁, hs₁, hk₁, hcur₁, -, hlists⟩ := hmerge fun _ ↦ hindex.trans hclass.symm
      obtain ⟨pre₁, post₁, hl₁, hpost⟩ := hlists index pre post hl
      have hk₁ : Keeps ∅ s blocks (s.combineNext cur) blocks₁ := by
        refine hk₁.of_free ?_
        rintro _ rfl
        exact Or.inr hone
      generalize s.combineNext cur = t at *
      split
      · next hend =>
        have hmem : cur ∈ lists₁ index := by simp [hl₁]
        have hheader := hs₁.header_take hmem hcur₁
        rw [if_pos rfl] at hheader
        obtain ⟨blocks₂, hs₂, hk₂⟩ := (hs₁.take hl₁).release hcur₁ hheader.2
          (by rw [take_top, hheader.1]; exact hend) ok
        refine ⟨_, blocks₂, _, rfl, hs₂, hk₁.trans ?_⟩
        refine (((hs₁.keeps_take hmem).mono (Set.empty_subset {cur})).trans hk₂).of_free ?_
        rintro _ rfl
        exact Or.inr (hone'.trans hone)
      · next hend =>
        have hnext : (t.header cur).next = post₁.head? := by
          have hd := hs₁.linked.linked index
          rw [hl₁] at hd
          exact hd.next_eq
        rw [hnext] at hstay ⊢
        rw [List.length_cons] at hn
        have hl₁' : lists₁ index = (pre₁ ++ [cur]) ++ post₁ := by simp [hl₁]
        obtain ⟨s', blocks', lists', heq, hs', hk'⟩ := ih hs₁ hl₁' (by omega)
          (hstay.imp_right fun h ↦ h.2.resolve_left hend)
        exact ⟨s', blocks', lists', heq, hs', hk₁.trans hk'⟩

end Inv

end Heap

end SystemProgramming.Malloc
