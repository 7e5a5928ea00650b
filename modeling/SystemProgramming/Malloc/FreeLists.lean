import SystemProgramming.Lib.DoublyLinkedList
import SystemProgramming.Malloc.Headers

/-!
# The free lists

`removeblock` and `addblock` on lists that are linked in both directions.  The class of a block
is computed from its size, so a block is removed from the right list only as long as its size
belongs to that list.
-/

namespace SystemProgramming.Malloc

namespace Heap

variable {s s' s'' : Heap} {blocks blocks' : List ℕ} {lists : ℕ → List ℕ} {cur h k i : ℕ}

/-- The bytes outside the headers are the same. -/
def SameOutside (blocks : List ℕ) (s s' : Heap) : Prop :=
  ∀ a, (∀ h ∈ blocks, a < h ∨ h + META ≤ a) → s'.mem a = s.mem a

theorem SameOutside.trans (h : SameOutside blocks s s') (h' : SameOutside blocks s' s'') :
    SameOutside blocks s s'' :=
  fun a ha ↦ (h' a ha).trans (h a ha)

theorem sameOutside_setSize (hh : h ∈ blocks) (n : ℕ) : SameOutside blocks s (s.setSize h n) :=
  fun _ ha ↦ mem_setSize (ha h hh)

theorem sameOutside_setFree (hh : h ∈ blocks) (f : BitVec 32) :
    SameOutside blocks s (s.setFree h f) :=
  fun _ ha ↦ mem_setFree (ha h hh)

/-- Every class has a list of its own among the blocks. -/
structure Linked (s : Heap) (blocks : List ℕ) (lists : ℕ → List ℕ) : Prop where
  linked : ∀ i, DoublyLinked (fun h ↦ (s.header h).next) (fun h ↦ (s.header h).prev) none
    (s.freeListHead i) (lists i)
  subset : ∀ i, ∀ h ∈ lists i, h ∈ blocks
  disjoint : ∀ i j h, h ∈ lists i → h ∈ lists j → i = j

theorem Linked.congr (hl : Linked s blocks lists) (hhead : s'.freeListHead = s.freeListHead)
    (hlinks : ∀ i, ∀ h ∈ lists i, (s'.header h).next = (s.header h).next ∧
      (s'.header h).prev = (s.header h).prev) : Linked s' blocks lists where
  linked i := by
    rw [hhead]
    exact (hl.linked i).congr (fun h hh ↦ (hlinks i h hh).1) fun h hh ↦ (hlinks i h hh).2
  subset := hl.subset
  disjoint := hl.disjoint

theorem Linked.mono (hl : Linked s blocks lists) (hsub : ∀ i, ∀ h ∈ lists i, h ∈ blocks') :
    Linked s blocks' lists where
  linked := hl.linked
  subset := hsub
  disjoint := hl.disjoint

theorem Linked.next_mem (hl : Linked s blocks lists) (hcur : cur ∈ lists i) {k : ℕ}
    (hk : (s.header cur).next = some k) : k ∈ lists i ∧ k ≠ cur := by
  obtain ⟨pre, post, heq⟩ := List.append_of_mem hcur
  have hd := hl.linked i
  rw [heq] at hd
  have hhead := hd.next_eq.symm.trans hk
  have hpost := List.mem_of_mem_head? hhead
  have hnodup := hd.nodup
  rw [heq]
  refine ⟨by simp [hpost], ?_⟩
  rintro rfl
  exact (List.nodup_cons.mp (List.nodup_append.mp hnodup).2.1).1 hpost

theorem Linked.prev_mem (hl : Linked s blocks lists) (hcur : cur ∈ lists i) {k : ℕ}
    (hk : (s.header cur).prev = some k) : k ∈ lists i ∧ k ≠ cur := by
  obtain ⟨pre, post, heq⟩ := List.append_of_mem hcur
  have hd := hl.linked i
  rw [heq] at hd
  have hlast : pre.getLast? = some k := by
    have hprev := hd.prev_eq.symm.trans hk
    rwa [Option.or_none] at hprev
  have hpre := List.mem_of_getLast? hlast
  have hnodup := hd.nodup
  rw [heq]
  refine ⟨by simp [hpre], ?_⟩
  rintro rfl
  exact (List.nodup_append.mp hnodup).2.2 k hpre k List.mem_cons_self rfl

/-- The neighbours of a listed block are blocks. -/
theorem Linked.neighbours (hl : Linked s blocks lists) (hcur : cur ∈ lists i) :
    (∀ k, (s.header cur).prev = some k → k ∈ blocks ∧ k ≠ cur) ∧
      ∀ k, (s.header cur).next = some k → k ∈ blocks ∧ k ≠ cur :=
  ⟨fun k hk ↦ ⟨hl.subset i k (hl.prev_mem hcur hk).1, (hl.prev_mem hcur hk).2⟩,
    fun k hk ↦ ⟨hl.subset i k (hl.next_mem hcur hk).1, (hl.next_mem hcur hk).2⟩⟩

theorem Linked.mem_update_removed (hl : Linked s blocks lists) {pre post : List ℕ}
    (hsplit : lists i = pre ++ cur :: post) {j : ℕ} :
    h ∈ Function.update lists i (pre ++ post) j ↔ h ∈ lists j ∧ h ≠ cur := by
  have hnodup := (hl.linked i).nodup
  rw [hsplit] at hnodup
  rcases eq_or_ne j i with rfl | hj
  · rw [Function.update_self, hsplit]
    exact mem_removed_iff hnodup
  · rw [Function.update_of_ne hj]
    constructor
    · intro hh
      refine ⟨hh, ?_⟩
      rintro rfl
      exact hj (hl.disjoint j i h hh (by simp [hsplit]))
    · exact fun hh ↦ hh.1

section Removeblock

@[simp] theorem removeblock_top : (s.removeblock cur).top = s.top := by
  unfold removeblock
  split <;> rfl

theorem removeblock_freeListHead : (s.removeblock cur).freeListHead i =
    if (s.header cur).prev = none ∧ i = getIndex (s.header cur).size then (s.header cur).next
    else s.freeListHead i := by
  unfold removeblock
  split <;> simp_all [setNext, setPrev, setHead, Function.update_apply]

theorem sameOutside_removeblock (hcur : cur ∈ blocks)
    (hprev : ∀ k, (s.header cur).prev = some k → k ∈ blocks)
    (hnext : ∀ k, (s.header cur).next = some k → k ∈ blocks) :
    SameOutside blocks s (s.removeblock cur) := by
  intro a ha
  unfold removeblock
  simp only
  rw [mem_setPrev (ha cur hcur), mem_setNext (ha cur hcur)]
  split
  · next p n hp hn =>
    rw [mem_setPrev (ha n (hnext n hn)), mem_setNext (ha p (hprev p hp))]
  · next p hp hn => rw [mem_setNext (ha p (hprev p hp))]
  · next n hp hn =>
    rw [mem_setPrev (ha n (hnext n hn))]
    rfl
  · rfl

/-- The neighbours of the block are linked to each other, and the block to none. -/
theorem header_removeblock (hsep : Separate blocks) (hcur : cur ∈ blocks) (hk : k ∈ blocks)
    (hprev : ∀ k, (s.header cur).prev = some k → k ∈ blocks ∧ k ≠ cur)
    (hnext : ∀ k, (s.header cur).next = some k → k ∈ blocks ∧ k ≠ cur) :
    (s.removeblock cur).header k =
      { s.header k with
        next := if k = cur then none
          else if (s.header cur).prev = some k then (s.header cur).next else (s.header k).next
        prev := if k = cur then none
          else if (s.header cur).next = some k then (s.header cur).prev else (s.header k).prev } := by
  have hp := storable_prev (s := s) (h := cur)
  have hn := storable_next (s := s) (h := cur)
  have hlast : ∀ s' : Heap, ((s'.setNext cur none).setPrev cur none).header k =
      if k = cur then { s'.header cur with next := none, prev := none } else s'.header k := by
    intro s'
    rw [header_setPrev hsep hcur hk storable_none, header_setNext hsep hcur hcur storable_none,
      header_setNext hsep hcur hk storable_none]
    split <;> simp
  simp only [removeblock, hlast]
  cases hpc : (s.header cur).prev with
  | none =>
    cases hnc : (s.header cur).next with
    | none => split <;> simp_all
    | some n =>
      obtain ⟨hnb, hne⟩ := hnext n hnc
      have hset : ∀ l ∈ blocks,
          ((s.setHead (getIndex (s.header cur).size) (some n)).setPrev n none).header l =
            if l = n then { s.header n with prev := none } else s.header l :=
        fun l hl ↦ header_setPrev hsep hnb hl storable_none
      simp only [hset cur hcur, hset k hk, if_neg hne.symm]
      split_ifs <;> simp_all
  | some p =>
    obtain ⟨hpb, hpne⟩ := hprev p hpc
    cases hnc : (s.header cur).next with
    | none =>
      simp only [header_setNext hsep hpb hcur storable_none,
        header_setNext hsep hpb hk storable_none, if_neg hpne.symm]
      split_ifs <;> simp_all
    | some n =>
      obtain ⟨hnb, hne⟩ := hnext n hnc
      have hset : ∀ l ∈ blocks, ((s.setNext p (some n)).setPrev n (some p)).header l =
          { s.header l with
            next := if l = p then some n else (s.header l).next
            prev := if l = n then some p else (s.header l).prev } := by
        intro l hl
        rw [header_setPrev hsep hnb hl (hpc ▸ hp), header_setNext hsep hpb hnb (hnc ▸ hn),
          header_setNext hsep hpb hl (hnc ▸ hn)]
        split_ifs <;> simp_all
      simp only [hset cur hcur, hset k hk, if_neg hpne.symm, if_neg hne.symm]
      split_ifs <;> simp_all

/-- The links of a block that is not removed. -/
theorem Linked.links_removeblock (hl : Linked s blocks lists) (hsep : Separate blocks)
    (hcur : cur ∈ lists i) (hk : k ∈ blocks) (hne : k ≠ cur) :
    ((s.removeblock cur).header k).next =
        (if (s.header cur).prev = some k then (s.header cur).next else (s.header k).next) ∧
      ((s.removeblock cur).header k).prev =
        if (s.header cur).next = some k then (s.header cur).prev else (s.header k).prev := by
  obtain ⟨hprev, hnext⟩ := hl.neighbours hcur
  rw [header_removeblock hsep (hl.subset i cur hcur) hk hprev hnext]
  simp [hne]

/-- A block leaves the list of its class. -/
theorem Linked.removeblock (hl : Linked s blocks lists) (hsep : Separate blocks)
    (hclass : getIndex (s.header cur).size = i) {pre post : List ℕ}
    (hsplit : lists i = pre ++ cur :: post) :
    Linked (s.removeblock cur) blocks (Function.update lists i (pre ++ post)) := by
  have hcur : cur ∈ lists i := by
    rw [hsplit]
    simp
  have hstays : ∀ h ∈ pre ++ post, h ∈ lists i ∧ h ≠ cur := by
    intro h hh
    rw [← Function.update_self (f := lists) i (pre ++ post)] at hh
    exact (hl.mem_update_removed hsplit).mp hh
  constructor
  · intro j
    rcases eq_or_ne j i with rfl | hj
    · rw [Function.update_self, removeblock_freeListHead]
      have hd := hl.linked j
      rw [hsplit] at hd
      have hlinks : ∀ b ∈ pre ++ post, _ := fun b hb ↦
        hl.links_removeblock hsep hcur (hl.subset j b (hstays b hb).1) (hstays b hb).2
      have hremoved := hd.remove (by simp) (fun b hb ↦ (hlinks b hb).1) fun b hb ↦ (hlinks b hb).2
      by_cases hfirst : (s.header cur).prev = none
      · rw [if_pos hfirst] at hremoved
        rwa [if_pos ⟨hfirst, hclass.symm⟩]
      · rw [if_neg hfirst] at hremoved
        rwa [if_neg (fun hc ↦ hfirst hc.1)]
    · rw [Function.update_of_ne hj, removeblock_freeListHead, if_neg (by simp [hclass, hj])]
      have hother : ∀ h ∈ lists j, h ≠ cur ∧ (s.header cur).prev ≠ some h ∧
          (s.header cur).next ≠ some h := by
        intro h hh
        refine ⟨?_, fun heq ↦ ?_, fun heq ↦ ?_⟩
        · rintro rfl
          exact hj (hl.disjoint j i h hh hcur)
        · exact hj (hl.disjoint j i h hh (hl.prev_mem hcur heq).1)
        · exact hj (hl.disjoint j i h hh (hl.next_mem hcur heq).1)
      apply (hl.linked j).congr
      · intro h hh
        obtain ⟨hh₁, hh₂, -⟩ := hother h hh
        rw [(hl.links_removeblock hsep hcur (hl.subset j h hh) hh₁).1, if_neg hh₂]
      · intro h hh
        obtain ⟨hh₁, -, hh₂⟩ := hother h hh
        rw [(hl.links_removeblock hsep hcur (hl.subset j h hh) hh₁).2, if_neg hh₂]
  · intro j h hh
    exact hl.subset j h ((hl.mem_update_removed hsplit).mp hh).1
  · intro j k h hh hh'
    exact hl.disjoint j k h ((hl.mem_update_removed hsplit).mp hh).1
      ((hl.mem_update_removed hsplit).mp hh').1

end Removeblock

section Addblock

@[simp] theorem addblock_top : (s.addblock cur).top = s.top := by
  simp only [addblock]
  split <;> rfl

theorem addblock_freeListHead : (s.addblock cur).freeListHead =
    Function.update s.freeListHead (getIndex (s.header cur).size) (some cur) := by
  simp only [addblock]
  split <;> rfl

theorem sameOutside_addblock (hcur : cur ∈ blocks)
    (hhead : ∀ i k, s.freeListHead i = some k → k ∈ blocks) :
    SameOutside blocks s (s.addblock cur) := by
  intro a ha
  unfold addblock
  simp only
  split
  · rw [mem_setNext (ha cur hcur), mem_setPrev (ha cur hcur)]
    rfl
  · next head hh =>
    change ((((s.setPrev head (some cur)).setNext cur (some head)).setPrev cur none)).mem a = _
    rw [mem_setPrev (ha cur hcur), mem_setNext (ha cur hcur),
      mem_setPrev (ha head (hhead _ head hh))]

/-- The block is put in front of the head of its list. -/
theorem header_addblock (hsep : Separate blocks) (hcur : cur ∈ blocks) (hk : k ∈ blocks)
    (hstore : Storable (some cur))
    (hhead : ∀ i k, s.freeListHead i = some k → k ∈ blocks ∧ k ≠ cur ∧ Storable (some k)) :
    (s.addblock cur).header k =
      { s.header k with
        next := if k = cur then s.freeListHead (getIndex (s.header cur).size)
          else (s.header k).next
        prev := if k = cur then none
          else if s.freeListHead (getIndex (s.header cur).size) = some k then some cur
          else (s.header k).prev } := by
  unfold addblock
  simp only
  cases hh : s.freeListHead (getIndex (s.header cur).size) with
  | none =>
    simp only
    rw [header_setNext hsep hcur hk storable_none, header_setPrev hsep hcur hcur storable_none,
      header_setPrev hsep hcur hk storable_none]
    split_ifs <;> simp_all
  | some head =>
    obtain ⟨hhb, hne, hhs⟩ := hhead _ head hh
    simp only [header_setHead]
    rw [header_setPrev hsep hcur hk storable_none, header_setNext hsep hcur hcur hhs,
      header_setNext hsep hcur hk hhs, header_setPrev hsep hhb hcur hstore,
      header_setPrev hsep hhb hk hstore]
    split_ifs <;> simp_all

/-- A block that is on no list enters the list of its class. -/
theorem Linked.addblock (hl : Linked s blocks lists) (hsep : Separate blocks)
    (hcur : cur ∈ blocks) (hstore : ∀ h ∈ blocks, Storable (some h)) (hout : ∀ i, cur ∉ lists i) :
    Linked (s.addblock cur) blocks (Function.update lists (getIndex (s.header cur).size)
      (cur :: lists (getIndex (s.header cur).size))) := by
  have hmem : ∀ i k, s.freeListHead i = some k → k ∈ lists i := by
    intro i k hk
    rw [(hl.linked i).head?_eq] at hk
    exact List.mem_of_mem_head? hk
  have hhead : ∀ i k, s.freeListHead i = some k → k ∈ blocks ∧ k ≠ cur ∧ Storable (some k) := by
    intro i k hk
    have hkb := hl.subset i k (hmem i k hk)
    refine ⟨hkb, ?_, hstore k hkb⟩
    rintro rfl
    exact hout i (hmem i k hk)
  set i := getIndex (s.header cur).size with hi
  have hheader : ∀ k ∈ blocks, _ := fun k hk ↦
    header_addblock hsep hcur hk (hstore cur hcur) hhead
  have hne : ∀ j, ∀ h ∈ lists j, h ≠ cur := by
    rintro j h hh rfl
    exact hout j hh
  constructor
  · intro j
    rw [addblock_freeListHead]
    rcases eq_or_ne j i with rfl | hj
    · rw [Function.update_self, Function.update_self]
      apply (hl.linked i).push
      · simp [hheader cur hcur, hi]
      · simp [hheader cur hcur]
      · intro h hh
        simp [hheader h (hl.subset i h hh), hne i h hh]
      · intro h hh
        simp [hheader h (hl.subset i h hh), hne i h hh, hi]
    · rw [Function.update_of_ne hj, Function.update_of_ne hj]
      apply (hl.linked j).congr
      · intro h hh
        simp [hheader h (hl.subset j h hh), hne j h hh]
      · intro h hh
        simp only [hheader h (hl.subset j h hh), hne j h hh, if_false]
        rw [if_neg]
        intro heq
        exact hj (hl.disjoint j i h hh (hmem i h heq))
  · intro j h hh
    rcases eq_or_ne j i with rfl | hj
    · rw [Function.update_self] at hh
      rcases List.mem_cons.mp hh with rfl | hh
      · exact hcur
      · exact hl.subset i h hh
    · rw [Function.update_of_ne hj] at hh
      exact hl.subset j h hh
  · intro j k h hh hh'
    have hold : ∀ j, h ∈ Function.update lists i (cur :: lists i) j →
        h = cur ∧ j = i ∨ h ≠ cur ∧ h ∈ lists j := by
      intro j hh
      rcases eq_or_ne j i with rfl | hj
      · rw [Function.update_self] at hh
        rcases List.mem_cons.mp hh with rfl | hh
        · exact Or.inl ⟨rfl, rfl⟩
        · exact Or.inr ⟨hne i h hh, hh⟩
      · rw [Function.update_of_ne hj] at hh
        exact Or.inr ⟨hne j h hh, hh⟩
    rcases hold j hh with ⟨hc, rfl⟩ | ⟨hc, hh⟩ <;> rcases hold k hh' with ⟨hc', rfl⟩ | ⟨hc', hh'⟩
    · rfl
    · exact absurd hc hc'
    · exact absurd hc' hc
    · exact hl.disjoint j k h hh hh'

end Addblock

end Heap

end SystemProgramming.Malloc
