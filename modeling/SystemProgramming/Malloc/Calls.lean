import SystemProgramming.Malloc.Searching

/-!
# The calls of the client

A call leaves the blocks in order.  A pointer that it returns has a block of its own, and the
blocks of the other pointers stay as they are, with their bytes.
-/

namespace SystemProgramming.Malloc

namespace Heap

variable {s s' : Heap} {base p n cur size : ℕ} {blocks blocks' : List ℕ} {lists : ℕ → List ℕ}
  {E : Set ℕ}

/-- The pointer has a block of its own with at least `n` bytes. -/
def Owned (s : Heap) (blocks : List ℕ) (p n : ℕ) : Prop :=
  ∃ h ∈ blocks, p = h + META ∧ (s.header h).free = 0 ∧ n ≤ (s.header h).size

/-- The increment of a request is not taken for a negative number, and the sweep before it
merges no block out of its class. -/
def Fits (s : Heap) (size : ℕ) (answers : Answers) : Prop :=
  (answers.grow = true → META + size < 2 ^ 63) ∧ s.SweepFits size

instance (s : Heap) (size : ℕ) (answers : Answers) : Decidable (s.Fits size answers) :=
  inferInstanceAs (Decidable (_ ∧ _))

theorem Owned.mono {m : ℕ} (hp : Owned s blocks p n) (hm : m ≤ n) : Owned s blocks p m := by
  obtain ⟨h, hh, heq, hfree, hn⟩ := hp
  exact ⟨h, hh, heq, hfree, hm.trans hn⟩

/-- Different pointers have different headers. -/
theorem Owned.header_ne {q m : ℕ} (hp : Owned s blocks p n) (hq : Owned s blocks q m)
    (hne : p ≠ q) : p - META ≠ q - META := by
  obtain ⟨h, -, rfl, -⟩ := hp
  obtain ⟨k, -, rfl, -⟩ := hq
  rw [Nat.add_sub_cancel, Nat.add_sub_cancel]
  rintro rfl
  exact hne rfl

/-- What a pointer keeps. -/
theorem Keeps.owned (hk : Keeps E s blocks s' blocks') (hp : Owned s blocks p n)
    (hE : p - META ∉ E) : Owned s' blocks' p n ∧ ∀ i < n, s'.mem (p + i) = s.mem (p + i) := by
  obtain ⟨h, hh, rfl, hfree, hn⟩ := hp
  rw [Nat.add_sub_cancel] at hE
  obtain ⟨hh', hfree', hsize⟩ := hk.used h hh hE hfree
  refine ⟨⟨h, hh', rfl, hfree', hsize ▸ hn⟩, fun i hi ↦ hk.payload h hh hE hfree _ (by omega) ?_⟩
  rw [span_eq]
  omega

/-- What happens to a block that nobody had does not matter. -/
theorem Keeps.trans_fresh {blocks'' : List ℕ} {s'' : Heap} (hk : Keeps ∅ s blocks s' blocks')
    (hk' : Keeps {p - META} s' blocks' s'' blocks'') (hfresh : ¬ Owned s blocks p 0)
    (hp : Owned s' blocks' p n) : Keeps ∅ s blocks s'' blocks'' := by
  obtain ⟨h, _, rfl, _⟩ := hp
  rw [Nat.add_sub_cancel] at hk'
  apply ((hk.mono (Set.empty_subset {h})).trans hk').of_unused
  rintro h rfl hh hzero
  exact absurd ⟨h, hh, rfl, hzero, Nat.zero_le _⟩ hfresh

/-- A block that is not free is not split. -/
theorem blockSplitting_used (hfree : (s.header cur).free = 0) : s.blockSplitting cur size = s :=
  if_pos hfree

namespace Inv

/-- The payload of a pointer may change. -/
theorem of_payload (hs : Inv base s blocks lists) (hp : Owned s blocks p n)
    (hmem : ∀ a, a < p ∨ p + n ≤ a → s'.mem a = s.mem a)
    (hhead : s'.freeListHead = s.freeListHead) (htop : s'.top = s.top) :
    Inv base s' blocks lists ∧ Keeps {p - META} s blocks s' blocks ∧ Owned s' blocks p n := by
  obtain ⟨h, hh, rfl, hfree, hn⟩ := hp
  have hheader : ∀ k ∈ blocks, s'.header k = s.header k := by
    intro k hk
    apply header_congr
    intro a ha hlt
    apply hmem
    by_contra hnot
    have hout := hs.outside hh (by omega : h + META ≤ a) (by rw [span_eq]; omega) k hk
    omega
  refine ⟨hs.of_header_eq hheader hhead htop, ⟨?_, ?_⟩, ⟨h, hh, rfl, ?_⟩⟩
  · intro k hk _ hzero
    rw [hheader k hk]
    exact ⟨hk, hzero, rfl⟩
  · intro k hk hne _ a ha hlt
    apply hmem
    rw [Nat.add_sub_cancel, Set.mem_singleton_iff] at hne
    have hapart := hs.tiles.separate hk hh hne
    rw [span_eq] at hlt
    rw [span_eq, span_eq] at hapart
    omega
  · rw [hheader h hh]
    exact ⟨hfree, hn⟩

/-- `malloc` gives a block that nobody had. -/
theorem malloc (hs : Inv base s blocks lists) {answers : Answers} (hfits : s.Fits size answers) :
    ∃ s' r blocks' lists', s.malloc size answers = some (s', r) ∧ Inv base s' blocks' lists' ∧
      Keeps ∅ s blocks s' blocks' ∧
      ∀ p, r = some p → Owned s' blocks' p size ∧ ¬ Owned s blocks p 0 := by
  unfold Heap.malloc
  split
  · exact ⟨s, none, blocks, lists, rfl, hs, .refl _ _ _, fun _ h ↦ (Option.some_ne_none _ h.symm).elim⟩
  next hpos =>
  obtain ⟨s₁, blocks₁, lists₁, hsweep, hs₁, hk₁⟩ := hs.sweep answers.release hfits.2
  obtain ⟨r, hfind, hfirst, hbest⟩ := hs₁.findFit size
  -- a block that is not in use after the sweep was in nobody's hands before it
  have hfresh : ∀ h, (h ∈ blocks₁ → (s₁.header h).free ≠ 0) → ¬ Owned s blocks (h + META) 0 := by
    rintro h hused ⟨k, hk, heq, hzero, -⟩
    obtain rfl := Nat.add_right_cancel heq
    obtain ⟨hk', hzero', -⟩ := hk₁.used h hk (Set.notMem_empty h) hzero
    exact hused hk' hzero'
  simp only [hsweep, Option.bind_eq_bind, Option.bind_some, hfind]
  cases r with
  | some new =>
    have hnew : new ∈ lists₁ (getIndex size) ∧ size ≤ (s₁.header new).size := by
      rcases Nat.lt_or_ge (getIndex size) SEARCH with hlt | hge
      · have heq := (hfirst hlt).symm
        have hle := List.find?_some heq
        exact ⟨List.mem_of_find?_eq_some heq, by simpa using hle⟩
      · exact (hbest hge).fits new rfl
    obtain ⟨hmem, hsize⟩ := hnew
    obtain ⟨pre, post, hsplit⟩ := List.append_of_mem hmem
    obtain ⟨hb, hone, -⟩ := (hs₁.mem_lists _ _).mp hmem
    obtain ⟨hsame, hzero⟩ := hs₁.header_take hmem hb
    rw [if_pos rfl] at hzero
    simp only
    rw [blockSplitting_used hzero]
    refine ⟨_, _, blocks₁, _, rfl, hs₁.take hsplit, hk₁.trans (hs₁.keeps_take hmem), ?_⟩
    rintro _ ⟨⟩
    refine ⟨⟨new, hb, rfl, hzero, hsame ▸ hsize⟩, hfresh new fun _ ↦ ?_⟩
    rw [hone]
    decide
  | none =>
    simp only
    split
    · exact ⟨s₁, none, blocks₁, lists₁, rfl, hs₁, hk₁, fun _ h ↦ (Option.some_ne_none _ h.symm).elim⟩
    · next grown hgrow =>
      have hlt := hfits.1 (sbrk_eq_some hgrow).1
      obtain ⟨hs₂, hk₂, hnotMem, hzero, hsize⟩ :=
        hs₁.grow (Nat.pos_of_ne_zero hpos) hlt hgrow answers.fresh rfl rfl
      refine ⟨_, _, _, _, rfl, hs₂, hk₁.trans hk₂, ?_⟩
      rintro _ ⟨⟩
      exact ⟨⟨s₁.top, by simp, rfl, hzero, hsize.ge⟩, hfresh _ fun h ↦ absurd h hnotMem⟩

/-- `calloc` clears the block that it gets. -/
theorem calloc (hs : Inv base s blocks lists) {answers : Answers} {num : ℕ}
    (hwrap : num * size < 2 ^ 64) (hfits : s.Fits (num * size) answers) :
    ∃ s' r blocks' lists', s.calloc num size answers = some (s', r) ∧ Inv base s' blocks' lists' ∧
      Keeps ∅ s blocks s' blocks' ∧
      ∀ p, r = some p → Owned s' blocks' p (num * size) ∧ ¬ Owned s blocks p 0 ∧
        ∀ i < num * size, s'.mem (p + i) = 0 := by
  obtain ⟨s₁, r, blocks₁, lists₁, heq, hs₁, hk₁, hr⟩ := hs.malloc hfits
  rw [Heap.calloc, Nat.mod_eq_of_lt hwrap, heq]
  simp only [Option.bind_eq_bind, Option.bind_some]
  cases r with
  | none => exact ⟨s₁, none, blocks₁, lists₁, rfl, hs₁, hk₁, fun _ h ↦
      (Option.some_ne_none _ h.symm).elim⟩
  | some p =>
    obtain ⟨hown, hfresh⟩ := hr p rfl
    have hmem : ∀ a, a < p ∨ p + num * size ≤ a → (s₁.memset p 0 (num * size)).mem a = s₁.mem a :=
      fun a ha ↦ if_neg (by omega)
    obtain ⟨hs₂, hk₂, hown₂⟩ := hs₁.of_payload hown hmem rfl rfl
    refine ⟨_, _, blocks₁, lists₁, rfl, hs₂, hk₁.trans_fresh hk₂ hfresh hown, ?_⟩
    rintro _ ⟨⟩
    exact ⟨hown₂, hfresh, fun i hi ↦ if_pos (by omega)⟩

/-- A block of the client is given back. -/
theorem free (hs : Inv base s blocks lists) (hp : Owned s blocks p n) (answers : Answers) :
    ∃ blocks' lists', Inv base (s.free (some p) answers) blocks' lists' ∧
      Keeps {p - META} s blocks (s.free (some p) answers) blocks' := by
  obtain ⟨cur, hcur, rfl, hzero, -⟩ := hp
  have hlt : ¬ s.top ≤ cur + META := by
    have := hs.bounds hcur
    have := hs.size_pos cur hcur
    omega
  have hone : ¬ (s.header cur).free = 1 := by
    rw [hzero]
    decide
  obtain ⟨hsame, -, hmerge⟩ := hs.combineNext hcur
  obtain ⟨blocks₁, lists₁, hs₁, hk₁, hcur₁, -, -⟩ := hmerge fun h ↦ absurd h hone
  have hzero₁ := hsame.trans hzero
  unfold Heap.free
  simp only
  rw [if_neg hlt, Nat.add_sub_cancel, if_neg hone]
  split
  · next hend =>
    obtain ⟨blocks₂, hs₂, hk₂⟩ := hs₁.release hcur₁ hzero₁ hend.2 answers.giveBack
    exact ⟨blocks₂, lists₁, hs₂, hk₁.trans hk₂⟩
  · exact ⟨blocks₁, _, hs₁.put hcur₁ hzero₁, hk₁.trans (hs₁.keeps_put hcur₁ hzero₁)⟩

/-- A block of the client that is marked as such once more. -/
theorem setFree_used (hs : Inv base s blocks lists) (hcur : cur ∈ blocks)
    (hzero : (s.header cur).free = 0) :
    Inv base (s.setFree cur 0) blocks lists ∧ Keeps ∅ s blocks (s.setFree cur 0) blocks := by
  have hheader : ∀ h ∈ blocks, (s.setFree cur 0).header h = s.header h := by
    intro h hh
    rw [header_setFree hs.separate hcur hh]
    split
    · next heq => rw [heq, ← hzero]
    · rfl
  refine ⟨hs.of_header_eq hheader rfl rfl, ?_⟩
  refine hs.keeps_of_outside (sameOutside_setFree hcur 0) fun h hh _ hfree ↦ ?_
  rw [hheader h hh]
  exact ⟨hh, hfree, rfl⟩

/-- `realloc` of a pointer that is not `NULL` to a positive size.  The request of the nested
`malloc` is made only where the block is too small even with the free block behind it. -/
theorem realloc (hs : Inv base s blocks lists) (hp : Owned s blocks p n) {answers : Answers}
    (hpos : size ≠ 0)
    (hfits : ((s.combineNext (p - META)).header (p - META)).size < size →
      (s.combineNext (p - META)).Fits size answers) :
    ∃ s' r blocks' lists', s.realloc (some p) size answers = some (s', r) ∧
      Inv base s' blocks' lists' ∧ Keeps {p - META} s blocks s' blocks' ∧
      (r = none → Owned s' blocks' p n ∧ ∀ i < n, s'.mem (p + i) = s.mem (p + i)) ∧
      ∀ q, r = some q → Owned s' blocks' q size ∧ (q ≠ p → ¬ Owned s blocks q 0) ∧
        ∀ i < min n size, s'.mem (q + i) = s.mem (p + i) := by
  obtain ⟨cur, hcur, rfl, hzero, hn⟩ := hp
  obtain ⟨hsame, hle, hmerge⟩ := hs.combineNext hcur
  obtain ⟨blocks₁, lists₁, hs₁, hk₁, hcur₁, hbytes, -⟩ := hmerge fun h ↦ by
    rw [hzero] at h
    exact absurd h (by decide)
  have hzero₁ := hsame.trans hzero
  have hold : ∀ i < n, (s.combineNext cur).mem (cur + META + i) = s.mem (cur + META + i) := by
    intro i hi
    apply hbytes _ (by omega)
    rw [span_eq]
    omega
  unfold Heap.realloc
  simp only [if_neg hpos, Nat.add_sub_cancel] at hfits ⊢
  split
  · next hfit =>
    rw [blockSplitting_used hzero]
    obtain ⟨hs', hk'⟩ := hs.setFree_used hcur hzero
    have hown : Owned s blocks (cur + META) size := ⟨cur, hcur, rfl, hzero, hfit⟩
    have hown' := (hk'.owned hown (Set.notMem_empty _))
    refine ⟨_, _, blocks, lists, rfl, hs', hk'.mono (Set.empty_subset _), by simp, ?_⟩
    rintro _ ⟨⟩
    exact ⟨hown'.1, fun h ↦ absurd rfl h, fun i hi ↦ hown'.2 i (by omega)⟩
  split
  · next hfit =>
    obtain ⟨hs', hk'⟩ := hs₁.setFree_used hcur₁ hzero₁
    have hown : Owned (s.combineNext cur) blocks₁ (cur + META) size :=
      ⟨cur, hcur₁, rfl, hzero₁, hfit⟩
    have hown' := (hk'.owned hown (Set.notMem_empty _))
    refine ⟨_, _, blocks₁, lists₁, rfl, hs', hk₁.trans (hk'.mono (Set.empty_subset _)), by simp, ?_⟩
    rintro _ ⟨⟩
    refine ⟨hown'.1, fun h ↦ absurd rfl h, fun i hi ↦ ?_⟩
    rw [hown'.2 i (by omega), hold i (by omega)]
  · next hfit =>
    obtain ⟨s₂, r, blocks₂, lists₂, heq, hs₂, hk₂, hr⟩ := hs₁.malloc (hfits (Nat.lt_of_not_le hfit))
    have hown₁ : Owned (s.combineNext cur) blocks₁ (cur + META) n :=
      ⟨cur, hcur₁, rfl, hzero₁, hn.trans hle⟩
    obtain ⟨hown₂, hbytes₂⟩ := hk₂.owned hown₁ (Set.notMem_empty _)
    simp only [heq, Option.bind_eq_bind, Option.bind_some]
    cases r with
    | none =>
      refine ⟨s₂, none, blocks₂, lists₂, rfl, hs₂, hk₁.trans (hk₂.mono (Set.empty_subset _)), ?_,
        by simp⟩
      exact fun _ ↦ ⟨hown₂, fun i hi ↦ (hbytes₂ i hi).trans (hold i hi)⟩
    | some q =>
      obtain ⟨hownq, hfresh⟩ := hr q rfl
      obtain ⟨-, -, hlen⟩ := hk₂.used cur hcur₁ (Set.notMem_empty _) hzero₁
      have hne : q - META ≠ cur := by
        intro heq
        obtain ⟨h, -, rfl, -⟩ := hownq
        rw [Nat.add_sub_cancel] at heq
        rw [heq] at hfresh
        exact hfresh (hown₁.mono (Nat.zero_le n))
      have hmem : ∀ a, a < q ∨ q + size ≤ a →
          (s₂.memcpy q (cur + META) (s₂.header cur).size).mem a = s₂.mem a :=
        fun a ha ↦ if_neg (by omega)
      have hcopy : ∀ i < n, (s₂.memcpy q (cur + META) (s₂.header cur).size).mem (q + i) =
          s₂.mem (cur + META + i) := by
        intro i hi
        have hsub : cur + META + (q + i - q) = cur + META + i := by omega
        rw [← hsub]
        exact if_pos (by omega)
      obtain ⟨hs₃, hk₃, hownq₃⟩ := hs₂.of_payload hownq hmem rfl rfl
      obtain ⟨hown₃, -⟩ := hk₃.owned hown₂ (by simpa using hne.symm)
      obtain ⟨blocks₄, lists₄, hs₄, hk₄⟩ := hs₃.free hown₃ answers
      rw [Nat.add_sub_cancel] at hk₄
      obtain ⟨hownq₄, hbytesq⟩ := hk₄.owned hownq₃ (by simpa using hne)
      have hk₁₃ := (hk₂.trans_fresh hk₃ hfresh hownq).mono (Set.empty_subset {cur})
      refine ⟨_, _, blocks₄, lists₄, rfl, hs₄, hk₁.trans (hk₁₃.trans hk₄), by simp, ?_⟩
      rintro _ ⟨⟩
      refine ⟨hownq₄, fun _ hownq₀ ↦ hfresh (hk₁.owned hownq₀ (by simpa using hne)).1, fun i hi ↦ ?_⟩
      rw [hbytesq i (by omega), hcopy i (by omega), hbytes₂ i (by omega), hold i (by omega)]

end Inv

end Heap

end SystemProgramming.Malloc
