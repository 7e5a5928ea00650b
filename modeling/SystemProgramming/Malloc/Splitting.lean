import SystemProgramming.Malloc.Reachable

/-!
# Reused blocks

Both callers of `block_splitting` hand it a block that is not free any more, so it never splits.
A reused block keeps its size, however small the request is.
-/

namespace SystemProgramming.Malloc

namespace Heap

/-- The block `cur` of `s` serves a request of `size` bytes.  What is cut off is a free block in
the list of its class. -/
structure Trimmed (s s' : Heap) (cur size : ℕ) : Prop where
  excess : (s'.header cur).size ≤ size + (META + SPLIT)
  rest : (s'.header cur).size < (s.header cur).size →
    ∃ new l, new = cur + META + (s'.header cur).size ∧ (s'.header new).free = 1 ∧
      (s'.header cur).size + (META + (s'.header new).size) = (s.header cur).size ∧
      s'.IsList (getIndex (s'.header new).size) l ∧ new ∈ l

/-- The block that a search of the list finds is hardly larger than the request.  First fit takes
the first block that is large enough, and best fit a smallest one. -/
def CloseFit (s : Heap) (l : List ℕ) (size : ℕ) : Prop :=
  if getIndex size < SEARCH then
    ∀ h, l.find? (fun h ↦ size ≤ (s.header h).size) = some h →
      (s.header h).size ≤ size + (META + SPLIT)
  else ∃ h ∈ l, size ≤ (s.header h).size ∧ (s.header h).size ≤ size + (META + SPLIT)

variable {s s' s₁ : Heap} {base cur size : ℕ} {blocks : List ℕ} {lists : ℕ → List ℕ}

theorem trimmed_iff (hsize : (s'.header cur).size = (s.header cur).size) :
    Trimmed s s' cur size ↔ (s.header cur).size ≤ size + (META + SPLIT) := by
  constructor
  · intro h
    exact hsize ▸ h.excess
  · intro h
    refine ⟨hsize ▸ h, fun hlt ↦ ?_⟩
    rw [hsize] at hlt
    exact absurd hlt (Nat.lt_irrefl _)

/-- A block from a free list is not split. -/
theorem malloc_found {new : ℕ} {answers : Answers} (hpos : size ≠ 0)
    (hsweep : s.sweep size answers.release = some s₁) (hfind : s₁.findFit size = some (some new)) :
    s.malloc size answers = some ((s₁.removeblock new).setFree new 0, some (new + META)) := by
  have hzero : (((s₁.removeblock new).setFree new 0).header new).free = 0 := by
    rw [header_setFree_self]
  rw [malloc, if_neg hpos, hsweep]
  simp only [Option.bind_eq_bind, Option.bind_some, hfind]
  rw [blockSplitting_used hzero]
  rfl

namespace Inv

/-- The block that the search finds, where there is one. -/
theorem findFit_close (hs : Inv base s blocks lists)
    (hfit : ∃ h ∈ lists (getIndex size), size ≤ (s.header h).size) :
    ∃ new ∈ lists (getIndex size), s.findFit size = some (some new) ∧
      ((s.header new).size ≤ size + (META + SPLIT) ↔ s.CloseFit (lists (getIndex size)) size) := by
  obtain ⟨h, hh, hle⟩ := hfit
  obtain ⟨r, hfind, hfirst, hbest⟩ := hs.findFit size
  rcases Nat.lt_or_ge (getIndex size) SEARCH with hlt | hge
  · have hr := hfirst hlt
    have hsome : ((lists (getIndex size)).find? fun h ↦ size ≤ (s.header h).size).isSome = true :=
      List.find?_isSome.mpr ⟨h, hh, by simpa using hle⟩
    obtain ⟨new, hnew⟩ := Option.isSome_iff_exists.mp hsome
    refine ⟨new, List.mem_of_find?_eq_some hnew, by rw [hfind, hr, hnew], ?_⟩
    rw [CloseFit, if_pos hlt, hnew]
    simp
  · obtain ⟨new, rfl, hnew⟩ := (hbest hge).least h hh hle
    obtain ⟨hmem, hsize⟩ := (hbest hge).fits new rfl
    refine ⟨new, hmem, hfind, ?_⟩
    rw [CloseFit, if_neg (Nat.not_lt.mpr hge)]
    constructor
    · exact fun hclose ↦ ⟨new, hmem, hsize, hclose⟩
    · rintro ⟨k, hk, hfits, hclose⟩
      obtain ⟨c, heq, hc⟩ := (hbest hge).least k hk hfits
      obtain rfl := Option.some.inj heq
      exact hc.trans hclose

/-- What `malloc` does with a list that holds a block for the request. -/
theorem malloc_trimmed_iff (hs : Inv base s blocks lists) {answers : Answers} (hpos : 0 < size)
    (hfits : s.Fits size answers) :
    ∃ s₁ l, s.sweep size answers.release = some s₁ ∧ s₁.IsList (getIndex size) l ∧
      ((∃ h ∈ l, size ≤ (s₁.header h).size) → ∃ s', ∃ new ∈ l,
        s.malloc size answers = some (s', some (new + META)) ∧
        (Trimmed s₁ s' new size ↔ s₁.CloseFit l size)) := by
  obtain ⟨s₁, blocks₁, lists₁, hsweep, hs₁, -⟩ := hs.sweep answers.release hfits.2
  refine ⟨s₁, lists₁ (getIndex size), hsweep, hs₁.linked.linked _, fun hfit ↦ ?_⟩
  obtain ⟨new, hnew, hfind, hclose⟩ := hs₁.findFit_close hfit
  have hsame := (hs₁.header_take hnew (hs₁.linked.subset _ new hnew)).1
  exact ⟨_, new, hnew, malloc_found hpos.ne' hsweep hfind, (trimmed_iff hsame).trans hclose⟩

end Inv

/-- What `realloc` does with a block that is large enough. -/
theorem Owned.realloc_trimmed_iff {p n : ℕ} (hp : s.Owned blocks p n) {answers : Answers}
    (hpos : 0 < size) (hle : size ≤ (s.header (p - META)).size) :
    ∃ s', s.realloc (some p) size answers = some (s', some p) ∧
      (Trimmed s s' (p - META) size ↔ (s.header (p - META)).size ≤ size + (META + SPLIT)) := by
  obtain ⟨h, -, rfl, hzero, -⟩ := hp
  rw [Nat.add_sub_cancel] at hle ⊢
  refine ⟨s.setFree h 0, ?_, trimmed_iff (by rw [header_setFree_self])⟩
  unfold Heap.realloc
  simp only [Nat.add_sub_cancel]
  rw [if_neg hpos.ne', if_pos hle, blockSplitting_used hzero]

end Heap

/-- When the unused part of a reused block is small enough, in every run whose requests fit. -/
theorem reused_trimmed_iff {base : ℕ} {mem : Bytes} {calls : List (Call × Answers)} {s : System}
    (hpos : 0 < base) (hlt : base < 2 ^ 63)
    (hrun : Run (Guarded (StepOf System.exec) System.Ok) (System.init base mem) calls s) :
    (∀ size answers, 0 < size → s.Ok (.malloc size, answers) →
      ∃ s₁ l, s.heap.sweep size answers.release = some s₁ ∧ s₁.IsList (getIndex size) l ∧
        ((∃ h ∈ l, size ≤ (s₁.header h).size) → ∃ s', ∃ new ∈ l,
          s.heap.malloc size answers = some (s', some (new + META)) ∧
          (s₁.Trimmed s' new size ↔ s₁.CloseFit l size))) ∧
    ∀ p n size answers, s.live p = some n → 0 < size → size ≤ (s.heap.header (p - META)).size →
      ∃ s', s.heap.realloc (some p) size answers = some (s', some p) ∧
        (s.heap.Trimmed s' (p - META) size ↔
          (s.heap.header (p - META)).size ≤ size + (META + SPLIT)) := by
  obtain ⟨blocks, lists, hs⟩ := System.Inv.run hpos hlt hrun
  constructor
  · intro size answers hsize hok
    exact hs.heap.malloc_trimmed_iff hsize hok.2
  · intro p n size answers hp hsize hle
    exact (hs.owned p n hp).realloc_trimmed_iff hsize hle

/-- A small block that is freed, with a larger one behind it. -/
def freeingCalls (size : ℕ) : List (Call × Answers) :=
  [(.malloc size, granting true), (.malloc 40, granting true), (.free (some 96), granting true)]

theorem reused_trimmed_iff_freeing : ∃ s,
    Run (Guarded (StepOf System.exec) System.Ok) (System.init 64 fun _ ↦ 0) (freeingCalls 8) s ∧
      (∃ s' new, s.heap.malloc 6 (granting true) = some (s', some (new + META)) ∧
        s.heap.Trimmed s' new 6) ∧
      ∃ s', s.heap.realloc (some 136) 20 (granting true) = some (s', some 136) ∧
        s.heap.Trimmed s' 104 20 := by
  have hsome : ((execute (guarded System.exec System.Ok) (System.init 64 fun _ ↦ 0)
      (freeingCalls 8)).any fun s ↦ decide (s.heap.freeListHead 0 = some 64 ∧
        (s.heap.header 64).next = none ∧ (s.heap.header 64).size = 8 ∧ s.live 136 = some 40 ∧
        (s.heap.header 104).size = 40)) = true := by decide +kernel
  obtain ⟨s, hs, hfacts⟩ := (Option.any_eq_true _ _).mp hsome
  obtain ⟨hhead, hnext, hsize, hlive, hsize'⟩ := of_decide_eq_true hfacts
  have hrun := Run.execute_guarded_eq_some_iff.mp hs
  have hfits : s.heap.Fits 6 (granting true) := ⟨fun _ ↦ by decide, fun h ↦ absurd h (by decide)⟩
  have hsmall : 6 < 2 ^ 64 := by decide
  obtain ⟨hmalloc, hrealloc⟩ := reused_trimmed_iff (by decide) (by decide) hrun
  refine ⟨s, hrun, ?_, ?_⟩
  · obtain ⟨s₁, l, hsweep, hl, hserved⟩ := hmalloc 6 (granting true) (by decide) ⟨hsmall, hfits⟩
    obtain rfl := Option.some.inj hsweep
    rw [show getIndex 6 = 0 by decide, Heap.IsList, hhead] at hl
    obtain ⟨l, rfl⟩ : ∃ t, l = 64 :: t := by
      cases l with
      | nil => cases hl
      | cons a t => exact ⟨t, by rw [Option.some.inj hl.1]⟩
    obtain rfl : l = [] := List.head?_eq_none_iff.mp (hl.2.2.head?_eq.symm.trans hnext)
    obtain ⟨s', new, -, heq, htrim⟩ := hserved ⟨64, by simp, by rw [hsize]; decide⟩
    refine ⟨s', new, heq, htrim.mpr ?_⟩
    rw [Heap.CloseFit, if_pos (by decide)]
    intro h hh
    obtain rfl := List.mem_singleton.mp (List.mem_of_find?_eq_some hh)
    rw [hsize]
    decide
  · obtain ⟨s', heq, htrim⟩ := hrealloc 136 40 20 (granting true) hlive (by decide) (by
      rw [show 136 - META = 104 from rfl, hsize']
      decide)
    refine ⟨s', heq, htrim.mpr ?_⟩
    rw [show 136 - META = 104 from rfl, hsize']
    decide

theorem reused_block_not_split : ¬ ∀ calls s,
    Run (Guarded (StepOf System.exec) System.NoWrap) (System.init 64 fun _ ↦ 0) calls s →
      ∀ size answers s₁ new s', META + size < 2 ^ 64 →
        s.heap.sweep size answers.release = some s₁ → s₁.findFit size = some (some new) →
        s.heap.malloc size answers = some (s', some (new + META)) → s₁.Trimmed s' new size := by
  intro hall
  have hsome : ((execute (guarded System.exec System.NoWrap) (System.init 64 fun _ ↦ 0)
      (freeingCalls 500)).any fun s ↦ decide (s.heap.findFit 257 = some (some 64)) &&
        (s.heap.malloc 257 (granting true)).any fun r ↦
          decide (r.2 = some 96 ∧ (r.1.header 64).size = 500)) = true := by decide +kernel
  obtain ⟨s, hs, hrest⟩ := (Option.any_eq_true _ _).mp hsome
  obtain ⟨hfind, hmore⟩ := Bool.and_eq_true_iff.mp hrest
  obtain ⟨⟨s', r⟩, heq, hend⟩ := (Option.any_eq_true _ _).mp hmore
  obtain ⟨rfl, hsize⟩ := of_decide_eq_true hend
  have hrun := Run.execute_guarded_eq_some_iff.mp hs
  have hexcess := (hall _ s hrun 257 (granting true) s.heap 64 s' (by decide) rfl
    (of_decide_eq_true hfind) heq).excess
  rw [show (s'.header 64).size = 500 from hsize] at hexcess
  exact absurd hexcess (by decide)

end SystemProgramming.Malloc
