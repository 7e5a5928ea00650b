import SystemProgramming.Malloc.Reachable

/-!
# What the client gets

`realloc` keeps the bytes of the block, and `malloc` and `calloc` give blocks of the requested
size.  A request of 2^63 bytes or more is taken for a negative increment or wraps around.
-/

namespace SystemProgramming.Malloc

/-- A pointer with a block of the walk of its own. -/
def Heap.Owns (base : ℕ) (s : Heap) (p n : ℕ) : Prop :=
  ∃ blocks, Tiles s.span base blocks s.top ∧ s.Owned blocks p n

/-- What `realloc` promises about the pointer `p` and the new size `n`. -/
structure System.Reallocates (base : ℕ) (s t : System) (p n : ℕ) (r : Option ℕ) : Prop where
  moved : ∀ q, r = some q →
    (∀ old, s.live p = some old → ∀ i < min old n, t.heap.mem (q + i) = s.heap.mem (p + i)) ∧
      t.live q = some n ∧ t.heap.Owns base q n ∧ (q ≠ p → t.live p = none)
  refused : r = none → t.live p = s.live p ∧
    ∀ old, s.live p = some old → ∀ i < old, t.heap.mem (p + i) = s.heap.mem (p + i)
  others : ∀ k m, k ≠ p → s.live k = some m →
    t.live k = some m ∧ ∀ i < m, t.heap.mem (k + i) = s.heap.mem (k + i)

/-- A payload of at least `n` bytes below the break. -/
def Heap.Provides (s : Heap) (p n : ℕ) : Prop :=
  n ≤ (s.header (p - META)).size ∧ p + (s.header (p - META)).size ≤ s.top

/-- No block of a live pointer reaches beyond the break. -/
def System.LiveBelow (s : System) (heap : Heap) : Prop :=
  ∀ p n, s.live p = some n → heap.Provides p n

section Step

variable {s : System} {base : ℕ} {blocks blocks' : List ℕ} {lists lists' : ℕ → List ℕ}

theorem Heap.Inv.provides {s : Heap} {p n : ℕ} (hs : s.Inv base blocks lists)
    (hp : s.Owned blocks p n) : s.Provides p n := by
  obtain ⟨h, hh, rfl, -, hn⟩ := hp
  rw [Provides, Nat.add_sub_cancel]
  exact ⟨hn, (hs.bounds hh).2⟩

theorem System.Inv.liveBelow {heap : Heap} (hs : s.Inv base blocks lists)
    (hs' : heap.Inv base blocks' lists') (hk : s.heap.Keeps ∅ blocks heap blocks') :
    s.LiveBelow heap :=
  fun p n hp ↦ hs'.provides (hk.owned (hs.owned p n hp) (Set.notMem_empty _)).1

theorem System.Inv.reallocates {p n : ℕ} {answers : Answers} (hs : s.Inv base blocks lists)
    (hok : s.Ok (.realloc (some p) n, answers)) (hn : 0 < n) :
    ∃ t r, s.heap.realloc (some p) n answers = some (t.heap, r) ∧
      s.exec (.realloc (some p) n, answers) = some t ∧ s.Reallocates base t p n r := by
  obtain ⟨old, hold⟩ := Option.ne_none_iff_exists'.mp (hok.1.2 p rfl)
  have hown := hs.owned p old hold
  obtain ⟨heap', r, blocks', lists', heq, hs', hk', hnone, hr⟩ :=
    hs.heap.realloc hown hn.ne' (hok.2 hn.ne')
  have hothers : ∀ k m, k ≠ p → s.live k = some m →
      heap'.Owned blocks' k m ∧ ∀ i < m, heap'.mem (k + i) = s.heap.mem (k + i) :=
    fun k m hne hk ↦ hk'.owned (hs.owned k m hk) ((hs.owned k m hk).header_ne hown hne)
  refine ⟨_, r, heq, System.exec_realloc heq, ?_⟩
  cases r with
  | none =>
    obtain ⟨-, hbytes⟩ := hnone rfl
    rw [if_pos ⟨hn.ne', rfl⟩]
    refine ⟨by simp, fun _ ↦ ⟨rfl, ?_⟩, fun k m hne hk ↦ ⟨hk, (hothers k m hne hk).2⟩⟩
    intro old' hold'
    obtain rfl := Option.some.inj (hold.symm.trans hold')
    exact hbytes
  | some q =>
    obtain ⟨hownq, hfresh, hbytes⟩ := hr q rfl
    rw [if_neg (by simp)]
    refine ⟨?_, by simp, fun k m hne hk ↦ ⟨?_, (hothers k m hne hk).2⟩⟩
    · rintro _ ⟨⟩
      refine ⟨?_, Function.update_self _ _ _, ⟨blocks', hs'.tiles, hownq⟩, fun hqp ↦ ?_⟩
      · intro old' hold'
        obtain rfl := Option.some.inj (hold.symm.trans hold')
        exact hbytes
      · simp only [allocate, release]
        rw [Function.update_of_ne hqp.symm, Function.update_self]
    · have hkq : k ≠ q := by
        rintro rfl
        exact hfresh hne ((hs.owned k m hk).mono (Nat.zero_le m))
      simp only [allocate, release]
      rw [Function.update_of_ne hkq, Function.update_of_ne hne, hk]

end Step

/-- Contents in every run whose requests fit. -/
theorem realloc_keeps_contents {base : ℕ} {mem : Bytes} {calls : List (Call × Answers)} {s : System}
    (hpos : 0 < base) (hlt : base < 2 ^ 63)
    (hrun : Run (Guarded (StepOf System.exec) System.Ok) (System.init base mem) calls s)
    {p n : ℕ} {answers : Answers} (hn : 0 < n) (hok : s.Ok (.realloc (some p) n, answers)) :
    ∃ t r, s.heap.realloc (some p) n answers = some (t.heap, r) ∧
      s.exec (.realloc (some p) n, answers) = some t ∧ s.Reallocates base t p n r := by
  obtain ⟨blocks, lists, hs⟩ := System.Inv.run hpos hlt hrun
  exact hs.reallocates hok hn

/-- One small block. -/
def firstCall : Call × Answers := (.malloc 8, granting true)

theorem firstCall_run : ∃ s, (System.init 64 fun _ ↦ 0).exec firstCall = some s ∧
    s.live 96 = some 8 ∧ s.Ok (.realloc (some 96) 100, granting true) ∧
    ∃ heap, s.heap.realloc (some 96) (2 ^ 64 - 72) (granting true) = some (heap, some 136) ∧
      heap.top = 64 := by
  have hsome : ((System.init 64 fun _ ↦ 0).exec firstCall).any (fun s ↦
      decide (s.live 96 = some 8 ∧ s.Ok (.realloc (some 96) 100, granting true)) &&
        (s.heap.realloc (some 96) (2 ^ 64 - 72) (granting true)).any
          fun r ↦ decide (r.2 = some 136 ∧ r.1.top = 64)) = true := by decide +kernel
  obtain ⟨s, hs, hrest⟩ := (Option.any_eq_true _ _).mp hsome
  obtain ⟨hfacts, hmore⟩ := Bool.and_eq_true_iff.mp hrest
  obtain ⟨hlive, hok⟩ := of_decide_eq_true hfacts
  obtain ⟨⟨heap, r⟩, heq, hend⟩ := (Option.any_eq_true _ _).mp hmore
  obtain ⟨rfl, htop⟩ := of_decide_eq_true hend
  exact ⟨s, hs, hlive, hok, heap, heq, htop⟩

theorem realloc_keeps_contents_moved : ∃ s t r,
    Run (Guarded (StepOf System.exec) System.Ok) (System.init 64 fun _ ↦ 0) [firstCall] s ∧
      s.exec (.realloc (some 96) 100, granting true) = some t ∧ s.Reallocates 64 t 96 100 r := by
  obtain ⟨s, hs, -, hok, -⟩ := firstCall_run
  have hrun : Run (Guarded (StepOf System.exec) System.Ok) (System.init 64 fun _ ↦ 0) [firstCall] s :=
    Run.single ⟨by decide, hs⟩
  obtain ⟨t, r, -, hexec, hkeeps⟩ :=
    realloc_keeps_contents (by decide) (by decide) hrun (by decide) hok
  exact ⟨s, t, r, hrun, hexec, hkeeps⟩

theorem realloc_lowers_break : ¬ ∀ calls s,
    Run (Guarded (StepOf System.exec) System.NoWrap) (System.init 64 fun _ ↦ 0) calls s →
      s.heap.ListsConsistent 64 → ∀ p n answers t r, s.live p ≠ none → 0 < n → META + n < 2 ^ 64 →
        s.heap.realloc (some p) n answers = some (t.heap, r) →
        s.exec (.realloc (some p) n, answers) = some t → s.Reallocates 64 t p n r := by
  intro hall
  obtain ⟨s, hs, hlive, -, heap, heq, htop⟩ := firstCall_run
  have hexec := System.exec_realloc heq
  have hrun : Run (Guarded (StepOf System.exec) System.Ok) (System.init 64 fun _ ↦ 0) [firstCall] s :=
    Run.single ⟨by decide, hs⟩
  obtain ⟨blocks, lists, hinv⟩ := System.Inv.run (by decide) (by decide) hrun
  have hkeeps := hall [firstCall] s (Run.single ⟨by decide, hs⟩) hinv.heap.listsConsistent 96
    (2 ^ 64 - 72) (granting true) _ _ (by rw [hlive]; simp) (by decide) (by decide) heq hexec
  obtain ⟨-, -, ⟨walk, htiles, h, hh, -⟩, -⟩ := hkeeps.moved 136 rfl
  have hbounds : 64 ≤ h ∧ h + heap.span h ≤ heap.top := htiles.bounds hh
  have hspan : 0 < heap.span h := Heap.span_pos
  omega

/-- Sizes in every run whose requests fit. -/
theorem allocations_sized {base : ℕ} {mem : Bytes} {calls : List (Call × Answers)} {s : System}
    (hpos : 0 < base) (hlt : base < 2 ^ 63)
    (hrun : Run (Guarded (StepOf System.exec) System.Ok) (System.init base mem) calls s) :
    (∀ size answers, s.Ok (.malloc size, answers) → ∃ heap r,
      s.heap.malloc size answers = some (heap, r) ∧ s.LiveBelow heap ∧
        ∀ p, r = some p → heap.Provides p size) ∧
    ∀ num size answers, s.Ok (.calloc num size, answers) → ∃ heap r,
      s.heap.calloc num size answers = some (heap, r) ∧ s.LiveBelow heap ∧
        ∀ p, r = some p → heap.Provides p (num * size) ∧ ∀ i < num * size, heap.mem (p + i) = 0 := by
  obtain ⟨blocks, lists, hs⟩ := System.Inv.run hpos hlt hrun
  constructor
  · intro size answers hok
    obtain ⟨heap, r, blocks', lists', heq, hs', hk', hr⟩ := hs.heap.malloc hok.2
    exact ⟨heap, r, heq, hs.liveBelow hs' hk', fun p hp ↦ hs'.provides (hr p hp).1⟩
  · intro num size answers hok
    obtain ⟨heap, r, blocks', lists', heq, hs', hk', hr⟩ := hs.heap.calloc hok.2.1 hok.2.2
    refine ⟨heap, r, heq, hs.liveBelow hs' hk', fun p hp ↦ ?_⟩
    obtain ⟨hown, -, hzero⟩ := hr p hp
    exact ⟨hs'.provides hown, hzero⟩

theorem allocations_sized_second : ∃ s,
    Run (Guarded (StepOf System.exec) System.Ok) (System.init 64 fun _ ↦ 0) [firstCall] s ∧
      (∃ heap r, s.heap.malloc 100 (granting true) = some (heap, r) ∧
        ∀ p, r = some p → heap.Provides p 100) ∧
      ∃ heap r, s.heap.calloc 4 25 (granting true) = some (heap, r) ∧
        ∀ p, r = some p → heap.Provides p 100 ∧ ∀ i < 100, heap.mem (p + i) = 0 := by
  obtain ⟨s, hs, -⟩ := firstCall_run
  have hrun : Run (Guarded (StepOf System.exec) System.Ok) (System.init 64 fun _ ↦ 0) [firstCall] s :=
    Run.single ⟨by decide, hs⟩
  have hfits : s.heap.Fits 100 (granting true) := ⟨fun _ ↦ by decide, fun h ↦ absurd h (by decide)⟩
  have hlt : 100 < 2 ^ 64 := by decide
  obtain ⟨hmalloc, hcalloc⟩ := allocations_sized (by decide) (by decide) hrun
  obtain ⟨heap, r, heq, -, hr⟩ := hmalloc 100 (granting true) ⟨hlt, hfits⟩
  obtain ⟨heap', r', heq', -, hr'⟩ := hcalloc 4 25 (granting true)
    ⟨⟨by decide, by decide⟩, hlt, hfits⟩
  exact ⟨s, hrun, ⟨heap, r, heq, hr⟩, heap', r', heq', hr'⟩

/-- The increment is zero, and the header and the payload lie above the break. -/
theorem malloc_wraps_around : ¬ ∀ calls s,
    Run (Guarded (StepOf System.exec) fun s e ↦ s.Legal e.1) (System.init 64 fun _ ↦ 0) calls s →
      ∀ size answers heap p, size < 2 ^ 64 →
        s.heap.malloc size answers = some (heap, some p) → heap.Provides p size := by
  intro hall
  have hsome : ((System.init 64 fun _ ↦ 0).heap.malloc (2 ^ 64 - 32) (granting true)).any
      (fun r ↦ decide (r.2 = some 96 ∧ r.1.top = 64)) = true := by decide +kernel
  obtain ⟨⟨heap, r⟩, heq, hend⟩ := (Option.any_eq_true _ _).mp hsome
  obtain ⟨rfl, htop⟩ := of_decide_eq_true hend
  have hbelow := (hall [] _ Run.nil _ _ heap 96 (by decide) heq).2
  rw [show heap.top = 64 from htop] at hbelow
  exact absurd ((Nat.le_add_right _ _).trans hbelow) (by decide)

end SystemProgramming.Malloc
