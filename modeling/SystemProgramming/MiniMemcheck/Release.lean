import SystemProgramming.MiniMemcheck.Bookkeeping

/-!
# What is released

The heap holds the regions that the allocator has handed out and that have not been released.
Releasing a region twice, and reading one that has been released, has no result.
-/

namespace SystemProgramming.MiniMemcheck

variable {M : Size} {s s' : State} {live : Live} {entries : List (Addr × Request)}
  {a p reply : Addr} {r : Request} {answer : Option Addr} {call : Call}

/-- The regions that have not been released are those of the live payloads. -/
def Released (M : Size) (s : State) (live : Live) : Prop :=
  ∀ a, s.heap a ≠ none ↔ live (a + M) ≠ none

/-- The call ends no allocation, moves none, and its metadata fits into the region. -/
def Keeps (M : Size) (s : State) (answer : Option Addr) (call : Call) : Prop :=
  Fits M s answer call ∧ match call with
    | .free payload => ¬ s.Lists (payload - M)
    | .realloc payload request => request.requestSize = 0 → ¬ s.Lists (payload - M)
    | _ => True

/-! ## The regions after each call -/

namespace State

/-- The same regions are allocated. -/
def SameRegions (s s' : State) : Prop := ∀ a, s'.heap a ≠ none ↔ s.heap a ≠ none

namespace SameRegions

theorem refl (s : State) : SameRegions s s := fun _ ↦ Iff.rfl

theorem trans {s₁ s₂ s₃ : State} (h : SameRegions s₁ s₂) (h' : SameRegions s₂ s₃) :
    SameRegions s₁ s₃ := fun a ↦ (h' a).trans (h a)

/-- Only a region that is allocated can be written to. -/
theorem store {m : MetaData} (h : s.store M a m = some s') : SameRegions s s' := by
  obtain ⟨b, hb, hstore⟩ := Option.bind_eq_some_iff.mp h
  split_ifs at hstore
  obtain rfl := Option.some.inj hstore
  intro c
  rcases eq_or_ne c a with rfl | hne
  · simp [hb]
  · simp [hne]

theorem of_heap_eq (h : s'.heap = s.heap) : SameRegions s s' := fun a ↦ by rw [h]

/-- `mini_free` calls no `free`. -/
theorem miniFree (h : s.miniFree M p = some s') : SameRegions s s' := by
  unfold State.miniFree at h
  split_ifs at h with hp
  · obtain rfl := Option.some.inj h
    exact .refl s
  · obtain ⟨⟨previous, cur⟩, -, h⟩ := Option.bind_eq_some_iff.mp h
    simp only at h
    split_ifs at h with hcur hhead
    · obtain rfl := Option.some.inj h
      exact .of_heap_eq rfl
    · simp only [Option.bind_eq_bind, Option.bind_eq_some_iff, Option.some.injEq,
        Option.pure_def] at h
      obtain ⟨_, -, _, rfl, _, -, rfl⟩ := h
      exact .of_heap_eq rfl
    · simp only [Option.bind_eq_bind, Option.bind_eq_some_iff, Option.some.injEq,
        Option.pure_def] at h
      obtain ⟨_, -, s₁, ⟨_, -, hstore⟩, _, -, rfl⟩ := h
      exact (SameRegions.store hstore).trans (.of_heap_eq rfl)

/-- A block that `realloc` leaves in its place. -/
theorem realloc {size : Size} (h : s.realloc M a a size = some s') : SameRegions s s' := by
  obtain ⟨b, hb, rfl⟩ := Option.map_eq_some_iff.mp h
  intro c
  rcases eq_or_ne c a with rfl | hne
  · simp [hb]
  · simp [hne]

end SameRegions

theorem search_eq_some {entry previous cur previous' cur' : Addr} {fuel : ℕ}
    (h : s.search entry fuel previous cur = some (previous', cur')) :
    cur' = 0 ∨ cur' = entry := by
  induction fuel generalizing previous cur with
  | zero => cases h
  | succ fuel ih =>
    unfold search at h
    split_ifs at h with hcur
    · obtain ⟨-, rfl⟩ := Prod.mk.inj (Option.some.inj h)
      exact hcur
    · obtain ⟨_, -, hrest⟩ := Option.bind_eq_some_iff.mp h
      exact ih hrest

/-- A call has returned no block, or a new one with its metadata. -/
def Allocates (M : Size) (s : State) (size : Size) (answer : Option Addr) (s' : State)
    (reply : Addr) : Prop :=
  reply = 0 ∧ s' = s ∨ ∃ mem, answer = some mem ∧ reply = mem + M ∧ M ≤ size ∧
    ∀ a, s'.heap a ≠ none ↔ a = mem ∨ s.heap a ≠ none

theorem store_malloc {mem : Addr} {size : Size} {m : MetaData}
    (h : (s.malloc mem size).store M mem m = some s') :
    M ≤ size ∧ ∀ a, s'.heap a ≠ none ↔ a = mem ∨ s.heap a ≠ none := by
  constructor
  · by_contra hM
    simp [store, malloc, hM] at h
  · intro a
    rw [SameRegions.store h a, malloc]
    rcases eq_or_ne a mem with rfl | hne
    · simp
    · simp [hne]

theorem miniMalloc_allocates (h : s.miniMalloc M r answer = some (s', reply)) :
    Allocates M s (r.requestSize + M) answer s' reply := by
  unfold miniMalloc at h
  split_ifs at h with hsize
  · obtain ⟨rfl, rfl⟩ := Prod.mk.inj (Option.some.inj h)
    exact .inl ⟨rfl, rfl⟩
  · cases answer with
    | none =>
      obtain ⟨rfl, rfl⟩ := Prod.mk.inj (Option.some.inj h)
      exact .inl ⟨rfl, rfl⟩
    | some mem =>
      simp only [Option.bind_eq_bind, Option.bind_eq_some_iff, Option.pure_def, Option.some.injEq,
        Prod.mk.injEq] at h
      obtain ⟨s₁, hstore, rfl, rfl⟩ := h
      obtain ⟨hM, hheap⟩ := store_malloc hstore
      exact .inr ⟨mem, rfl, rfl, hM, hheap⟩

theorem miniCalloc_allocates {numElements elementSize : Size} {filename instruction : Addr}
    (h : s.miniCalloc M numElements elementSize filename instruction answer =
      some (s', reply)) :
    Allocates M s (numElements * elementSize + M) answer s' reply := by
  unfold miniCalloc at h
  split_ifs at h with hsize
  · obtain ⟨rfl, rfl⟩ := Prod.mk.inj (Option.some.inj h)
    exact .inl ⟨rfl, rfl⟩
  · cases answer with
    | none =>
      obtain ⟨rfl, rfl⟩ := Prod.mk.inj (Option.some.inj h)
      exact .inl ⟨rfl, rfl⟩
    | some mem =>
      obtain ⟨s₁, hstore, h⟩ := Option.bind_eq_some_iff.mp h
      simp only at h
      split_ifs at h
      obtain ⟨rfl, rfl⟩ := Prod.mk.inj (Option.some.inj h)
      obtain ⟨hM, hheap⟩ := store_malloc hstore
      exact .inr ⟨mem, rfl, rfl, hM, hheap⟩

/-- A reallocation to size 0 is a `mini_free`. -/
theorem SameRegions.realloc_zero (hzero : r.requestSize = 0)
    (h : s.exec M answer (.realloc p r) = some (s', reply)) : SameRegions s s' := by
  simp only [exec, State.miniRealloc, hzero, and_true, if_true] at h
  split_ifs at h
  · obtain ⟨rfl, -⟩ := Prod.mk.inj (Option.some.inj h)
    exact .refl s
  · obtain ⟨s₁, hfree, heq⟩ := Option.map_eq_some_iff.mp h
    obtain ⟨rfl, -⟩ := Prod.mk.inj heq
    exact .miniFree hfree

/-- A reallocation that moves nothing. -/
theorem SameRegions.miniRealloc (hsize : r.requestSize ≠ 0) (hp : p ≠ 0)
    (hstays : ∀ new, answer = some new → s.Lists (p - M) → new = p - M)
    (h : s.miniRealloc M p r answer = some (s', reply)) :
    SameRegions s s' ∧ (reply = 0 ∨ reply = p) := by
  unfold State.miniRealloc at h
  rw [if_neg (fun hand ↦ hp hand.1), if_neg hsize, if_neg hp] at h
  obtain ⟨⟨previous, cur⟩, hsearch, h⟩ := Option.bind_eq_some_iff.mp h
  simp only at h
  by_cases hcur : cur = 0
  · rw [if_pos hcur] at h
    obtain ⟨rfl, rfl⟩ := Prod.mk.inj (Option.some.inj h)
    exact ⟨.of_heap_eq rfl, .inl rfl⟩
  · rw [if_neg hcur] at h
    obtain rfl := (search_eq_some hsearch).resolve_left hcur
    cases answer with
    | none =>
      simp only at h
      split_ifs at h
      obtain ⟨rfl, rfl⟩ := Prod.mk.inj (Option.some.inj h)
      exact ⟨.refl s, .inl rfl⟩
    | some new =>
      obtain rfl := hstays new rfl ⟨hcur, previous, hsearch⟩
      simp only [Option.bind_eq_bind, Option.bind_eq_some_iff, ne_eq, not_true_eq_false, if_false,
        Option.pure_def, Option.some.injEq, Prod.mk.injEq] at h
      obtain ⟨s₁, hrealloc, _, -, _, -, s₂, hstore, rfl, rfl⟩ := h
      refine ⟨(SameRegions.realloc hrealloc).trans (.trans (of_heap_eq ?_) (store hstore)), .inr ?_⟩
      · split <;> rfl
      · exact BitVec.sub_add_cancel p M

end State

/-! ## Runs -/

namespace Released

theorem init : Released M State.init fun _ ↦ none := by
  intro a
  simp [State.init]

theorem congr (h : Released M s live) (hsame : s.SameRegions s') : Released M s' live :=
  fun a ↦ (hsame a).trans (h a)

/-- The result of `malloc` and `calloc`. -/
theorem allocate {size : Size} (h : Released M s live)
    (hcall : s.Allocates M size answer s' reply)
    (hanswer : ∀ mem, answer = some mem → mem ≠ 0 ∧ mem.toNat + size.toNat < 2 ^ 64) :
    Released M s' (live.allocate reply r) := by
  obtain ⟨rfl, rfl⟩ | ⟨mem, hmem, rfl, hM, hheap⟩ := hcall
  · rwa [Live.allocate, if_pos rfl]
  · obtain ⟨hmem0, hend⟩ := hanswer mem hmem
    have hpayload : mem + M ≠ 0 := by bv_omega
    intro a
    rw [hheap, Live.allocate, if_neg hpayload]
    rcases eq_or_ne a mem with rfl | hne
    · simp
    · have hadd : a + M ≠ mem + M := by
        intro heq
        rw [← BitVec.add_sub_cancel a M, heq, BitVec.add_sub_cancel] at hne
        exact hne rfl
      rw [Function.update_of_ne hadd, ← h a]
      simp [hne]

theorem release_of_none (h : Released M s live) (hp : live p = none) :
    Released M s (live.release p) := by
  rwa [Live.release, Function.update_eq_self_iff.mpr hp.symm]

/-- The payload is live before and after. -/
theorem resize (h : Released M s live) (hp : live p ≠ none) (hp0 : p ≠ 0) :
    Released M s ((live.release p).allocate p r) := by
  intro a
  rw [h a, Live.allocate, if_neg hp0, Live.release, Function.update_idem]
  rcases eq_or_ne (a + M) p with rfl | hne
  · simp [hp]
  · rw [Function.update_of_ne hne]

theorem of_exec (h : Released M s live) (hkept : Bookkeeping M s live entries)
    (hanswer : Answers M s call answer) (hkeeps : Keeps M s answer call)
    (hexec : s.exec M answer call = some (s', reply)) :
    Released M s' (live.after call reply) := by
  obtain ⟨hfits, hends⟩ := hkeeps
  have hsize (mem : Addr) (hmem : answer = some mem) :
      mem ≠ 0 ∧ mem.toNat + (call.size M).toNat < 2 ^ 64 :=
    ⟨(hanswer mem hmem).1, (hanswer mem hmem).2.1⟩
  have hdead (q : Addr) (hq : ¬ s.Lists (q - M)) : live q = none := by
    rw [hkept.lists_iff] at hq
    exact not_not.mp hq
  cases call with
  | malloc r => exact h.allocate (State.miniMalloc_allocates hexec) hsize
  | calloc numElements elementSize filename instruction =>
    exact h.allocate (State.miniCalloc_allocates hexec) hsize
  | free p =>
    obtain ⟨s₁, hfree, heq⟩ := Option.map_eq_some_iff.mp hexec
    obtain ⟨rfl, rfl⟩ := Prod.mk.inj heq
    exact (h.congr (.miniFree hfree)).release_of_none (hdead p hends)
  | realloc p r =>
    by_cases hzero : r.requestSize = 0
    · have hp := hdead p (hends hzero)
      rw [Live.after, if_pos hzero]
      exact (h.congr (.realloc_zero hzero hexec)).release_of_none hp
    rcases eq_or_ne p 0 with rfl | hp0
    · rw [Live.after, if_neg hzero, if_pos rfl]
      simp only [State.exec, State.miniRealloc, hzero, and_false, if_false, if_true] at hexec
      exact h.allocate (State.miniMalloc_allocates hexec) hsize
    · have hstays : ∀ new, answer = some new → s.Lists (p - M) → new = p - M := by
        rintro new rfl hlists
        have hstay := hfits hzero
        rw [if_neg hp0] at hstay
        exact (hstay hlists).2
      obtain ⟨hsame, hreply⟩ := State.SameRegions.miniRealloc hzero hp0 hstays hexec
      rw [Live.after, if_neg hzero, if_neg hp0]
      split_ifs with hnone
      · exact h.congr hsame
      · rw [not_or, Option.isNone_iff_eq_none] at hnone
        obtain rfl := hreply.resolve_left hnone.2
        exact (h.congr hsame).resize hnone.1 hp0

/-- A live payload is not released when its allocation ends. -/
theorem not_of_ends (h : Released M s live) (hkept : Bookkeeping M s live entries)
    (hlists : s.Lists (p - M)) (hsame : s.SameRegions s') : ¬ Released M s' (live.release p) := by
  intro hreleased
  have hregion : s.heap (p - M) ≠ none := by
    rw [h, BitVec.sub_add_cancel]
    exact hkept.lists_iff.mp hlists
  have hlive := (hreleased (p - M)).mp ((hsame _).mpr hregion)
  rw [BitVec.sub_add_cancel, Live.release, Function.update_self] at hlive
  exact hlive rfl

end Released

/-- The calls that keep the condition. -/
abbrev KeepingStep (M : Size) : State → Event → State → Prop :=
  Guarded (Step M) fun s e ↦ Keeps M s e.answer e.call

theorem released_of_run {events : List Event} (h : Run (KeepingStep M) State.init events s) :
    Released M s (liveAfter events) := by
  induction h with
  | nil => exact .init
  | snoc hrun hstep ih =>
    obtain ⟨hkeeps, hanswer, hexec⟩ := hstep
    obtain ⟨entries, hkept⟩ := exists_bookkeeping hrun.of_guarded
    rw [liveAfter_snoc]
    exact ih.of_exec hkept hanswer hkeeps hexec

/-- In a run whose calls keep the condition the allocated regions are those of the live
payloads, and the next call leaves it so exactly when it keeps the condition. -/
theorem released_iff_keeps {events : List Event} (h : Run (KeepingStep M) State.init events s) :
    Released M s (liveAfter events) ∧
    ∀ call answer, Answers M s call answer → (Keeps M s answer call ↔ ∃ s' reply,
      Step M s ⟨call, answer, reply⟩ s' ∧ Released M s' ((liveAfter events).after call reply)) := by
  have hreleased := released_of_run h
  obtain ⟨entries, hkept⟩ := exists_bookkeeping h.of_guarded
  refine ⟨hreleased, fun call answer hanswer ↦ ⟨fun hkeeps ↦ ?_, ?_⟩⟩
  · obtain ⟨s', reply, hexec, -⟩ := (hkept.exec_exactly hanswer).defined hkeeps.1
    exact ⟨s', reply, ⟨hanswer, hexec⟩, hreleased.of_exec hkept hanswer hkeeps hexec⟩
  · rintro ⟨s', reply, ⟨-, hexec⟩, hafter⟩
    refine ⟨(hkept.exec_exactly hanswer).condition hexec, ?_⟩
    match call with
    | .malloc _ | .calloc .. => trivial
    | .free p =>
      intro hlists
      obtain ⟨s₁, hfree, heq⟩ := Option.map_eq_some_iff.mp hexec
      obtain ⟨rfl, -⟩ := Prod.mk.inj heq
      exact hreleased.not_of_ends hkept hlists (.miniFree hfree) hafter
    | .realloc p r =>
      intro hzero hlists
      rw [Live.after, if_pos hzero] at hafter
      exact hreleased.not_of_ends hkept hlists (.realloc_zero hzero hexec) hafter

theorem exists_keeping_firstMalloc : ∃ s, Run (KeepingStep 32) State.init [firstMalloc] s := by
  obtain ⟨s, hrun, -⟩ := exists_run_firstMalloc
  obtain ⟨t, hstep, hnil⟩ := Run.cons_iff.mp hrun
  obtain rfl := Run.nil_iff.mp hnil
  exact ⟨t, Run.single ⟨⟨fun _ _ ↦ by decide, trivial⟩, hstep⟩⟩

/-- The allocation shrinks in place and keeps its region. -/
theorem released_iff_keeps_shrink : ∃ s s' reply, Run (KeepingStep 32) State.init [firstMalloc] s ∧
    Step 32 s ⟨.realloc 0x1020 ⟨4, 0, 0⟩, some 0x1000, reply⟩ s' ∧
    Released 32 s' ((liveAfter [firstMalloc]).after (.realloc 0x1020 ⟨4, 0, 0⟩) reply) := by
  obtain ⟨s, hrun⟩ := exists_keeping_firstMalloc
  have hanswer : Answers 32 s (.realloc 0x1020 ⟨4, 0, 0⟩) (some 0x1000) := by
    rintro mem ⟨⟩
    exact ⟨by decide, by decide, Or.inr ⟨_, _, rfl, by decide, by decide⟩⟩
  have hkeeps : Keeps 32 s (some 0x1000) (.realloc 0x1020 ⟨4, 0, 0⟩) :=
    ⟨fun _ _ ↦ ⟨by decide, by decide⟩, fun hzero ↦ by cases hzero⟩
  obtain ⟨s', reply, hstep⟩ := ((released_iff_keeps hrun).2 _ _ hanswer).mp hkeeps
  exact ⟨s, s', reply, hrun, hstep⟩

/-- The region of a freed payload is not released. -/
theorem freed_region_leaks : ∃ s, Run (Step 32) State.init
      [firstMalloc, ⟨.free 0x1020, none, 0⟩] s ∧
    liveAfter [firstMalloc, ⟨.free 0x1020, none, 0⟩] 0x1020 = none ∧ s.heap 0x1000 ≠ none := by
  obtain ⟨s, hrun⟩ := exists_keeping_firstMalloc
  obtain ⟨entries, hkept⟩ := exists_bookkeeping hrun.of_guarded
  obtain ⟨s', hfree, -⟩ := hkept.miniFree_correct 0x1020
  have hexec : s.exec 32 none (.free 0x1020) = some (s', 0) := by
    rw [State.exec, hfree, Option.map_some]
  have hregion : s.heap 0x1000 ≠ none := (released_of_run hrun 0x1000).mpr (by decide)
  refine ⟨s', hrun.of_guarded.append (Run.single ⟨?_, hexec⟩), by decide, ?_⟩
  · rintro mem ⟨⟩
  · exact (State.SameRegions.miniFree hfree 0x1000).mpr hregion

end SystemProgramming.MiniMemcheck
