import SystemProgramming.DeadlockDemolition.Refusals
import SystemProgramming.Lib.Termination

/-!
# The test of libdrm

`libdrm_tester.c`: a thread takes a drm, works and gives the drm back.  Here every thread does so
with any drms, one after another.
-/

namespace SystemProgramming.DeadlockDemolition

variable {D T : Type*} [DecidableEq D] [DecidableEq T] {L : GraphListing (Vertex D T)}

/-- The drms that each thread still has to give back, the one it takes next or works with first,
and whether an assertion has failed. -/
structure Tester (D T : Type*) where
  library : State D T
  left : T → List D
  working : T → Bool
  aborted : Bool

namespace Tester

inductive Event (T : Type*)
  | wait (t : T)
  | lockMutex (t : T)
  | own (t : T)
  | post (t : T)

/-- `main` in front of the first `pthread_create`, with several drms. -/
def start (drms : List D) (programs : T → List D) : Tester D T where
  library := drms.foldl State.drmInit State.init
  left := programs
  working _ := false
  aborted := false

def assert (s : Tester D T) (condition : Bool) : Tester D T :=
  { s with aborted := s.aborted || !condition }

/-- The steps of `thread_func`. -/
def step (L : GraphListing (Vertex D T)) (s : Tester D T) (e : Event T) : Option (Tester D T) :=
  if s.aborted then none
  else match e with
  | .wait t =>
    match s.left t with
    | [] => none
    | d :: _ =>
      if s.working t = false ∧ s.library.global = none ∧ s.library.pc t = .idle then
        match s.library.drmWait L (some d) t with
        | none => none
        | some (none, library) => some { s with library := library }
        | some (some lockAcquired, library) =>
          some ({ s with library := library }.assert (lockAcquired = 1))
      else none
  | .lockMutex t =>
    (s.library.step L (.lockMutex t)).map fun library ↦ { s with library := library }
  | .own t =>
    match s.library.pc t with
    | .gotMutex d =>
      if s.library.global = none then
        let (lockAcquired, library) := s.library.drmWaitOwn d t
        some ({ s with
          library := library, working := Function.update s.working t true
          }.assert (lockAcquired = 1))
      else none
    | _ => none
  | .post t =>
    match s.left t with
    | [] => none
    | d :: ds =>
      if s.working t = true ∧ s.library.global = none ∧ s.library.pc t = .idle then
        let (lockReleased, library) := s.library.drmPost (some d) t
        some ({ s with
          library := library, working := Function.update s.working t false
          left := Function.update s.left t ds }.assert (lockReleased = 1))
      else none

/-- The thread is between its `drm_wait` and its `drm_post`. -/
def WorksWith (s : Tester D T) (t : T) (d : D) : Prop :=
  s.working t = true ∧ (s.left t).head? = some d

/-- The ownership edges are those of the threads that work. -/
structure Inv (s : Tester D T) : Prop where
  library : s.library.Inv
  global : s.library.global = none
  running : s.aborted = false
  known : ∀ t, ∀ d ∈ s.left t, Vertex.drm d ∈ s.library.g.vertices
  owns : ∀ t d, s.library.g.Adj (.drm d) (.thread t) ↔ s.WorksWith t d
  waits : ∀ t d, (s.library.pc t).Waits d → s.working t = false ∧ (s.left t).head? = some d
  busy : ∀ t, s.working t = true → s.left t ≠ []

variable {s s' : Tester D T} {e : Event T} {es : List (Event T)} {t : T} {d : D} {ds : List D}

/-! ## The start -/

theorem foldl_drmInit {drms : List D} {library : State D T} (hinv : library.Inv)
    (hedges : ∀ v w, ¬ library.g.Adj v w) (hnodup : drms.Nodup)
    (hnew : ∀ d ∈ drms, Vertex.drm d ∉ library.g.vertices) :
    (drms.foldl State.drmInit library).Inv ∧
      (drms.foldl State.drmInit library).global = library.global ∧
      (drms.foldl State.drmInit library).pc = library.pc ∧
      (∀ v w, ¬ (drms.foldl State.drmInit library).g.Adj v w) ∧
      ∀ d, d ∈ drms ∨ Vertex.drm d ∈ library.g.vertices →
        Vertex.drm d ∈ (drms.foldl State.drmInit library).g.vertices := by
  induction drms generalizing library with
  | nil => exact ⟨hinv, rfl, rfl, hedges, fun d hd ↦ hd.resolve_left List.not_mem_nil⟩
  | cons d drms ih =>
    obtain ⟨hd, hnodup⟩ := List.nodup_cons.mp hnodup
    have hfresh : Vertex.drm d ∉ library.g.vertices := hnew d List.mem_cons_self
    obtain ⟨hinv', hglobal, hpc, hedges', hknown⟩ :=
      @ih (library.drmInit d) (hinv.drmInit hfresh) hedges hnodup fun d' hd' hmem ↦ by
        rcases FiniteDigraph.mem_addVertex.mp hmem with heq | hmem
        · cases heq
          exact hd hd'
        · exact hnew d' (List.mem_cons_of_mem _ hd') hmem
    refine ⟨hinv', hglobal, hpc, hedges', fun d' hd' ↦ hknown d' ?_⟩
    rcases hd' with hd' | hd'
    · rcases List.mem_cons.mp hd' with rfl | hd'
      · exact Or.inr (FiniteDigraph.mem_addVertex.mpr (Or.inl rfl))
      · exact Or.inl hd'
    · exact Or.inr (FiniteDigraph.mem_addVertex.mpr (Or.inr hd'))

theorem Inv.start {drms : List D} {programs : T → List D} (hnodup : drms.Nodup)
    (hknown : ∀ t, programs t ⊆ drms) : (start drms programs).Inv := by
  obtain ⟨hinv, hglobal, hpc, hedges, hmem⟩ :=
    foldl_drmInit (T := T) State.Inv.init (fun _ _ ↦ FiniteDigraph.not_empty_adj) hnodup
      fun d _ ↦ Finset.notMem_empty _
  refine ⟨hinv, hglobal, rfl, fun t d hd ↦ hmem d (Or.inl (hknown t hd)), fun t d ↦ ?_,
    fun t d hwaits ↦ ?_, fun t hworking ↦ ?_⟩
  · exact iff_of_false (hedges _ _) fun hworks ↦ Bool.false_ne_true hworks.1
  · simp only [Tester.start, hpc] at hwaits
    exact absurd hwaits (Pc.not_idle_waits d)
  · cases hworking

/-! ## The steps -/

/-- A thread that owns no drm is not refused. -/
theorem Inv.drmWait_eq (h : s.Inv) (hworking : s.working t = false)
    (hd : Vertex.drm d ∈ s.library.g.vertices) : ∃ g, s.library.drmWait L (some d) t =
        some (none, { s.library with g := g }.setPc t (.wantsMutex d)) ∧
      Acyclic g.Adj ∧ s.library.g.vertices ⊆ g.vertices ∧
      ∀ v w, g.Adj v w ↔ v = .thread t ∧ w = .drm d ∨ s.library.g.Adj v w := by
  rcases h.library.drmWait_known (L := L) hd with ⟨hpath, -⟩ | ⟨-, hwait⟩
  · obtain ⟨d', hd'⟩ := h.library.owns_of_path hpath
    obtain ⟨hworking', -⟩ := (h.owns t d').mp hd'
    exact absurd hworking' (by simp [hworking])
  · exact hwait

/-- No request is refused and no assertion fails. -/
theorem Inv.step_cases (h : s.Inv) (hstep : s.step L e = some s') :
    (∃ t d ds g, e = .wait t ∧ s.left t = d :: ds ∧ s.working t = false ∧
      s.library.pc t = .idle ∧ s.library.g.vertices ⊆ g.vertices ∧ Acyclic g.Adj ∧
      (∀ v w, g.Adj v w ↔ v = .thread t ∧ w = .drm d ∨ s.library.g.Adj v w) ∧
      s' = { s with library := { s.library with g := g }.setPc t (.wantsMutex d) }) ∨
    (∃ t d, e = .lockMutex t ∧ s.library.pc t = .wantsMutex d ∧ s.library.mtx d = none ∧
      s' = { s with library := (s.library.setMtx d (some t)).setPc t (.gotMutex d) }) ∨
    (∃ t d, e = .own t ∧ s.library.pc t = .gotMutex d ∧
      s' = { s with
        library := (s.library.drmWaitOwn d t).2, working := Function.update s.working t true }) ∨
    (∃ t d ds, e = .post t ∧ s.left t = d :: ds ∧ s.working t = true ∧ s.library.pc t = .idle ∧
      s' = { s with
        library := { s.library with
          g := s.library.g.removeEdge (.drm d) (.thread t) }.setMtx d none
        working := Function.update s.working t false, left := Function.update s.left t ds }) := by
  rw [Tester.step.eq_def, if_neg (by simp [h.running])] at hstep
  cases e with
  | wait t =>
    left
    cases hleft : s.left t with
    | nil => simp [hleft] at hstep
    | cons d ds =>
      simp only [hleft, Option.ite_none_right_eq_some] at hstep
      obtain ⟨⟨hworking, -, hpc⟩, hstep⟩ := hstep
      obtain ⟨g, hwait, hac, hsub, hadj⟩ :=
        h.drmWait_eq (L := L) hworking (h.known t d (by simp [hleft]))
      rw [hwait] at hstep
      exact ⟨t, d, ds, g, rfl, hleft, hworking, hpc, hsub, hac, hadj, by simpa using hstep.symm⟩
  | lockMutex t =>
    right; left
    obtain ⟨library, hlibrary, rfl⟩ := Option.map_eq_some_iff.mp hstep
    cases hpc : s.library.pc t with
    | wantsMutex d =>
      simp only [State.step, hpc, Option.ite_none_right_eq_some, Option.some.injEq] at hlibrary
      obtain ⟨hfree, rfl⟩ := hlibrary
      exact ⟨t, d, rfl, hpc, hfree, rfl⟩
    | idle => simp [State.step, hpc] at hlibrary
    | gotMutex d => simp [State.step, hpc] at hlibrary
  | own t =>
    right; right; left
    cases hpc : s.library.pc t with
    | gotMutex d =>
      simp only [hpc, Option.ite_none_right_eq_some, Option.some.injEq] at hstep
      obtain ⟨-, rfl⟩ := hstep
      exact ⟨t, d, rfl, hpc, by simp [assert, State.drmWaitOwn]⟩
    | idle => simp [hpc] at hstep
    | wantsMutex d => simp [hpc] at hstep
  | post t =>
    right; right; right
    cases hleft : s.left t with
    | nil => simp [hleft] at hstep
    | cons d ds =>
      simp only [hleft, Option.ite_none_right_eq_some, Option.some.injEq] at hstep
      obtain ⟨⟨hworking, -, hpc⟩, rfl⟩ := hstep
      have hadj : s.library.g.Adj (.drm d) (.thread t) :=
        (h.owns t d).mpr ⟨hworking, by simp [hleft]⟩
      exact ⟨t, d, ds, rfl, hleft, hworking, hpc, by simp [assert, State.drmPost, hadj]⟩

/-- The invariant follows the thread that takes the step. -/
theorem Inv.step (h : s.Inv) (hstep : s.step L e = some s') : s'.Inv := by
  rcases h.step_cases hstep with ⟨t, d, ds, g, -, hleft, hworking, hpc, hsub, hac, hadj, rfl⟩ |
    ⟨t, d, -, hpc, hfree, rfl⟩ | ⟨t, d, -, hpc, rfl⟩ | ⟨t, d, ds, -, hleft, hworking, hpc, rfl⟩
  · refine ⟨h.library.request_step hpc hac hadj, h.global, h.running,
      fun t d hd ↦ hsub (h.known t d hd), fun u d' ↦ ?_, fun u d' hwaits ↦ ?_, h.busy⟩
    · exact (hadj _ _).trans ((or_iff_right (by simp)).trans (h.owns u d'))
    · rcases eq_or_ne u t with rfl | hne
      · have hd : d = d' := by simpa [State.setPc, Pc.Waits] using hwaits
        exact ⟨hworking, by simp [hleft, hd]⟩
      · exact h.waits u d' (by simpa [State.setPc, hne] using hwaits)
  · refine ⟨h.library.lock_step hpc hfree, h.global, h.running, h.known, h.owns,
      fun u d' hwaits ↦ ?_, h.busy⟩
    rcases eq_or_ne u t with rfl | hne
    · obtain rfl : d = d' := by simpa [State.setPc, Pc.Waits] using hwaits
      exact h.waits u d (Or.inl hpc)
    · exact h.waits u d' (by simpa [State.setPc, State.setMtx, hne] using hwaits)
  · obtain ⟨hworking, hhead⟩ := h.waits t d (Or.inr hpc)
    have hreq : s.library.g.Adj (.thread t) (.drm d) :=
      (h.library.request t _).mpr ⟨d, rfl, Or.inr hpc⟩
    refine ⟨h.library.own_step hpc, h.global, h.running, h.known, fun u d' ↦ ?_,
      fun u d' hwaits ↦ ?_, fun u hu ↦ ?_⟩
    · change ((s.library.g.removeEdge _ _).addEdge _ _).Adj _ _ ↔ _
      rw [FiniteDigraph.addEdge_adj (by simpa using hreq.right_mem) (by simpa using hreq.left_mem),
        FiniteDigraph.removeEdge_adj, h.owns]
      rcases eq_or_ne u t with rfl | hne
      · simp only [WorksWith, hworking, hhead, Function.update_self, Option.some.injEq]
        grind
      · simp [WorksWith, hne]
    · rcases eq_or_ne u t with rfl | hne
      · simp [State.drmWaitOwn, State.setPc] at hwaits
      · have hwaits' : (s.library.pc u).Waits d' := by
          simpa [State.drmWaitOwn, State.setPc, hne] using hwaits
        simpa [hne] using h.waits u d' hwaits'
    · rcases eq_or_ne u t with rfl | hne
      · intro hnil
        change s.left u = [] at hnil
        rw [hnil] at hhead
        cases hhead
      · exact h.busy u (by simpa [hne] using hu)
  · have hadj : s.library.g.Adj (.drm d) (.thread t) := (h.owns t d).mpr ⟨hworking, by simp [hleft]⟩
    refine ⟨h.library.post_step hpc hadj, h.global, h.running, fun u d' hd' ↦ ?_, fun u d' ↦ ?_,
      fun u d' hwaits ↦ ?_, fun u hu ↦ ?_⟩
    · apply h.known u
      rcases eq_or_ne u t with rfl | hne
      · rw [hleft]
        exact List.mem_cons_of_mem d (by simpa using hd')
      · simpa [hne] using hd'
    · change (s.library.g.removeEdge _ _).Adj _ _ ↔ _
      rw [FiniteDigraph.removeEdge_adj, h.owns]
      rcases eq_or_ne u t with rfl | hne
      · simp only [WorksWith, hleft, Function.update_self, List.head?_cons, Option.some.injEq]
        grind
      · simp [WorksWith, hne]
    · rcases eq_or_ne u t with rfl | hne
      · simp [State.setMtx, hpc] at hwaits
      · simpa [hne] using h.waits u d' hwaits
    · rcases eq_or_ne u t with rfl | hne
      · simp at hu
      · simpa [hne] using h.busy u (by simpa [hne] using hu)

/-! ## Progress -/

/-- Whoever holds a mutex can go on. -/
theorem Inv.exists_step (h : s.Inv) (ht : s.left t ≠ []) : ∃ e s', s.step L e = some s' := by
  have hown {u : T} {d : D} (hpc : s.library.pc u = .gotMutex d) :
      ∃ e s', s.step L e = some s' := by
    exact ⟨.own u, _, by simp [Tester.step, h.running, hpc, h.global]; rfl⟩
  have hpost {u : T} (hworking : s.working u = true) : ∃ e s', s.step L e = some s' := by
    have hpc : s.library.pc u = .idle := by
      cases hpc : s.library.pc u with
      | idle => rfl
      | wantsMutex d => simp [(h.waits u d (Or.inl hpc)).1] at hworking
      | gotMutex d => simp [(h.waits u d (Or.inr hpc)).1] at hworking
    obtain ⟨d, ds, hleft⟩ := List.exists_cons_of_ne_nil (h.busy u hworking)
    exact ⟨.post u, _, by simp [Tester.step, h.running, hleft, hworking, h.global, hpc]; rfl⟩
  cases hpc : s.library.pc t with
  | gotMutex d => exact hown hpc
  | idle =>
    cases hworking : s.working t with
    | true => exact hpost hworking
    | false =>
      obtain ⟨d, ds, hleft⟩ := List.exists_cons_of_ne_nil ht
      obtain ⟨g, hwait, -⟩ := h.drmWait_eq (L := L) hworking (h.known t d (by simp [hleft]))
      exact ⟨.wait t, _, by simp [Tester.step, h.running, hleft, hworking, h.global, hpc, hwait]; rfl⟩
  | wantsMutex d =>
    cases hmtx : s.library.mtx d with
    | none => exact ⟨.lockMutex t, _, by simp [Tester.step, h.running, State.step, hpc, hmtx]; rfl⟩
    | some u =>
      rcases h.library.holder d u hmtx with hadj | hgot
      · exact hpost ((h.owns u d).mp hadj).1
      · exact hown hgot

/-- The steps behind a thread in its current round. -/
def stage (s : Tester D T) (t : T) : ℕ :=
  if s.working t then 3
  else match s.library.pc t with
    | .idle => 0
    | .wantsMutex _ => 1
    | .gotMutex _ => 2

def rest (s : Tester D T) (t : T) : ℕ := 4 * (s.left t).length - s.stage t

/-- Every step brings its thread forward and leaves the others. -/
theorem Inv.rest_step (h : s.Inv) (hstep : s.step L e = some s') :
    ∃ t, s'.rest t < s.rest t ∧ ∀ u, u ≠ t → s'.rest u = s.rest u := by
  have hpos {t : T} {d : D} (hhead : (s.left t).head? = some d) : 0 < (s.left t).length := by
    cases hleft : s.left t with
    | nil => simp [hleft] at hhead
    | cons d ds => exact Nat.succ_pos _
  rcases h.step_cases hstep with ⟨t, d, ds, g, -, hleft, hworking, hpc, -, -, -, rfl⟩ |
    ⟨t, d, -, hpc, -, rfl⟩ | ⟨t, d, -, hpc, rfl⟩ | ⟨t, d, ds, -, hleft, hworking, hpc, rfl⟩
  · refine ⟨t, ?_, fun u hne ↦ ?_⟩
    · simp [rest, stage, hworking, hpc, State.setPc, hleft]
    · simp [rest, stage, State.setPc, hne]
  · obtain ⟨hworking, hhead⟩ := h.waits t d (Or.inl hpc)
    have hlength := hpos hhead
    refine ⟨t, ?_, fun u hne ↦ ?_⟩
    · simp [rest, stage, hworking, hpc, State.setPc]
      omega
    · simp [rest, stage, State.setPc, State.setMtx, hne]
  · obtain ⟨hworking, hhead⟩ := h.waits t d (Or.inr hpc)
    have hlength := hpos hhead
    refine ⟨t, ?_, fun u hne ↦ ?_⟩
    · simp [rest, stage, hworking, hpc]
      omega
    · simp [rest, stage, State.drmWaitOwn, State.setPc, hne]
  · refine ⟨t, ?_, fun u hne ↦ ?_⟩
    · simp [rest, stage, hworking, hpc, State.setMtx, hleft]
      omega
    · simp [rest, stage, State.setMtx, hne]

theorem inv_of_run {drms : List D} {programs : T → List D} (hnodup : drms.Nodup)
    (hknown : ∀ t, programs t ⊆ drms)
    (hrun : Run (StepOf (Tester.step L)) (Tester.start drms programs) es s) : s.Inv :=
  hrun.invariant (fun _ _ _ h hstep ↦ h.step hstep) (Inv.start hnodup hknown)

/-- Threads that take drms and give them back, one at a time, under every schedule: no assertion
fails, no two of them work with the same drm, some thread can go on until all have returned,
each makes at most four steps for a drm, and at the end nothing is requested, owned or locked. -/
theorem tester_completes [Fintype T] (L : GraphListing (Vertex D T)) {drms : List D}
    {programs : T → List D} (hnodup : drms.Nodup) (hknown : ∀ t, programs t ⊆ drms)
    (hrun : Run (StepOf (Tester.step L)) (Tester.start drms programs) es s) :
    s.aborted = false ∧
    (∀ t u d, s.WorksWith t d → s.WorksWith u d → t = u) ∧
    ((∃ t, s.left t ≠ []) → ∃ e s', s.step L e = some s') ∧
    es.length ≤ 4 * ∑ t, (programs t).length ∧
    ((∀ t, s.left t = []) →
      (∀ v w, ¬ s.library.g.Adj v w) ∧ (∀ d, s.library.mtx d = none) ∧ s.library.global = none) := by
  have h := inv_of_run hnodup hknown hrun
  refine ⟨h.running, fun t u d ht hu ↦ ?_, fun ⟨t, ht⟩ ↦ h.exists_step ht, ?_, fun hdone ↦ ?_⟩
  · have heq := h.library.owner_unique ((h.owns t d).mpr ht) ((h.owns u d).mpr hu)
    exact Vertex.thread.inj heq
  · have hlength := Run.length_le (μ := fun s : Tester D T ↦ ∑ t, s.rest t)
      (fun _ _ _ h hstep ↦ h.step hstep) (fun _ _ _ h hstep ↦ ?_) hrun (Inv.start hnodup hknown)
    · have hstart : ∑ t, (Tester.start drms programs).rest t ≤ 4 * ∑ t, (programs t).length := by
        rw [Finset.mul_sum]
        exact Finset.sum_le_sum fun t _ ↦ Nat.sub_le _ _
      exact (Nat.le_add_right _ _).trans (hlength.trans hstart)
    · obtain ⟨t, hlt, hothers⟩ := h.rest_step hstep
      refine Finset.sum_lt_sum (fun u _ ↦ ?_) ⟨t, Finset.mem_univ t, hlt⟩
      rcases eq_or_ne u t with rfl | hne
      · exact hlt.le
      · exact (hothers u hne).le
  · have hidle : ∀ t d, ¬ (s.library.pc t).Waits d := by
      intro t d hwaits
      have hhead := (h.waits t d hwaits).2
      rw [hdone t] at hhead
      cases hhead
    have hedges : ∀ d t, ¬ s.library.g.Adj (.drm d) (.thread t) := by
      intro d t hadj
      have hhead := ((h.owns t d).mp hadj).2
      rw [hdone t] at hhead
      cases hhead
    refine ⟨fun v w hadj ↦ ?_, fun d ↦ ?_, h.global⟩
    · cases v with
      | drm d =>
        obtain ⟨t, rfl, -⟩ := h.library.owner d w hadj
        exact hedges d t hadj
      | thread t =>
        obtain ⟨d, -, hwaits⟩ := (h.library.request t w).mp hadj
        exact hidle t d hwaits
    · cases hmtx : s.library.mtx d with
      | none => rfl
      | some t =>
        rcases h.library.holder d t hmtx with hadj | hgot
        · exact absurd hadj (hedges d t)
        · exact absurd (Or.inr hgot) (hidle t d)

/-- The two threads of `main`, the second of which sleeps on the mutex for a while. -/
theorem tester_completes_two_threads : ∃ s : Tester (Fin 1) (Fin 2),
    Run (StepOf (Tester.step smallListing)) (Tester.start [0] fun _ ↦ [0])
      [.wait 0, .lockMutex 0, .own 0, .wait 1, .post 0, .lockMutex 1, .own 1, .post 1] s ∧
    s.aborted = false ∧ s.library.mtx 0 = none := by
  obtain ⟨s, hs⟩ : ∃ s, execute (Tester.step smallListing) (Tester.start [0] fun _ ↦ [0])
      [.wait 0, .lockMutex 0, .own 0, .wait 1, .post 0, .lockMutex 1, .own 1, .post 1] = some s :=
    ⟨_, rfl⟩
  have hrun := Run.execute_eq_some_iff.mp hs
  have hleft : ∀ t, s.left t = [] := by
    obtain rfl := Option.some.inj hs
    intro t
    fin_cases t <;> rfl
  obtain ⟨hrunning, -, -, -, hend⟩ :=
    tester_completes smallListing (List.nodup_singleton 0) (fun _ ↦ List.Subset.refl _) hrun
  exact ⟨s, hrun, hrunning, (hend hleft).2.1 0⟩

end Tester

end SystemProgramming.DeadlockDemolition
