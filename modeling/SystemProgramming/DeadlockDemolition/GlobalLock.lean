import SystemProgramming.DeadlockDemolition.DeadlockFree

/-!
# The global mutex

Every function of `libdrm.c` locks the global mutex.  Two returns of `drm_wait` leave it
locked, and `drm_destroy` destroys it.
-/

namespace SystemProgramming.DeadlockDemolition

variable {D T : Type*} [DecidableEq D] [DecidableEq T] {L : GraphListing (Vertex D T)}

/-- A state with the condition of the global mutex. -/
structure Library (D T : Type*) where
  state : State D T
  usable : Bool

/-- The calls of the library, `drm_destroy` among them.  A `drm_init` for which `malloc`
fails returns before it locks anything. -/
inductive Call (D T : Type*)
  | critical (e : Event D T)
  | initFails
  | destroy (drm : Option D) (threadId : T)

namespace Library

def init : Library D T := ⟨State.init, true⟩

/-- `drm_destroy` of a null pointer has no next state, nor has the destruction of a mutex
that is locked. -/
def drmDestroy (s : Library D T) (drm : Option D) : Option (Library D T) :=
  match drm with
  | none => none
  | some drm =>
      if s.state.global = none then
        some ⟨{ s.state with g := s.state.g.removeVertex (.drm drm) }, false⟩
      else none

/-- A step of a thread.  Only the lock of a drm's mutex does without the global one, which
must not be used after its destruction. -/
def step (L : GraphListing (Vertex D T)) (s : Library D T) : Call D T → Option (Library D T)
  | .critical (.lockMutex t) => (s.state.step L (.lockMutex t)).map fun state ↦ { s with state }
  | .critical e =>
      if s.usable then (s.state.step L e).map fun state ↦ { s with state } else none
  | .initFails => some s
  | .destroy drm threadId =>
      if s.usable ∧ s.state.pc threadId = .idle then s.drmDestroy drm else none

/-- No thread that is outside the library holds the global mutex, and it can be locked. -/
structure Unlocked (s : Library D T) : Prop where
  global : s.state.global = none
  usable : s.usable = true

/-- The calls that return with the global mutex as they found it. -/
def Releases (s : Library D T) : Call D T → Prop
  | .critical (.wait drm _) => ∃ d, drm = some d ∧ Vertex.drm d ∈ s.state.g.vertices
  | .destroy _ _ => False
  | _ => True

end Library

namespace State

variable {s s' : State D T} {t : T}

theorem drmPost_global (drm : Option D) : (s.drmPost drm t).2.global = s.global := by
  cases drm with
  | none => rfl
  | some d =>
      simp only [drmPost]
      split <;> rfl

/-- The first critical section of `drm_wait` on a vertex of the graph unlocks the mutex on
every return. -/
theorem drmWait_global {d : D} (hd : Vertex.drm d ∈ s.g.vertices) {r : Option ℤ × State D T}
    (h : s.drmWait L (some d) t = some r) : r.2.global = s.global := by
  simp only [drmWait, hd, not_true_eq_false, if_false] at h
  generalize (if Vertex.thread t ∉ s.g.vertices then s.g.addVertex (.thread t) else s.g) = g at h
  split at h
  · rw [← Option.some.inj h]
  · split at h
    · simp at h
    · rw [← Option.some.inj h]
    · rw [← Option.some.inj h]
      rfl

theorem drmWait_returns (drm : Option D) : ∃ r, s.drmWait L drm t = some r := by
  cases drm with
  | none => exact ⟨_, rfl⟩
  | some d =>
      simp only [drmWait]
      generalize (if Vertex.thread t ∉ s.g.vertices then s.g.addVertex (.thread t) else s.g) = g
      obtain ⟨found, hcycle, -⟩ := isCycle_spec L (g.addEdge (.thread t) (.drm d))
      rw [hcycle]
      split
      · exact ⟨_, rfl⟩
      · split
        · exact ⟨_, rfl⟩
        · cases found with
          | true => exact ⟨_, rfl⟩
          | false => exact ⟨_, rfl⟩

/-- The other two returns keep it. -/
theorem drmWait_leaks {drm : Option D} (hdrm : ∀ d, drm = some d → Vertex.drm d ∉ s.g.vertices) :
    s.drmWait L drm t = some (some 0, { s with global := some t }) := by
  cases drm with
  | none => rfl
  | some d => simp only [drmWait, hdrm d rfl, not_false_eq_true, if_true]

theorem step_global {e : Event D T}
    (hwait : ∀ drm t, e = .wait drm t → ∃ d, drm = some d ∧ Vertex.drm d ∈ s.g.vertices)
    (h : s.step L e = some s') : s'.global = s.global := by
  cases e with
  | init d =>
      simp only [step, Option.ite_none_right_eq_some, Option.some.injEq] at h
      rw [← h.2]
      rfl
  | post drm t =>
      simp only [step, Option.ite_none_right_eq_some, Option.some.injEq] at h
      rw [← h.2, drmPost_global]
  | wait drm t =>
      obtain ⟨d, rfl, hd⟩ := hwait drm t rfl
      simp only [step, Option.ite_none_right_eq_some, Option.map_eq_some_iff] at h
      obtain ⟨-, r, hr, rfl⟩ := h
      exact drmWait_global hd hr
  | lockMutex t =>
      simp only [step] at h
      split at h
      · obtain ⟨-, h⟩ := Option.ite_none_right_eq_some.mp h
        rw [← Option.some.inj h]
        rfl
      · simp at h
  | own t =>
      simp only [step] at h
      split at h
      · obtain ⟨-, h⟩ := Option.ite_none_right_eq_some.mp h
        rw [← Option.some.inj h]
        rfl
      · simp at h

end State

namespace Library

variable {s s' : Library D T} {c : Call D T}

/-- The sections that begin with the lock of the global mutex can begin. -/
theorem Unlocked.not_blocked (h : s.Unlocked) (drm : Option D) (t : T) :
    (s.state.pc t = .idle → (s.step L (.critical (.post drm t))).isSome ∧
      (s.step L (.critical (.wait drm t))).isSome) ∧
    (∀ d, Vertex.drm d ∉ s.state.g.vertices → (s.step L (.critical (.init d))).isSome) ∧
    (∀ d, s.state.pc t = .gotMutex d → (s.step L (.critical (.own t))).isSome) := by
  refine ⟨fun hidle ↦ ⟨?_, ?_⟩, fun d hd ↦ ?_, fun d hpc ↦ ?_⟩
  · simp [step, State.step, h.usable, h.global, hidle]
  · obtain ⟨r, hr⟩ := State.drmWait_returns (L := L) (s := s.state) (t := t) drm
    simp [step, State.step, h.usable, h.global, hidle, hr]
  · simp [step, State.step, h.usable, h.global, hd]
  · simp [step, State.step, h.usable, h.global, hpc]

theorem Unlocked.step (h : s.Unlocked) (hreleases : s.Releases c) (hstep : s.step L c = some s') :
    s'.Unlocked := by
  cases c with
  | critical e =>
      have hstate : ∃ state, s.state.step L e = some state ∧ { s with state } = s' := by
        cases e with
        | lockMutex t => exact Option.map_eq_some_iff.mp hstep
        | init d => simpa [Library.step, h.usable] using hstep
        | post drm t => simpa [Library.step, h.usable] using hstep
        | wait drm t => simpa [Library.step, h.usable] using hstep
        | own t => simpa [Library.step, h.usable] using hstep
      obtain ⟨state, hstate, rfl⟩ := hstate
      refine ⟨?_, h.usable⟩
      rw [← h.global]
      apply State.step_global _ hstate
      rintro drm t rfl
      exact hreleases
  | initFails =>
      obtain rfl := Option.some.inj hstep
      exact h
  | destroy drm t => exact hreleases.elim

/-- Any other call leaves the mutex locked or destroyed. -/
theorem not_unlocked_of_not_releases (hreleases : ¬ s.Releases c)
    (hstep : s.step L c = some s') : ¬ s'.Unlocked := by
  intro h'
  apply hreleases
  cases c with
  | critical e =>
      cases e with
      | wait drm t =>
          by_contra hdrm
          simp only [Releases, not_exists, not_and] at hdrm
          have hleak := State.drmWait_leaks (L := L) (s := s.state) (t := t) hdrm
          simp only [Library.step, State.step, hleak, Option.map_some,
            Option.ite_none_right_eq_some, Option.map_eq_some_iff, Option.some.injEq] at hstep
          obtain ⟨-, state, ⟨-, rfl⟩, rfl⟩ := hstep
          simpa using h'.global
      | _ => trivial
  | initFails => trivial
  | destroy drm t =>
      cases drm with
      | none => simp [Library.step, drmDestroy] at hstep
      | some d =>
          simp only [Library.step, drmDestroy, Option.ite_none_right_eq_some,
            Option.some.injEq] at hstep
          obtain ⟨-, -, rfl⟩ := hstep
          simpa using h'.usable

end Library

/-- The global mutex is free and usable in all states of a run if and only if every call
of the run releases it.  In such a state no call is kept waiting. -/
theorem global_released_iff (L : GraphListing (Vertex D T)) (calls : List (Call D T))
    (s : Library D T) (hrun : Run (StepOf (Library.step L)) Library.init calls s) :
    ((∀ before after u, calls = before ++ after →
        Run (StepOf (Library.step L)) Library.init before u → u.Unlocked) ↔
      Run (Guarded (StepOf (Library.step L)) Library.Releases) Library.init calls s) ∧
    (s.Unlocked → ∀ drm t,
      (s.state.pc t = .idle → (s.step L (.critical (.post drm t))).isSome ∧
        (s.step L (.critical (.wait drm t))).isSome) ∧
      (∀ d, Vertex.drm d ∉ s.state.g.vertices → (s.step L (.critical (.init d))).isSome) ∧
      (∀ d, s.state.pc t = .gotMutex d → (s.step L (.critical (.own t))).isSome)) := by
  refine ⟨?_, fun h drm t ↦ h.not_blocked drm t⟩
  apply Run.forall_visited_iff_guarded (I := Library.Unlocked)
  · exact fun _ h ↦ h
  · exact fun _ _ _ h hreleases hstep ↦ h.step hreleases hstep
  · exact fun _ _ _ _ hreleases hstep ↦ Library.not_unlocked_of_not_releases hreleases hstep
  · exact ⟨rfl, rfl⟩
  · exact hrun

/-- A drm is taken and given back. -/
theorem global_released_one_drm : ∃ s : Library (Fin 1) (Fin 2),
    Run (StepOf (Library.step smallListing)) Library.init [.critical (.init 0),
      .critical (.wait (some 0) 0), .critical (.lockMutex 0), .critical (.own 0),
      .critical (.post (some 0) 0)] s ∧ s.Unlocked := by
  let calls : List (Call (Fin 1) (Fin 2)) := [.critical (.init 0), .critical (.wait (some 0) 0),
    .critical (.lockMutex 0), .critical (.own 0), .critical (.post (some 0) 0)]
  obtain ⟨s, hs⟩ : ∃ s, execute (Library.step smallListing) Library.init calls = some s :=
    ⟨_, rfl⟩
  have hrun := Run.execute_eq_some_iff.mp hs
  obtain ⟨s₁, h₁, hrest⟩ := Run.cons_iff.mp hrun
  obtain ⟨s₂, h₂, hrest⟩ := Run.cons_iff.mp hrest
  obtain ⟨s₃, h₃, hrest⟩ := Run.cons_iff.mp hrest
  obtain ⟨s₄, h₄, hrest⟩ := Run.cons_iff.mp hrest
  obtain ⟨s₅, h₅, hrest⟩ := Run.cons_iff.mp hrest
  obtain rfl := Run.nil_iff.mp hrest
  have hvertex : Library.Releases s₁ (.critical (.wait (some 0) 0)) := by
    obtain rfl := Option.some.inj h₁
    exact ⟨0, rfl, by decide⟩
  have hguarded : Run (Guarded (StepOf (Library.step smallListing)) Library.Releases)
      Library.init calls s₅ :=
    .cons ⟨trivial, h₁⟩ (.cons ⟨hvertex, h₂⟩ (.cons ⟨trivial, h₃⟩ (.cons ⟨trivial, h₄⟩
      (.single ⟨trivial, h₅⟩))))
  refine ⟨s₅, hrun, ?_⟩
  exact (global_released_iff smallListing calls s₅ hrun).1.mpr hguarded calls [] s₅ rfl hrun

/-- `drm_wait(NULL)` returns with the global mutex locked, and every later call waits. -/
theorem null_wait_blocks : ∃ s : Library (Fin 1) (Fin 2),
    Run (StepOf (Library.step smallListing)) Library.init [.critical (.wait none 0)] s ∧
      ¬ s.Unlocked ∧ ∀ drm t, s.step smallListing (.critical (.post drm t)) = none ∧
        s.step smallListing (.critical (.wait drm t)) = none := by
  refine ⟨⟨{ State.init with global := some 0 }, true⟩, Run.single rfl, ?_, ?_⟩
  · intro h
    simpa using h.global
  · intro drm t
    exact ⟨rfl, rfl⟩

end SystemProgramming.DeadlockDemolition
