import SystemProgramming.DeadlockDemolition.DeadlockFree

/-!
# The ownership edges of the resource graph

An edge from a drm to a thread appears in the second critical section of `drm_wait` and
goes away in `drm_post`.  In between the thread holds the mutex of the drm.
-/

namespace SystemProgramming.DeadlockDemolition

variable {D T : Type*} [DecidableEq D] [DecidableEq T] {L : GraphListing (Vertex D T)}

namespace State

variable {s s' : State D T} {d : D} {t : T} {e : Event D T} {events : List (Event D T)}

omit [DecidableEq D] [DecidableEq T] in
theorem Inv.owner_unique (hinv : s.Inv) {x y : Vertex D T} (hx : s.g.Adj (.drm d) x)
    (hy : s.g.Adj (.drm d) y) : x = y := by
  obtain ⟨t, rfl, ht⟩ := hinv.owner d x hx
  obtain ⟨u, rfl, hu⟩ := hinv.owner d y hy
  rw [Option.some.inj (ht.symm.trans hu)]

/-- Where an ownership edge comes from. -/
theorem adj_of_step (hinv : s.Inv) (h : s.step L e = some s')
    (hadj : s'.g.Adj (.drm d) (.thread t)) :
    s.g.Adj (.drm d) (.thread t) ∧ e ≠ .post (some d) t ∨ e = .own t ∧ s.pc t = .gotMutex d := by
  by_cases hpost : e = .post (some d) t
  · -- the edge is gone after the post
    subst hpost
    simp only [step, Option.ite_none_right_eq_some, Option.some.injEq] at h
    obtain ⟨-, rfl⟩ := h
    by_cases hown : s.g.Adj (.drm d) (.thread t)
    · simp [drmPost, hown, setMtx] at hadj
    · simp [drmPost, hown] at hadj
  rcases step_cases hinv h with ⟨d', rfl, -, rfl⟩ | ⟨hg, -, -⟩ | ⟨t', d', g, rfl, -, rfl, -, hg⟩ |
    ⟨t', d', rfl, -, -, rfl⟩ | ⟨t', d', rfl, -, -, rfl⟩ | ⟨t', d', rfl, hpc, rfl⟩
  · exact Or.inl ⟨hadj, hpost⟩
  · exact Or.inl ⟨(hg _ _).mp hadj, hpost⟩
  · rcases (hg _ _).mp hadj with ⟨hthread, -⟩ | hadj
    · cases hthread
    · exact Or.inl ⟨hadj, hpost⟩
  · exact Or.inl ⟨(FiniteDigraph.removeEdge_adj.mp hadj).2, hpost⟩
  · exact Or.inl ⟨hadj, hpost⟩
  · rcases FiniteDigraph.adj_of_addEdge hadj with ⟨hd, ht⟩ | hadj
    · cases hd
      cases ht
      exact Or.inr ⟨rfl, hpc⟩
    · exact Or.inl ⟨(FiniteDigraph.removeEdge_adj.mp hadj).2, hpost⟩

theorem inv_of_run (hrun : Run (StepOf (step L)) init events s) : s.Inv :=
  hrun.invariant (fun _ _ _ h hstep ↦ h.step hstep) Inv.init

/-- A thread with an ownership edge has got it from `drm_wait` and has not posted
since. -/
theorem own_of_adj (hrun : Run (StepOf (step L)) init events s)
    (hadj : s.g.Adj (.drm d) (.thread t)) : ∃ before since u, events = before ++ .own t :: since ∧
      Run (StepOf (step L)) init before u ∧ u.pc t = .gotMutex d ∧ .post (some d) t ∉ since := by
  induction hrun with
  | nil => exact absurd hadj FiniteDigraph.not_empty_adj
  | @snoc s s' events e hprev hlast ih =>
    rcases adj_of_step (inv_of_run hprev) hlast hadj with ⟨hadj, hpost⟩ | ⟨rfl, hpc⟩
    · obtain ⟨before, since, u, rfl, hu, hpc, hsince⟩ := ih hadj
      refine ⟨before, since ++ [e], u, by simp, hu, hpc, ?_⟩
      simpa [hsince] using hpost.symm
    · exact ⟨events, [], s, rfl, hprev, hpc, by simp⟩

theorem drmPost_of_not_adj {drm : Option D}
    (h : ∀ d, drm = some d → ¬ s.g.Adj (.drm d) (.thread t)) : s.drmPost drm t = (0, s) := by
  cases drm with
  | none => rfl
  | some d => simp [drmPost, h d rfl]

end State

/-- Ownership in every reachable state.  The value `0` of a `drm_wait` also stands for its
refusal because of a cycle. -/
theorem ownership_edges (L : GraphListing (Vertex D T)) (events : List (Event D T))
    (s : State D T) (hrun : Run (StepOf (State.step L)) State.init events s) :
    (∀ d x y, s.g.Adj (.drm d) x → s.g.Adj (.drm d) y → x = y) ∧
    (∀ d x, s.g.Adj (.drm d) x → ∃ t, x = .thread t ∧ s.mtx d = some t ∧
      ∃ before since u, events = before ++ .own t :: since ∧
        Run (StepOf (State.step L)) State.init before u ∧ u.pc t = .gotMutex d ∧
        (u.drmWaitOwn d t).1 = 1 ∧ .post (some d) t ∉ since) ∧
    (∀ drm t, (∀ d, drm = some d → ¬ s.g.Adj (.drm d) (.thread t)) → s.drmPost drm t = (0, s)) ∧
    (∀ drm t s', s.pc t = .idle → s.drmWait L drm t = some (some 0, s') →
      ∀ v w, s'.g.Adj v w ↔ s.g.Adj v w) := by
  have hinv := State.inv_of_run hrun
  refine ⟨fun d x y ↦ hinv.owner_unique, ?_, fun drm t ↦ State.drmPost_of_not_adj, ?_⟩
  · intro d x hadj
    obtain ⟨t, rfl, hmtx⟩ := hinv.owner d x hadj
    obtain ⟨before, since, u, hevents, hu, hpc, hsince⟩ := State.own_of_adj hrun hadj
    exact ⟨t, rfl, hmtx, before, since, u, hevents, hu, hpc, rfl, hsince⟩
  · intro drm t s' hidle hwait
    rcases State.drmWait_cases hinv hidle hwait with ⟨-, hg, -, -⟩ | ⟨d, g, -, heq, -⟩
    · exact hg
    · simp at heq

/-- Thread 0 owns the drm, and thread 1 posts it in vain. -/
theorem ownership_edges_one_drm : ∃ s : State (Fin 1) (Fin 2), s.g.Adj (.drm 0) (.thread 0) ∧
    s.mtx 0 = some 0 ∧ s.drmPost (some 0) 1 = (0, s) := by
  let events : List (Event (Fin 1) (Fin 2)) := [.init 0, .wait (some 0) 0, .lockMutex 0, .own 0]
  obtain ⟨s, hs⟩ : ∃ s, execute (State.step smallListing) State.init events = some s := ⟨_, rfl⟩
  have hrun := Run.execute_eq_some_iff.mp hs
  obtain rfl := Option.some.inj hs
  obtain ⟨-, howner, hpost, -⟩ := ownership_edges smallListing events _ hrun
  obtain ⟨t, ht, hmtx, -⟩ := howner 0 (.thread 0) (by decide)
  cases ht
  refine ⟨_, by decide, hmtx, hpost _ _ (by decide)⟩

end SystemProgramming.DeadlockDemolition
