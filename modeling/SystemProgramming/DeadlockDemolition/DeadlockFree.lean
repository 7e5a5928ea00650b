import SystemProgramming.DeadlockDemolition.IsCycle

/-!
# No cycle in the resource graph, no deadlock on the mutexes

The graph lags behind the mutexes: between locking a drm's mutex and the second
critical section a thread holds a drm that still points to nobody.  Such a thread
is not blocked, which is why the request and ownership edges are enough to find a
cycle among blocked threads.
-/

namespace SystemProgramming.DeadlockDemolition

open Relation

variable {D T : Type*} [DecidableEq D] [DecidableEq T] {L : GraphListing (Vertex D T)}

/-- The thread is inside `drm_wait` on this drm, past the first critical section. -/
def Pc.Waits (pc : Pc D) (d : D) : Prop := pc = .wantsMutex d ∨ pc = .gotMutex d

omit [DecidableEq D] in
@[simp] theorem Pc.not_idle_waits (d : D) : ¬ (Pc.idle : Pc D).Waits d := by simp [Pc.Waits]

omit [DecidableEq D] in
theorem Pc.Waits.unique {pc : Pc D} {d d' : D} (h : pc.Waits d) (h' : pc.Waits d') : d = d' := by
  rcases h with rfl | rfl <;> rcases h' with h' | h' <;> cases h' <;> rfl

namespace State

/-- The relation between edges, mutex holders and half-finished calls. -/
structure Inv (s : State D T) : Prop where
  acyclic : Acyclic s.g.Adj
  request : ∀ t x, s.g.Adj (.thread t) x ↔ ∃ d, x = .drm d ∧ (s.pc t).Waits d
  owner : ∀ d x, s.g.Adj (.drm d) x → ∃ t, x = .thread t ∧ s.mtx d = some t
  holder : ∀ d t, s.mtx d = some t → s.g.Adj (.drm d) (.thread t) ∨ s.pc t = .gotMutex d
  got_holds : ∀ t d, s.pc t = .gotMutex d → s.mtx d = some t

variable {s s' : State D T}

omit [DecidableEq D] [DecidableEq T] in
theorem Inv.init : Inv (init : State D T) where
  acyclic := fun v hv ↦ by
    obtain ⟨w, hvw, -⟩ := TransGen.head'_iff.mp hv
    exact FiniteDigraph.not_empty_adj hvw
  request := by simp [State.init]
  owner := by simp [State.init]
  holder := by simp [State.init]
  got_holds := by simp [State.init]

/-! ## What each step does -/

/-- The outcomes of the first critical section that do not lead to the mutex leave
every edge, mutex and position as it was. -/
theorem drmWait_cases (hinv : s.Inv) {t : T} (hidle : s.pc t = .idle) {drm : Option D}
    {r : Option ℤ × State D T} (h : s.drmWait L drm t = some r) :
    (r.1 = some 0 ∧ (∀ v w, r.2.g.Adj v w ↔ s.g.Adj v w) ∧ r.2.mtx = s.mtx ∧ r.2.pc = s.pc) ∨
    (∃ d g, drm = some d ∧ r = (none, { s with g := g }.setPc t (.wantsMutex d)) ∧
      Acyclic g.Adj ∧
      ∀ v w, g.Adj v w ↔ v = .thread t ∧ w = .drm d ∨ s.g.Adj v w) := by
  cases drm with
  | none =>
      obtain rfl : _ = r := by simpa [drmWait] using h
      exact Or.inl ⟨rfl, fun _ _ ↦ Iff.rfl, rfl, rfl⟩
  | some d =>
      by_cases hd : Vertex.drm d ∈ s.g.vertices
      · -- the graph with the thread among its vertices
        obtain ⟨g, hgdef, hg, hgd, hgt⟩ : ∃ g : FiniteDigraph (Vertex D T),
            (if Vertex.thread t ∉ s.g.vertices then s.g.addVertex (.thread t) else s.g) = g ∧
              (∀ v w, g.Adj v w ↔ s.g.Adj v w) ∧ Vertex.drm d ∈ g.vertices ∧
                Vertex.thread t ∈ g.vertices := by
          refine ⟨_, rfl, ?_⟩
          by_cases ht : Vertex.thread t ∈ s.g.vertices
          · simp [ht, hd]
          · simp [ht, hd]
        have hnew : ¬ g.Adj (.thread t) (.drm d) := by
          rw [hg, hinv.request]
          simp [hidle]
        simp only [drmWait, hd, not_true_eq_false, if_false, hgdef] at h
        by_cases hown : g.Adj (.drm d) (.thread t)
        · obtain rfl : _ = r := by simpa [hown] using h
          exact Or.inl ⟨rfl, hg, rfl, rfl⟩
        · rw [if_neg hown] at h
          obtain ⟨b, hb, hcycle⟩ := isCycle_spec L (g.addEdge (.thread t) (.drm d))
          rw [hb] at h
          cases b with
          | true =>
              obtain rfl : _ = r := by simpa using h
              refine Or.inl ⟨rfl, ?_, rfl, rfl⟩
              rw [FiniteDigraph.removeEdge_addEdge hnew]
              exact hg
          | false =>
              obtain rfl : _ = r := by simpa using h
              refine Or.inr ⟨d, g.addEdge (.thread t) (.drm d), rfl, rfl, ?_, fun v w ↦ ?_⟩
              · simpa using hcycle
              · rw [FiniteDigraph.addEdge_adj hgt hgd, hg]
      · obtain rfl : _ = r := by simpa [drmWait, hd] using h
        exact Or.inl ⟨rfl, fun _ _ ↦ Iff.rfl, rfl, rfl⟩

/-- Every step, one case for each way it changes the state. -/
theorem step_cases (hinv : s.Inv) {e : Event D T} (h : s.step L e = some s') :
    (∃ d, e = .init d ∧ Vertex.drm d ∉ s.g.vertices ∧ s' = s.drmInit d) ∨
    ((∀ v w, s'.g.Adj v w ↔ s.g.Adj v w) ∧ s'.mtx = s.mtx ∧ s'.pc = s.pc) ∨
    (∃ t d g, e = .wait (some d) t ∧ s.pc t = .idle ∧
      s' = { s with g := g }.setPc t (.wantsMutex d) ∧ Acyclic g.Adj ∧
      ∀ v w, g.Adj v w ↔ v = .thread t ∧ w = .drm d ∨ s.g.Adj v w) ∨
    (∃ t d, e = .post (some d) t ∧ s.pc t = .idle ∧ s.g.Adj (.drm d) (.thread t) ∧
      s' = { s with g := s.g.removeEdge (.drm d) (.thread t) }.setMtx d none) ∨
    (∃ t d, e = .lockMutex t ∧ s.pc t = .wantsMutex d ∧ s.mtx d = none ∧
      s' = (s.setMtx d (some t)).setPc t (.gotMutex d)) ∨
    (∃ t d, e = .own t ∧ s.pc t = .gotMutex d ∧ s' = (s.drmWaitOwn d t).2) := by
  cases e with
  | init d =>
      by_cases hok : s.global = none ∧ Vertex.drm d ∉ s.g.vertices
      · exact Or.inl ⟨d, rfl, hok.2, by simpa [step, hok] using h.symm⟩
      · simp [step, hok] at h
  | post drm t =>
      by_cases hok : s.global = none ∧ s.pc t = .idle
      · obtain rfl : (s.drmPost drm t).2 = s' := by simpa [step, hok] using h
        cases drm with
        | none => exact Or.inr (Or.inl ⟨fun _ _ ↦ Iff.rfl, rfl, rfl⟩)
        | some d =>
            by_cases hadj : s.g.Adj (.drm d) (.thread t)
            · refine Or.inr (Or.inr (Or.inr (Or.inl ⟨t, d, rfl, hok.2, hadj, ?_⟩)))
              simp [drmPost, hadj]
            · refine Or.inr (Or.inl ?_)
              simp [drmPost, hadj]
      · simp [step, hok] at h
  | wait drm t =>
      by_cases hok : s.global = none ∧ s.pc t = .idle
      · simp only [step, hok, and_self, if_true, Option.map_eq_some_iff] at h
        obtain ⟨r, hr, rfl⟩ := h
        rcases drmWait_cases hinv hok.2 hr with ⟨-, hg, hm, hp⟩ | ⟨d, g, rfl, rfl, hac, hg⟩
        · exact Or.inr (Or.inl ⟨hg, hm, hp⟩)
        · exact Or.inr (Or.inr (Or.inl ⟨t, d, g, rfl, hok.2, rfl, hac, hg⟩))
      · simp [step, hok] at h
  | lockMutex t =>
      cases hpc : s.pc t with
      | wantsMutex d =>
          by_cases hfree : s.mtx d = none
          · refine Or.inr (Or.inr (Or.inr (Or.inr (Or.inl ⟨t, d, rfl, hpc, hfree, ?_⟩))))
            simpa [step, hpc, hfree] using h.symm
          · simp [step, hpc, hfree] at h
      | idle => simp [step, hpc] at h
      | gotMutex d => simp [step, hpc] at h
  | own t =>
      cases hpc : s.pc t with
      | gotMutex d =>
          by_cases hfree : s.global = none
          · refine Or.inr (Or.inr (Or.inr (Or.inr (Or.inr ⟨t, d, rfl, hpc, ?_⟩))))
            simpa [step, hpc, hfree] using h.symm
          · simp [step, hpc, hfree] at h
      | idle => simp [step, hpc] at h
      | wantsMutex d => simp [step, hpc] at h

/-! ## The invariant is kept -/

namespace Inv

omit [DecidableEq D] [DecidableEq T] in
/-- The invariant reads the graph through its edges only. -/
theorem congr (hinv : s.Inv) (hg : ∀ v w, s'.g.Adj v w ↔ s.g.Adj v w) (hm : s'.mtx = s.mtx)
    (hp : s'.pc = s.pc) : s'.Inv where
  acyclic := hinv.acyclic.mono fun v w h ↦ (hg v w).mp h
  request := fun t x ↦ by rw [hg, hp]; exact hinv.request t x
  owner := fun d x h ↦ by rw [hm]; exact hinv.owner d x ((hg _ _).mp h)
  holder := fun d t h ↦ by rw [hg, hp]; exact hinv.holder d t (hm ▸ h)
  got_holds := fun t d h ↦ by rw [hm]; exact hinv.got_holds t d (hp ▸ h)

theorem drmInit (hinv : s.Inv) {d : D} (hd : Vertex.drm d ∉ s.g.vertices) :
    (s.drmInit d).Inv := by
  -- a fresh drm has no edge, so no thread holds it yet
  have hnot : ∀ x, ¬ s.g.Adj (.drm d) x := fun x h ↦ hd h.left_mem
  have hgot : ∀ t, s.pc t ≠ .gotMutex d := by
    intro t ht
    exact hd ((hinv.request t (.drm d)).mpr ⟨d, rfl, Or.inr ht⟩).right_mem
  refine ⟨hinv.acyclic, hinv.request, ?_, ?_, ?_⟩
  · intro d' x h
    obtain ⟨t, rfl, ht⟩ := hinv.owner d' x h
    have hne : d' ≠ d := fun heq ↦ hnot _ (heq ▸ h)
    exact ⟨t, rfl, by simpa [State.drmInit, setMtx, hne] using ht⟩
  · intro d' t h
    have hne : d' ≠ d := fun heq ↦ by simp [State.drmInit, setMtx, heq] at h
    exact hinv.holder d' t (by simpa [State.drmInit, setMtx, hne] using h)
  · intro t d' h
    have hne : d' ≠ d := fun heq ↦ hgot t (heq ▸ h)
    simpa [State.drmInit, setMtx, hne] using hinv.got_holds t d' h

omit [DecidableEq D] in
theorem request_step (hinv : s.Inv) {t : T} {d : D} {g : FiniteDigraph (Vertex D T)}
    (hidle : s.pc t = .idle) (hac : Acyclic g.Adj)
    (hg : ∀ v w, g.Adj v w ↔ v = .thread t ∧ w = .drm d ∨ s.g.Adj v w) :
    ({ s with g := g }.setPc t (.wantsMutex d)).Inv := by
  refine ⟨hac, ?_, ?_, ?_, ?_⟩
  · intro t' x
    change g.Adj (.thread t') x ↔ _
    rw [hg, hinv.request]
    by_cases heq : t' = t
    · subst heq
      simp [setPc, hidle, Pc.Waits]
    · simp [setPc, heq]
  · intro d' x h
    rcases (hg _ _).mp h with ⟨hcon, -⟩ | h
    · cases hcon
    · exact hinv.owner d' x h
  · intro d' t' h
    rcases hinv.holder d' t' h with hadj | hgot
    · exact Or.inl ((hg _ _).mpr (Or.inr hadj))
    · have hne : t' ≠ t := fun heq ↦ by simp [heq, hidle] at hgot
      exact Or.inr (by simpa [setPc, hne] using hgot)
  · intro t' d' h
    by_cases heq : t' = t
    · subst heq; simp [setPc] at h
    · exact hinv.got_holds t' d' (by simpa [setPc, heq] using h)

theorem post_step (hinv : s.Inv) {t : T} {d : D} (hidle : s.pc t = .idle)
    (hadj : s.g.Adj (.drm d) (.thread t)) :
    ({ s with g := s.g.removeEdge (.drm d) (.thread t) }.setMtx d none).Inv := by
  obtain ⟨t₀, heq, hmtx⟩ := hinv.owner d _ hadj
  obtain rfl : t = t₀ := Vertex.thread.inj heq
  refine ⟨?_, ?_, ?_, ?_, ?_⟩
  · exact hinv.acyclic.mono fun v w h ↦ (FiniteDigraph.removeEdge_adj.mp h).2
  · intro t' x
    change (s.g.removeEdge _ _).Adj _ _ ↔ _
    rw [FiniteDigraph.removeEdge_adj]
    simpa [setMtx] using hinv.request t' x
  · intro d' x h
    obtain ⟨hnot, h⟩ := FiniteDigraph.removeEdge_adj.mp h
    obtain ⟨t', rfl, ht'⟩ := hinv.owner d' x h
    by_cases hd : d' = d
    · subst hd
      obtain rfl : t = t' := Option.some.inj (hmtx.symm.trans ht')
      simp at hnot
    · exact ⟨t', rfl, by simpa [setMtx, hd] using ht'⟩
  · intro d' t' h
    have hne : d' ≠ d := fun heq ↦ by simp [setMtx, heq] at h
    rcases hinv.holder d' t' (by simpa [setMtx, hne] using h) with hadj' | hgot
    · exact Or.inl (FiniteDigraph.removeEdge_adj.mpr ⟨by simp [hne], hadj'⟩)
    · exact Or.inr hgot
  · intro t' d' h
    have hold := hinv.got_holds t' d' h
    have hne : d' ≠ d := by
      rintro rfl
      obtain rfl : t = t' := Option.some.inj (hmtx.symm.trans hold)
      simp [setMtx, hidle] at h
    simpa [setMtx, hne] using hold

theorem lock_step (hinv : s.Inv) {t : T} {d : D} (hpc : s.pc t = .wantsMutex d)
    (hfree : s.mtx d = none) : ((s.setMtx d (some t)).setPc t (.gotMutex d)).Inv := by
  have hnone : ∀ x, ¬ s.g.Adj (.drm d) x := by
    intro x h
    obtain ⟨t', -, ht'⟩ := hinv.owner d x h
    simp [hfree] at ht'
  refine ⟨hinv.acyclic, ?_, ?_, ?_, ?_⟩
  · intro t' x
    change s.g.Adj _ _ ↔ _
    rw [hinv.request]
    by_cases heq : t' = t
    · subst heq
      simp [setPc, setMtx, hpc, Pc.Waits]
    · simp [setPc, setMtx, heq]
  · intro d' x h
    obtain ⟨t', rfl, ht'⟩ := hinv.owner d' x h
    have hne : d' ≠ d := fun heq ↦ hnone _ (heq ▸ h)
    exact ⟨t', rfl, by simpa [setPc, setMtx, hne] using ht'⟩
  · intro d' t' h
    by_cases hd : d' = d
    · subst hd
      obtain rfl : t = t' := by simpa [setPc, setMtx] using h
      exact Or.inr (by simp [setPc])
    · rcases hinv.holder d' t' (by simpa [setPc, setMtx, hd] using h) with hadj | hgot
      · exact Or.inl hadj
      · have hne : t' ≠ t := fun heq ↦ by simp [heq, hpc] at hgot
        exact Or.inr (by simpa [setPc, setMtx, hne] using hgot)
  · intro t' d' h
    by_cases heq : t' = t
    · subst heq
      obtain rfl : d = d' := by simpa [setPc] using h
      simp [setPc, setMtx]
    · have hold := hinv.got_holds t' d' (by simpa [setPc, setMtx, heq] using h)
      have hne : d' ≠ d := fun hd ↦ by simp [hd, hfree] at hold
      simpa [setPc, setMtx, hne] using hold

/-- The request edge is turned around.  Its thread has no other request, so the
ownership edge ends in a vertex without successors. -/
theorem own_step (hinv : s.Inv) {t : T} {d : D} (hpc : s.pc t = .gotMutex d) :
    (s.drmWaitOwn d t).2.Inv := by
  have hreq : s.g.Adj (.thread t) (.drm d) := (hinv.request t _).mpr ⟨d, rfl, Or.inr hpc⟩
  have hmtx := hinv.got_holds t d hpc
  have hg : ∀ v w, (s.drmWaitOwn d t).2.g.Adj v w ↔
      v = .drm d ∧ w = .thread t ∨ ¬ (v = .thread t ∧ w = .drm d) ∧ s.g.Adj v w := by
    intro v w
    change ((s.g.removeEdge _ _).addEdge _ _).Adj v w ↔ _
    rw [FiniteDigraph.addEdge_adj (by simpa using hreq.right_mem) (by simpa using hreq.left_mem),
      FiniteDigraph.removeEdge_adj]
  have hpc' : ∀ t', (s.drmWaitOwn d t).2.pc t' = if t' = t then .idle else s.pc t' := by
    intro t'
    simp [drmWaitOwn, setPc, Function.update_apply]
  have hm' : (s.drmWaitOwn d t).2.mtx = s.mtx := rfl
  have honly : ∀ w, s.g.Adj (.thread t) w → w = .drm d := by
    intro w hw
    obtain ⟨d', rfl, hd'⟩ := (hinv.request t w).mp hw
    rw [hd'.unique (Or.inr hpc)]
  refine ⟨?_, ?_, ?_, ?_, ?_⟩
  · have hrest : Acyclic fun v w ↦ ¬ (v = .thread t ∧ w = .drm d) ∧ s.g.Adj v w :=
      hinv.acyclic.mono fun v w h ↦ h.2
    refine hrest.insert_sink (a := Vertex.drm d) (b := Vertex.thread t) (by simp) ?_ ?_
    · rintro w ⟨hnot, hw⟩
      exact hnot ⟨rfl, honly w hw⟩
    · intro v w h
      exact ((hg v w).mp h).symm
  · intro t' x
    rw [hg, hpc']
    by_cases heq : t' = t
    · subst heq
      simpa using fun hnot hx ↦ hnot (honly x hx)
    · simp [heq, hinv.request]
  · intro d' x h
    rcases (hg _ _).mp h with ⟨hv, rfl⟩ | ⟨-, h⟩
    · obtain rfl : d' = d := Vertex.drm.inj hv
      exact ⟨t, rfl, hmtx⟩
    · exact hinv.owner d' x h
  · intro d' t' h
    rcases hinv.holder d' t' h with hadj | hgot
    · exact Or.inl ((hg _ _).mpr (Or.inr ⟨by simp, hadj⟩))
    · by_cases heq : t' = t
      · subst heq
        have hwaits : (s.pc t').Waits d' := Or.inr hgot
        have hd : d' = d := hwaits.unique (Or.inr hpc)
        exact Or.inl ((hg _ _).mpr (Or.inl ⟨by rw [hd], rfl⟩))
      · exact Or.inr (by rw [hpc', if_neg heq]; exact hgot)
  · intro t' d' h
    rw [hpc'] at h
    by_cases heq : t' = t
    · simp [heq] at h
    · exact hinv.got_holds t' d' (by simpa [heq] using h)

theorem step (hinv : s.Inv) {e : Event D T} (h : s.step L e = some s') : s'.Inv := by
  rcases step_cases hinv h with ⟨d, -, hd, rfl⟩ | ⟨hg, hm, hp⟩ | ⟨t, d, g, -, hidle, rfl, hac, hg⟩ |
    ⟨t, d, -, hidle, hadj, rfl⟩ | ⟨t, d, -, hpc, hfree, rfl⟩ | ⟨t, d, -, hpc, rfl⟩
  · exact hinv.drmInit hd
  · exact hinv.congr hg hm hp
  · exact hinv.request_step hidle hac hg
  · exact hinv.post_step hidle hadj
  · exact hinv.lock_step hpc hfree
  · exact hinv.own_step hpc

end Inv

/-- The thread sleeps in `pthread_mutex_lock(&drm->mtx)` on a drm held by `t'`. -/
def BlockedOn (s : State D T) (t t' : T) : Prop :=
  ∃ d, s.pc t = .wantsMutex d ∧ s.mtx d = some t'

omit [DecidableEq D] [DecidableEq T] in
/-- A blocked thread whose drm is held by a blocked thread has a path to it. -/
theorem Inv.path_of_blockedOn (hinv : s.Inv) {t t' u : T} (h : s.BlockedOn t t')
    (h' : s.BlockedOn t' u) : TransGen s.g.Adj (.thread t) (.thread t') := by
  obtain ⟨d, hpc, hmtx⟩ := h
  obtain ⟨d', hpc', -⟩ := h'
  have hreq : s.g.Adj (.thread t) (.drm d) := (hinv.request t _).mpr ⟨d, rfl, Or.inl hpc⟩
  rcases hinv.holder d t' hmtx with hown | hgot
  · exact (TransGen.single hreq).tail hown
  · -- a thread that is not past the second section yet is not blocked
    simp [hpc'] at hgot

omit [DecidableEq D] [DecidableEq T] in
theorem Inv.no_deadlock (hinv : s.Inv) (S : Set T) (hne : S.Nonempty) :
    ¬ ∀ t ∈ S, ∃ t' ∈ S, s.BlockedOn t t' := by
  intro hblocked
  refine hinv.acyclic.not_forall_exists s.g.finite_sources (S := Vertex.thread '' S)
    (hne.image _) ?_
  rintro _ ⟨t, ht, rfl⟩
  obtain ⟨t', ht', hb⟩ := hblocked t ht
  obtain ⟨u, -, hb'⟩ := hblocked t' ht'
  exact ⟨.thread t', ⟨t', ht', rfl⟩, hinv.path_of_blockedOn hb hb'⟩

end State

/-- In every state reached by any interleaving of the threads' steps, the resource
graph is acyclic, and no nonempty set of threads is deadlocked on the drms' mutexes. -/
theorem deadlock_free (L : GraphListing (Vertex D T)) (events : List (Event D T))
    (s : State D T) (hrun : Run (StepOf (State.step L)) State.init events s) :
    Acyclic s.g.Adj ∧
      ∀ S : Set T, S.Nonempty → ¬ ∀ t ∈ S, ∃ t' ∈ S, s.BlockedOn t t' := by
  have hinv : s.Inv := hrun.invariant (fun _ _ _ h hstep ↦ h.step hstep) State.Inv.init
  exact ⟨hinv.acyclic, hinv.no_deadlock⟩

/-- The vertices of one drm and two threads. -/
def smallListing : GraphListing (Vertex (Fin 1) (Fin 2)) :=
  GraphListing.ofEnumeration ((List.finRange 1).map .drm ++ (List.finRange 2).map .thread) (by
    rintro (d | t) <;> simp)

/-- Thread 0 owns the drm and thread 1 sleeps on its mutex. -/
theorem deadlock_free_one_drm :
    ∃ s : State (Fin 1) (Fin 2), s.BlockedOn 1 0 ∧ Acyclic s.g.Adj ∧
      ∀ S : Set (Fin 2), S.Nonempty → ¬ ∀ t ∈ S, ∃ t' ∈ S, s.BlockedOn t t' :=
  ⟨_, ⟨0, rfl, rfl⟩, deadlock_free smallListing
    [.init 0, .wait (some 0) 0, .lockMutex 0, .own 0, .wait (some 0) 1] _
    (Run.execute_eq_some_iff.mp rfl)⟩

end SystemProgramming.DeadlockDemolition
