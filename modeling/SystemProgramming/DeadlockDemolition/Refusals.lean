import SystemProgramming.DeadlockDemolition.Ownership

/-!
# When `drm_wait` refuses

A thread that asks for a drm gets a refusal exactly when it would otherwise sleep in a deadlock.
-/

namespace SystemProgramming.DeadlockDemolition

open Relation

variable {D T : Type*} [DecidableEq D] [DecidableEq T] {L : GraphListing (Vertex D T)}

namespace State

variable {s : State D T} {t u v : T} {d : D}

/-- The thread is inside `drm_wait` on a drm that another one owns. -/
def Awaits (s : State D T) (t u : T) : Prop :=
  ∃ d, (s.pc t).Waits d ∧ s.g.Adj (.drm d) (.thread u)

omit [DecidableEq D] [DecidableEq T] in
/-- The last edge of a path to a thread tells what it owns. -/
theorem Inv.owns_of_path (hinv : s.Inv) {x : Vertex D T}
    (h : TransGen s.g.Adj x (.thread t)) : ∃ d, s.g.Adj (.drm d) (.thread t) := by
  obtain ⟨y, -, hy⟩ := TransGen.tail'_iff.mp h
  cases y with
  | drm d => exact ⟨d, hy⟩
  | thread u =>
    obtain ⟨d, hd, -⟩ := (hinv.request u _).mp hy
    cases hd

omit [DecidableEq D] [DecidableEq T] in
/-- A path from a drm to a thread leads over the owners, each of which awaits the next. -/
theorem Inv.exists_owner (hinv : s.Inv) (h : TransGen s.g.Adj (.drm d) (.thread t)) :
    ∃ u, s.g.Adj (.drm d) (.thread u) ∧ ReflTransGen s.Awaits u t := by
  have hpath : ∀ x, TransGen s.g.Adj (.drm d) x →
      (∀ w, x = .thread w → ∃ u, s.g.Adj (.drm d) (.thread u) ∧ ReflTransGen s.Awaits u w) ∧
      (∀ e, x = .drm e → ∃ u w, s.g.Adj (.drm d) (.thread u) ∧ ReflTransGen s.Awaits u w ∧
        (s.pc w).Waits e) := by
    intro x hx
    induction hx with
    | single hstep =>
      refine ⟨fun w hw ↦ ⟨w, hw ▸ hstep, .refl⟩, fun e he ↦ ?_⟩
      obtain ⟨w, hw, -⟩ := hinv.owner d _ hstep
      rw [he] at hw
      cases hw
    | @tail y z _ hstep ih =>
      cases y with
      | drm e =>
        obtain ⟨u, w, hu, huw, hwaits⟩ := ih.2 e rfl
        obtain ⟨w', rfl, -⟩ := hinv.owner e _ hstep
        refine ⟨fun w'' hw'' ↦ ?_, fun e' he' ↦ by cases he'⟩
        cases hw''
        exact ⟨u, hu, huw.tail ⟨e, hwaits, hstep⟩⟩
      | thread w =>
        obtain ⟨u, hu, huw⟩ := ih.1 w rfl
        obtain ⟨e, rfl, hwaits⟩ := (hinv.request w _).mp hstep
        refine ⟨fun w' hw' ↦ (by cases hw'), fun e' he' ↦ ?_⟩
        cases he'
        exact ⟨u, w, hu, huw, hwaits⟩
  exact (hpath _ h).1 t rfl

omit [DecidableEq D] [DecidableEq T] in
/-- A thread that awaits another one sleeps on the mutex. -/
theorem Inv.blockedOn_of_awaits (hinv : s.Inv) (h : s.Awaits t u) : s.BlockedOn t u := by
  obtain ⟨d, hwaits, hadj⟩ := h
  obtain ⟨u', hu', hmtx⟩ := hinv.owner d _ hadj
  cases hu'
  rcases hwaits with hpc | hpc
  · exact ⟨d, hpc, hmtx⟩
  · -- behind the mutex the thread would own the drm that it requests
    obtain rfl : t = u := Option.some.inj ((hinv.got_holds t d hpc).symm.trans hmtx)
    have hreq : s.g.Adj (.thread t) (.drm d) := (hinv.request t _).mpr ⟨d, rfl, .inr hpc⟩
    exact absurd ((TransGen.single hreq).tail hadj) (hinv.acyclic _)

/-- What the first critical section does with a drm that is initialised. -/
theorem Inv.drmWait_known (hinv : s.Inv) (hd : Vertex.drm d ∈ s.g.vertices) :
    (TransGen s.g.Adj (.drm d) (.thread t) ∧ ∃ s', s.drmWait L (some d) t = some (some 0, s')) ∨
    (¬ TransGen s.g.Adj (.drm d) (.thread t) ∧
      ∃ g, s.drmWait L (some d) t = some (none, { s with g := g }.setPc t (.wantsMutex d)) ∧
        Acyclic g.Adj ∧ s.g.vertices ⊆ g.vertices ∧
        ∀ v w, g.Adj v w ↔ v = .thread t ∧ w = .drm d ∨ s.g.Adj v w) := by
  -- the graph with the thread among its vertices
  obtain ⟨g, hgdef, hg, hsub, hgd, hgt⟩ : ∃ g : FiniteDigraph (Vertex D T),
      (if Vertex.thread t ∉ s.g.vertices then s.g.addVertex (.thread t) else s.g) = g ∧
        (∀ v w, g.Adj v w ↔ s.g.Adj v w) ∧ s.g.vertices ⊆ g.vertices ∧
          Vertex.drm d ∈ g.vertices ∧ Vertex.thread t ∈ g.vertices := by
    refine ⟨_, rfl, ?_⟩
    by_cases ht : Vertex.thread t ∈ s.g.vertices
    · simp [ht, hd]
    · rw [if_pos ht]
      exact ⟨fun _ _ ↦ FiniteDigraph.addVertex_adj, Finset.subset_insert _ _, by simp [hd], by simp⟩
  have hreq : ∀ v w, (g.addEdge (.thread t) (.drm d)).Adj v w ↔
      v = .thread t ∧ w = .drm d ∨ s.g.Adj v w := by
    intro v w
    rw [FiniteDigraph.addEdge_adj hgt hgd, hg]
  have hcycle := hinv.acyclic.insert_edge_iff hreq
  rw [reflTransGen_iff_eq_or_transGen] at hcycle
  simp only [reduceCtorEq, false_or] at hcycle
  simp only [drmWait, hd, not_true_eq_false, if_false, hgdef]
  by_cases hown : g.Adj (.drm d) (.thread t)
  · refine Or.inl ⟨.single ((hg _ _).mp hown), ?_⟩
    rw [if_pos hown]
    exact ⟨_, rfl⟩
  · rw [if_neg hown]
    obtain ⟨b, hb, hexact⟩ := isCycle_spec L (g.addEdge (.thread t) (.drm d))
    rw [hb]
    cases b with
    | true =>
      left
      refine ⟨?_, _, rfl⟩
      by_contra hnot
      exact hexact.mp rfl (hcycle.mpr hnot)
    | false =>
      have hac : Acyclic (g.addEdge (.thread t) (.drm d)).Adj := by simpa using hexact
      exact Or.inr ⟨hcycle.mp hac, _, rfl, hac, hsub, hreq⟩

/-- `drm_wait` refuses a drm exactly when the thread would sleep on it in a deadlock, and asks for
its mutex otherwise. -/
theorem drmWait_refuses_iff (L : GraphListing (Vertex D T)) {events : List (Event D T)}
    (hrun : Run (StepOf (step L)) init events s) (hidle : s.pc t = .idle)
    (hd : Vertex.drm d ∈ s.g.vertices) : ∃ r, (s.drmWait L (some d) t).map Prod.fst = some r ∧
      (r = some 0 ∨ r = none) ∧
      (r = some 0 ↔ ∃ S : Set T, t ∈ S ∧
        ∀ u ∈ S, ∃ v ∈ S, (s.setPc t (.wantsMutex d)).BlockedOn u v) := by
  have hinv := inv_of_run hrun
  rcases hinv.drmWait_known (L := L) hd with ⟨hpath, s', hwait⟩ | ⟨-, g, hwait, hac, -, hg⟩
  · rw [hwait]
    refine ⟨some 0, rfl, Or.inl rfl, iff_of_true rfl ?_⟩
    obtain ⟨owner, howner, hchain⟩ := hinv.exists_owner hpath
    refine ⟨{u | ReflTransGen s.Awaits owner u ∧ ReflTransGen s.Awaits u t}, ⟨hchain, .refl⟩, ?_⟩
    rintro u ⟨hfrom, hto⟩
    by_cases hut : u = t
    · subst hut
      refine ⟨owner, ⟨.refl, hchain⟩, d, by simp [setPc], ?_⟩
      obtain ⟨owner', heq, hmtx⟩ := hinv.owner d _ howner
      cases heq
      exact hmtx
    · rcases hto.cases_head with heq | ⟨v, huv, hvt⟩
      · exact absurd heq hut
      · obtain ⟨e, hpc, hmtx⟩ := hinv.blockedOn_of_awaits huv
        exact ⟨v, ⟨hfrom.tail huv, hvt⟩, e, by simpa [setPc, hut] using hpc, hmtx⟩
  · rw [hwait]
    refine ⟨none, rfl, Or.inr rfl, iff_of_false (by simp) ?_⟩
    rintro ⟨S, ht, hS⟩
    -- the call goes on to a state without deadlock, where the same threads sleep
    exact (hinv.request_step hidle hac hg).no_deadlock S ⟨t, ht⟩ hS

/-- Each of two threads owns a drm and asks for the other one. -/
theorem drmWait_refuses_iff_two_drms : ∃ (L : GraphListing (Vertex (Fin 2) (Fin 2)))
    (s : State (Fin 2) (Fin 2)), s.BlockedOn 1 0 ∧
      (s.drmWait L (some 1) 0).map Prod.fst = some (some 0) := by
  let L : GraphListing (Vertex (Fin 2) (Fin 2)) :=
    GraphListing.ofEnumeration ((List.finRange 2).map .drm ++ (List.finRange 2).map .thread) (by
      rintro (d | t) <;> simp)
  let events : List (Event (Fin 2) (Fin 2)) := [.init 0, .init 1, .wait (some 0) 0, .lockMutex 0,
    .own 0, .wait (some 1) 1, .lockMutex 1, .own 1, .wait (some 0) 1]
  obtain ⟨s, hs⟩ : ∃ s, execute (step L) init events = some s := ⟨_, rfl⟩
  have hrun := Run.execute_eq_some_iff.mp hs
  obtain rfl := Option.some.inj hs
  obtain ⟨r, hr, -, hiff⟩ := drmWait_refuses_iff (t := 0) (d := 1) L hrun rfl (by decide)
  refine ⟨L, _, ⟨0, rfl, rfl⟩, hr.trans (congrArg some (hiff.mpr ⟨Set.univ, trivial, ?_⟩))⟩
  intro u _
  refine ⟨1 - u, trivial, 1 - u, ?_, ?_⟩
  all_goals fin_cases u <;> rfl

end State

end SystemProgramming.DeadlockDemolition
