import SystemProgramming.ParallelMake.Model

/-!
# The targets handed to the workers

On an acyclic graph the search returns, and the set it builds holds every target
except the empty one.
-/

namespace SystemProgramming.ParallelMake

namespace Makefile

variable {Target : Type*} [DecidableEq Target] {M : Makefile Target}

/-- What a search that returns adds: the searched targets, and only targets other than
the empty one. -/
structure OrderStep (M : Makefile Target) (targets : List Target) (order order' : Finset Target) :
    Prop where
  mono : order ⊆ order'
  covers : ∀ t ∈ targets, t = M.root ∨ t ∈ order'
  bounded : ∀ t ∈ order', t ∈ order ∨ t ∈ M.g.vertices.erase M.root

theorem visitAll_spec {dfs : Target → Finset Target → Option (Finset Target)}
    (hdfs : ∀ t order order', t ∈ M.g.vertices → dfs t order = some order' →
      M.OrderStep [t] order order') :
    ∀ (targets : List Target) (order order' : Finset Target), (∀ t ∈ targets, t ∈ M.g.vertices) →
      visitAll dfs targets order = some order' → M.OrderStep targets order order' := by
  intro targets
  induction targets with
  | nil =>
      intro order order' _ h
      obtain rfl : order = order' := by simpa [visitAll] using h
      exact ⟨Finset.Subset.refl _, by simp, fun t ht ↦ Or.inl ht⟩
  | cons t targets ih =>
      intro order order' hmem h
      simp only [visitAll, Option.bind_eq_some_iff] at h
      obtain ⟨mid, hfirst, hrest⟩ := h
      have h₁ := hdfs t order mid (hmem t (by simp)) hfirst
      have h₂ := ih mid order' (fun u hu ↦ hmem u (List.mem_cons_of_mem t hu)) hrest
      refine ⟨h₁.mono.trans h₂.mono, fun u hu ↦ ?_, fun u hu ↦ ?_⟩
      · rcases List.mem_cons.mp hu with rfl | hu
        · exact (h₁.covers u (by simp)).imp_right fun hmid ↦ h₂.mono hmid
        · exact h₂.covers u hu
      · rcases h₂.bounded u hu with hmid | hv
        · exact h₁.bounded u hmid
        · exact Or.inr hv

theorem DFSTopologicalOrder_spec : ∀ (fuel : ℕ) (t : Target) (order order' : Finset Target),
    t ∈ M.g.vertices → M.DFSTopologicalOrder fuel t order = some order' →
      M.OrderStep [t] order order' := by
  intro fuel
  induction fuel with
  | zero => intro t order order' _ h; simp [DFSTopologicalOrder] at h
  | succ fuel ih =>
      intro t order order' hmem h
      by_cases hroot : t = M.root
      · obtain rfl : order = order' := by simpa [DFSTopologicalOrder, hroot] using h
        exact ⟨Finset.Subset.refl _, by simp [hroot], fun u hu ↦ Or.inl hu⟩
      by_cases hin : t ∈ order
      · obtain rfl : order = order' := by simpa [DFSTopologicalOrder, hroot, hin] using h
        exact ⟨Finset.Subset.refl _, by simp [hin], fun u hu ↦ Or.inl hu⟩
      simp only [DFSTopologicalOrder, hroot, hin, if_false, Option.map_eq_some_iff] at h
      obtain ⟨mid, hmid, rfl⟩ := h
      have hrest := visitAll_spec ih (M.neighbors t) order mid
        (fun u hu ↦ (M.mem_neighbors.mp hu).right_mem) hmid
      refine ⟨hrest.mono.trans (Finset.subset_insert _ _), by simp, fun u hu ↦ ?_⟩
      rcases Finset.mem_insert.mp hu with rfl | hu
      · exact Or.inr (Finset.mem_erase.mpr ⟨hroot, hmem⟩)
      · exact hrest.bounded u hu

/-- Whenever the search returns, its result is the set of all targets but the empty one. -/
theorem topologicalOrder_eq {fuel : ℕ} {order : Finset Target}
    (h : M.topologicalOrder fuel = some order) : order = M.g.vertices.erase M.root := by
  have hspec := visitAll_spec (M.DFSTopologicalOrder_spec fuel) (M.L.vertices M.g) ∅ order
    (fun t ht ↦ (M.L.mem_vertices M.g t).mp ht) h
  ext t
  constructor
  · intro ht
    exact (hspec.bounded t ht).resolve_left (by simp)
  · intro ht
    obtain ⟨hne, hmem⟩ := Finset.mem_erase.mp ht
    exact (hspec.covers t ((M.L.mem_vertices M.g t).mpr hmem)).resolve_left hne

/-- Fuel from which on the search from a target returns. -/
def Returns (M : Makefile Target) (bound : ℕ) (t : Target) : Prop :=
  ∀ fuel ≥ bound, ∀ order, (M.DFSTopologicalOrder fuel t order).isSome

theorem visitAll_isSome {fuel : ℕ} : ∀ (targets : List Target) (order : Finset Target),
    (∀ t ∈ targets, ∀ order, (M.DFSTopologicalOrder fuel t order).isSome) →
      (visitAll (M.DFSTopologicalOrder fuel) targets order).isSome := by
  intro targets
  induction targets with
  | nil => intro order _; rfl
  | cons t targets ih =>
      intro order h
      obtain ⟨mid, hmid⟩ := Option.isSome_iff_exists.mp (h t (by simp) order)
      simpa [visitAll, hmid] using ih mid fun u hu ↦ h u (List.mem_cons_of_mem t hu)

theorem exists_bound (targets : List Target) (h : ∀ t ∈ targets, ∃ n, M.Returns n t) :
    ∃ n, ∀ t ∈ targets, M.Returns n t := by
  induction targets with
  | nil => exact ⟨0, by simp⟩
  | cons t targets ih =>
      obtain ⟨n, hn⟩ := h t (by simp)
      obtain ⟨m, hm⟩ := ih fun u hu ↦ h u (List.mem_cons_of_mem t hu)
      refine ⟨max n m, fun u hu fuel hfuel ↦ ?_⟩
      rcases List.mem_cons.mp hu with rfl | hu
      · exact hn fuel (le_trans (le_max_left n m) hfuel)
      · exact hm u hu fuel (le_trans (le_max_right n m) hfuel)

theorem returns_of_neighbors {t : Target} {n : ℕ} (h : ∀ u ∈ M.neighbors t, M.Returns n u) :
    M.Returns (n + 1) t := by
  intro fuel hfuel order
  obtain ⟨fuel, rfl⟩ : ∃ k, fuel = k + 1 := ⟨fuel - 1, by omega⟩
  have hall := visitAll_isSome (M.neighbors t) order fun u hu ↦ h u hu fuel (by omega)
  simp only [DFSTopologicalOrder]
  split_ifs
  · rfl
  · rfl
  · simpa using hall

/-- On an acyclic graph the search returns from every target. -/
theorem exists_returns (hac : Acyclic M.g.Adj) (t : Target) : ∃ n, M.Returns n t := by
  by_contra hnot
  refine hac.not_forall_exists M.g.finite_sources (S := {u | ¬ ∃ n, M.Returns n u}) ⟨t, hnot⟩ ?_
  intro u hu
  by_contra hnext
  have hall : ∀ v ∈ M.neighbors u, ∃ n, M.Returns n v := by
    intro v hv
    by_contra hbad
    exact hnext ⟨v, hbad, .single (M.mem_neighbors.mp hv)⟩
  obtain ⟨n, hn⟩ := exists_bound _ hall
  exact hu ⟨n + 1, returns_of_neighbors hn⟩

end Makefile

end SystemProgramming.ParallelMake
