import SystemProgramming.ParallelMake.Cycles
import SystemProgramming.ParallelMake.TopologicalOrder

/-!
# The order in which targets are added

The search for the topological order has no guard against cycles.  It is started only when the
cycle check has found nothing, so it returns, and it adds a target behind the targets on which
that target depends.
-/

namespace SystemProgramming.ParallelMake

open Relation

namespace Makefile

variable {Target : Type*} [DecidableEq Target] (M : Makefile Target)

/-- `visitAll` with the calls of `set_add` in order. -/
def recordAll (dfs : Target → List Target → Option (List Target)) :
    List Target → List Target → Option (List Target)
  | [], added => some added
  | target :: targets, added => (dfs target added).bind (recordAll dfs targets)

/-- `DFSTopologicalOrder` with the calls of `set_add` in order. -/
def recordTopologicalOrder : ℕ → Target → List Target → Option (List Target)
  | 0, _, _ => none
  | fuel + 1, target, added =>
      if target = M.root then some added
      else if target ∈ added then some added
      else (recordAll (recordTopologicalOrder fuel) (M.neighbors target) added).map (· ++ [target])

/-- The calls of `set_add` before `parmake` starts the workers. -/
def additions (fuel : ℕ) : Option (List Target) :=
  recordAll (M.recordTopologicalOrder fuel) (M.L.vertices M.g) []

variable {M} {t u : Target} {added added' : List Target} {fuel : ℕ}

theorem toFinset_recordAll {record : Target → List Target → Option (List Target)}
    {dfs : Target → Finset Target → Option (Finset Target)}
    (h : ∀ t added, dfs t added.toFinset = (record t added).map List.toFinset)
    (targets added : List Target) :
    visitAll dfs targets added.toFinset = (recordAll record targets added).map List.toFinset := by
  induction targets generalizing added with
  | nil => rfl
  | cons t targets ih =>
      rw [visitAll, recordAll, h]
      cases record t added with
      | none => rfl
      | some mid => exact ih mid

/-- The set `order` holds what has been added. -/
theorem toFinset_record (fuel : ℕ) (t : Target) (added : List Target) :
    M.DFSTopologicalOrder fuel t added.toFinset =
      (M.recordTopologicalOrder fuel t added).map List.toFinset := by
  induction fuel generalizing t added with
  | zero => rfl
  | succ fuel ih =>
      rw [DFSTopologicalOrder, recordTopologicalOrder]
      simp only [List.mem_toFinset]
      split_ifs with hroot hin
      · rfl
      · rfl
      · rw [toFinset_recordAll ih, Option.map_map, Option.map_map]
        refine congrArg (Option.map · _) (funext fun mid ↦ ?_)
        ext u
        simp

/-- Nothing is added twice, nor in front of a target on which it depends. -/
structure Ordered (M : Makefile Target) (added : List Target) : Prop where
  nodup : added.Nodup
  dependencies : ∀ pre t post, added = pre ++ t :: post → ∀ u, M.g.Adj t u → u ∈ pre

omit [DecidableEq Target] in
theorem Ordered.concat (h : M.Ordered added) (ht : t ∉ added)
    (hdeps : ∀ u, M.g.Adj t u → u ∈ added) : M.Ordered (added ++ [t]) where
  nodup := by
    rw [List.nodup_append]
    refine ⟨h.nodup, List.nodup_singleton t, ?_⟩
    intro u hu v hv heq
    rw [List.mem_singleton] at hv
    exact ht (hv ▸ heq ▸ hu)
  dependencies := by
    intro pre v post heq u hadj
    rcases List.eq_nil_or_concat post with rfl | ⟨post, w, rfl⟩
    · obtain ⟨rfl, hv⟩ := List.append_inj' heq rfl
      obtain rfl : t = v := by simpa using hv
      exact hdeps u hadj
    · have hsplit : added ++ [t] = (pre ++ v :: post) ++ [w] := by simpa using heq
      obtain ⟨rfl, -⟩ := List.append_inj' hsplit rfl
      exact h.dependencies pre v post rfl u hadj

/-- What a search that returns has added, behind what was there before. -/
structure Adds (M : Makefile Target) (targets added added' : List Target) : Prop where
  ordered : M.Ordered added'
  mono : added ⊆ added'
  covers : ∀ t ∈ targets, t = M.root ∨ t ∈ added'
  reached : ∀ u ∈ added', u ∈ added ∨ u ≠ M.root ∧ ∃ t ∈ targets, ReflTransGen M.g.Adj t u

omit [DecidableEq Target] in
theorem Adds.refl (h : M.Ordered added) (hcovers : t = M.root ∨ t ∈ added) :
    M.Adds [t] added added :=
  ⟨h, List.Subset.refl _, by simpa using hcovers, fun _ hu ↦ Or.inl hu⟩

omit [DecidableEq Target] in
theorem recordAll_adds {record : Target → List Target → Option (List Target)}
    (targets : List Target)
    (hrecord : ∀ t ∈ targets, ∀ added added', M.Ordered added →
      record t added = some added' → M.Adds [t] added added')
    (hordered : M.Ordered added) (h : recordAll record targets added = some added') :
    M.Adds targets added added' := by
  induction targets generalizing added with
  | nil =>
      cases h
      exact ⟨hordered, List.Subset.refl _, by simp, fun _ hu ↦ Or.inl hu⟩
  | cons t targets ih =>
      obtain ⟨mid, hfirst, hrest⟩ := Option.bind_eq_some_iff.mp h
      have h₁ := hrecord t List.mem_cons_self added mid hordered hfirst
      have h₂ := ih (fun u hu ↦ hrecord u (List.mem_cons_of_mem t hu)) h₁.ordered hrest
      refine ⟨h₂.ordered, List.Subset.trans h₁.mono h₂.mono, ?_, ?_⟩
      · intro u hu
        rcases List.mem_cons.mp hu with rfl | hu
        · exact (h₁.covers u List.mem_cons_self).imp_right fun hmid ↦ h₂.mono hmid
        · exact h₂.covers u hu
      · intro u hu
        rcases h₂.reached u hu with hmid | ⟨hroot, v, hv, hpath⟩
        · refine (h₁.reached u hmid).imp_right fun ⟨hroot, v, hv, hpath⟩ ↦ ⟨hroot, v, ?_, hpath⟩
          rw [List.mem_singleton.mp hv]
          exact List.mem_cons_self
        · exact Or.inr ⟨hroot, v, List.mem_cons_of_mem t hv, hpath⟩

/-- In an acyclic graph no search adds the target it was started from. -/
theorem record_adds (hac : Acyclic M.g.Adj) (hordered : M.Ordered added)
    (h : M.recordTopologicalOrder fuel t added = some added') : M.Adds [t] added added' := by
  induction fuel generalizing t added added' with
  | zero => cases h
  | succ fuel ih =>
      rw [recordTopologicalOrder] at h
      split_ifs at h with hroot hin
      · cases h
        exact Adds.refl hordered (Or.inl hroot)
      · cases h
        exact Adds.refl hordered (Or.inr hin)
      · obtain ⟨mid, hmid, rfl⟩ := Option.map_eq_some_iff.mp h
        have hadds := recordAll_adds (M.neighbors t) (fun u _ _ _ ↦ ih) hordered hmid
        have hnot : t ∉ mid := by
          intro ht
          rcases hadds.reached t ht with hbefore | ⟨-, u, hu, hpath⟩
          · exact hin hbefore
          · exact hac t (TransGen.head' (M.mem_neighbors.mp hu) hpath)
        have hdeps (u : Target) (hadj : M.g.Adj t u) : u ∈ mid := by
          refine (hadds.covers u (M.mem_neighbors.mpr hadj)).resolve_left ?_
          rintro rfl
          exact M.not_adj_root t hadj
        refine ⟨hadds.ordered.concat hnot hdeps, ?_, by simp, ?_⟩
        · exact List.Subset.trans hadds.mono (List.subset_append_left _ _)
        · intro u hu
          rcases List.mem_append.mp hu with hmem | hmem
          · refine (hadds.reached u hmem).imp_right fun ⟨hne, v, hv, hpath⟩ ↦ ⟨hne, t, by simp, ?_⟩
            exact hpath.head (M.mem_neighbors.mp hv)
          · obtain rfl := List.mem_singleton.mp hmem
            exact Or.inr ⟨hroot, u, by simp, .refl⟩

end Makefile

variable {Target : Type*} [DecidableEq Target]

/-- Every search for a cycle returns.  If none has found one, every search for the topological
order returns, and the targets other than the empty one are added once each, behind the targets
on which they depend. -/
theorem searches_return (M : Makefile Target) {fuel : ℕ} (hfuel : M.g.vertices.card < fuel) :
    (∀ t ∈ M.g.vertices, ∀ condemned, (M.DFSCycle fuel t ⟨condemned, ∅, ∅⟩).isSome) ∧
      (M.reportCycles fuel).isSome ∧
      (M.reportCycles fuel = some [] → ∃ bound, ∀ depth ≥ bound,
        (∀ t ∈ M.g.vertices, ∀ order, (M.DFSTopologicalOrder depth t order).isSome) ∧
        ∃ added, M.additions depth = some added ∧
          M.topologicalOrder depth = some added.toFinset ∧
          added.Nodup ∧ (∀ t, t ∈ added ↔ t ∈ M.g.vertices ∧ t ≠ M.root) ∧
          ∀ pre t post, added = pre ++ t :: post → ∀ u, M.g.Adj t u → u ∈ pre) := by
  refine ⟨fun t ht C ↦ ?_, ?_, fun hnone ↦ ?_⟩
  · obtain ⟨found, s, hcall, -⟩ := M.exists_finds C ht hfuel
    rw [hcall]
    rfl
  · obtain ⟨failures, hrun, -⟩ := M.exists_cycleFailures (M.L.vertices M.g) ∅
      (fun t ↦ (M.L.mem_vertices M.g t).mp) hfuel
    rw [Makefile.reportCycles, hrun]
    rfl
  · have hac := (M.reportCycles_eq_nil_iff hfuel).mp hnone
    have hlisted (t : Target) : t ∈ M.L.vertices M.g ↔ t ∈ M.g.vertices := M.L.mem_vertices M.g t
    obtain ⟨bound, hbound⟩ := Makefile.exists_bound (M.L.vertices M.g)
      fun t _ ↦ Makefile.exists_returns hac t
    refine ⟨bound, fun depth hdepth ↦ ?_⟩
    have hreturns (t : Target) (ht : t ∈ M.g.vertices) (order : Finset Target) :
        (M.DFSTopologicalOrder depth t order).isSome :=
      hbound t ((hlisted t).mpr ht) depth hdepth order
    obtain ⟨order, horder⟩ := Option.isSome_iff_exists.mp
      (Makefile.visitAll_isSome (M.L.vertices M.g) ∅ fun t ht ↦ hreturns t ((hlisted t).mp ht))
    obtain ⟨added, hadded, rfl⟩ := Option.map_eq_some_iff.mp
      ((Makefile.toFinset_recordAll (M.toFinset_record depth) (M.L.vertices M.g) []).symm.trans horder)
    have hnil : M.Ordered [] := ⟨List.nodup_nil, by simp⟩
    have hadds := Makefile.recordAll_adds (M.L.vertices M.g)
      (fun t _ added added' hordered h ↦ Makefile.record_adds hac hordered h) hnil hadded
    have heq : added.toFinset = M.g.vertices.erase M.root := M.topologicalOrder_eq horder
    refine ⟨hreturns, added, hadded, horder, hadds.ordered.nodup, fun t ↦ ?_,
      hadds.ordered.dependencies⟩
    rw [← List.mem_toFinset, heq, Finset.mem_erase, and_comm]

/-- The empty target, and a goal with two dependencies that need the same target. -/
def goalOfTwo : Makefile (Fin 5) where
  g :=
    { vertices := Finset.univ
      edges := {(0, 1), (1, 2), (1, 3), (2, 4), (3, 4)}
      edge_mem := by decide }
  L := GraphListing.ofEnumeration (List.finRange 5) List.mem_finRange
  commands := fun _ ↦ []
  root := 0
  not_adj_root := by decide

theorem searches_return_goalOfTwo : ∃ depth added, goalOfTwo.additions depth = some added ∧
    added.Nodup ∧ (∀ t, t ∈ added ↔ t ∈ goalOfTwo.g.vertices ∧ t ≠ goalOfTwo.root) ∧
    ∀ pre t post, added = pre ++ t :: post →
      (t = 1 → 2 ∈ pre ∧ 3 ∈ pre) ∧ (t = 2 → 4 ∈ pre) ∧ (t = 3 → 4 ∈ pre) := by
  have hfuel : goalOfTwo.g.vertices.card < 6 := by decide
  obtain ⟨-, -, horder⟩ := searches_return goalOfTwo hfuel
  obtain ⟨depth, hdepth⟩ := horder (by decide)
  obtain ⟨-, added, hadded, -, hnodup, hmem, hdeps⟩ := hdepth depth le_rfl
  refine ⟨depth, added, hadded, hnodup, hmem, fun pre t post heq ↦ ⟨?_, ?_, ?_⟩⟩
  · rintro rfl
    exact ⟨hdeps pre 1 post heq 2 (by decide), hdeps pre 1 post heq 3 (by decide)⟩
  · rintro rfl
    exact hdeps pre 2 post heq 4 (by decide)
  · rintro rfl
    exact hdeps pre 3 post heq 4 (by decide)

end SystemProgramming.ParallelMake
