import Mathlib

/-!
# Finite directed graphs

A graph is a finite set of vertices with a finite set of edges between them.
Acyclicity is stated for an arbitrary relation, so that it applies to an edge set
as well as to any relation derived from it.
-/

namespace SystemProgramming

open Relation

section Acyclic

variable {V : Type*} {r r' : V → V → Prop}

/-- No vertex reaches itself by a nonempty path. -/
def Acyclic (r : V → V → Prop) : Prop := ∀ v, ¬ TransGen r v v

theorem Acyclic.mono (h : Acyclic r) (hsub : ∀ v w, r' v w → r v w) : Acyclic r' :=
  fun v hv ↦ h v (TransGen.mono hsub v v hv)

/-- A relation along which a rank increases is acyclic. -/
theorem acyclic_of_rank (rank : V → ℕ) (h : ∀ v w, r v w → rank v < rank w) : Acyclic r := by
  have hpath : ∀ v w, TransGen r v w → rank v < rank w := by
    intro v w hvw
    induction hvw with
    | single hstep => exact h _ _ hstep
    | tail _ hstep ih => exact ih.trans (h _ _ hstep)
  exact fun v hv ↦ lt_irrefl _ (hpath v v hv)

/-- A new edge into a vertex without successors closes no cycle. -/
theorem Acyclic.insert_sink (h : Acyclic r) {a b : V} (hab : a ≠ b) (hsink : ∀ w, ¬ r b w)
    (hsub : ∀ v w, r' v w → r v w ∨ v = a ∧ w = b) : Acyclic r' := by
  have hsink' : ∀ w, ¬ r' b w := by
    intro w hw
    rcases hsub b w hw with hr | ⟨hba, -⟩
    · exact hsink w hr
    · exact hab hba.symm
  have hpath : ∀ v w, TransGen r' v w → TransGen r v w ∨ w = b := by
    intro v w hvw
    induction hvw with
    | single hstep =>
        rcases hsub _ _ hstep with hr | ⟨-, hb⟩
        · exact Or.inl (TransGen.single hr)
        · exact Or.inr hb
    | tail _ hstep ih =>
        rcases hsub _ _ hstep with hr | ⟨-, hb⟩
        · rcases ih with hpre | rfl
          · exact Or.inl (hpre.tail hr)
          · exact absurd hr (hsink _)
        · exact Or.inr hb
  intro v hv
  rcases hpath v v hv with hr | rfl
  · exact h v hr
  · obtain ⟨w, hw, -⟩ := TransGen.head'_iff.mp hv
    exact hsink' w hw

/-- A path over a new edge reaches its source, and comes from its target. -/
theorem transGen_insert_edge {a b v w : V} (hsub : ∀ v w, r' v w → v = a ∧ w = b ∨ r v w)
    (h : TransGen r' v w) : TransGen r v w ∨ ReflTransGen r v a ∧ ReflTransGen r b w := by
  induction h with
  | single hstep =>
      rcases hsub _ _ hstep with ⟨rfl, rfl⟩ | hr
      · exact Or.inr ⟨.refl, .refl⟩
      · exact Or.inl (.single hr)
  | tail _ hstep ih =>
      rcases hsub _ _ hstep with ⟨rfl, rfl⟩ | hr
      · exact Or.inr ⟨ih.elim TransGen.to_reflTransGen And.left, .refl⟩
      · exact ih.imp (·.tail hr) (And.imp_right (·.tail hr))

/-- A new edge closes a cycle exactly when its target reaches its source. -/
theorem Acyclic.insert_edge_iff (h : Acyclic r) {a b : V}
    (hiff : ∀ v w, r' v w ↔ v = a ∧ w = b ∨ r v w) : Acyclic r' ↔ ¬ ReflTransGen r b a := by
  constructor
  · intro hac hpath
    have hpath' : ReflTransGen r' b a :=
      ReflTransGen.mono (fun v w hvw ↦ (hiff v w).mpr (Or.inr hvw)) b a hpath
    exact hac a (TransGen.head' ((hiff a b).mpr (Or.inl ⟨rfl, rfl⟩)) hpath')
  · intro hnot v hv
    rcases transGen_insert_edge (fun v w ↦ (hiff v w).mp) hv with hr | ⟨hva, hbv⟩
    · exact h v hr
    · exact hnot (hbv.trans hva)

/-- In a relation with finitely many sources, a nonempty set in which every member
reaches another member contains a cycle. -/
theorem Acyclic.not_forall_exists (h : Acyclic r) (hfin : {v | ∃ w, r v w}.Finite) {S : Set V}
    (hne : S.Nonempty) : ¬ ∀ v ∈ S, ∃ w ∈ S, TransGen r v w := by
  intro hnext
  have hS : S.Finite := by
    refine hfin.subset fun v hv ↦ ?_
    obtain ⟨w, -, hvw⟩ := hnext v hv
    obtain ⟨u, hu, -⟩ := TransGen.head'_iff.mp hvw
    exact ⟨u, hu⟩
  have : Finite S := hS
  let above : S → S → Prop := fun v w ↦ TransGen r w.1 v.1
  have : IsTrans S above := ⟨fun _ _ _ hab hbc ↦ TransGen.trans hbc hab⟩
  have : Std.Irrefl above := ⟨fun v hv ↦ h v.1 hv⟩
  have hwf : WellFounded above := Finite.wellFounded_of_trans_of_irrefl above
  obtain ⟨v, hv⟩ := hne
  obtain ⟨m, -, hmin⟩ := hwf.has_min Set.univ ⟨⟨v, hv⟩, trivial⟩
  obtain ⟨w, hw, hmw⟩ := hnext m.1 m.2
  exact hmin ⟨w, hw⟩ trivial hmw

end Acyclic

section Explored

variable {V : Type*} {r : V → V → Prop} {done : Finset V} {v w : V}

/-- A set that no edge leaves and no cycle meets. -/
structure ExploredSet (r : V → V → Prop) (done : Finset V) : Prop where
  closed : ∀ v ∈ done, ∀ w, r v w → w ∈ done
  no_cycle : ∀ v ∈ done, ¬ TransGen r v v

namespace ExploredSet

theorem mem_of_reach (h : ExploredSet r done) (hv : v ∈ done) (hvw : ReflTransGen r v w) :
    w ∈ done := by
  induction hvw with
  | refl => exact hv
  | tail _ hstep ih => exact h.closed _ ih _ hstep

/-- A vertex whose successors are all explored is explored. -/
theorem insert [DecidableEq V] (h : ExploredSet r done) (hnext : ∀ w, r v w → w ∈ done) :
    ExploredSet r (insert v done) where
  closed := by
    intro u hu w huw
    rcases Finset.mem_insert.mp hu with rfl | hu
    · exact Finset.mem_insert_of_mem (hnext w huw)
    · exact Finset.mem_insert_of_mem (h.closed u hu w huw)
  no_cycle := by
    intro u hu hcycle
    rcases Finset.mem_insert.mp hu with rfl | hu
    · obtain ⟨w, huw, hback⟩ := TransGen.head'_iff.mp hcycle
      exact h.no_cycle u (h.mem_of_reach (hnext w huw) hback) hcycle
    · exact h.no_cycle u hu hcycle

/-- No cycle can be reached from it. -/
theorem not_reach_cycle (h : ExploredSet r done) (hv : v ∈ done) (hvw : ReflTransGen r v w) :
    ¬ TransGen r w w := h.no_cycle w (h.mem_of_reach hv hvw)

end ExploredSet

end Explored

/-- A finite directed graph. -/
@[ext]
structure FiniteDigraph (V : Type*) where
  vertices : Finset V
  edges : Finset (V × V)
  edge_mem : ∀ e ∈ edges, e.1 ∈ vertices ∧ e.2 ∈ vertices

namespace FiniteDigraph

variable {V : Type*} [DecidableEq V] (g : FiniteDigraph V)

def Adj (v w : V) : Prop := (v, w) ∈ g.edges

instance : DecidableRel g.Adj := fun v w ↦ inferInstanceAs (Decidable ((v, w) ∈ g.edges))

def empty : FiniteDigraph V where
  vertices := ∅
  edges := ∅
  edge_mem := by simp

def addVertex (v : V) : FiniteDigraph V where
  vertices := insert v g.vertices
  edges := g.edges
  edge_mem := fun e he ↦
    ⟨Finset.mem_insert_of_mem (g.edge_mem e he).1, Finset.mem_insert_of_mem (g.edge_mem e he).2⟩

/-- An edge is added between vertices of the graph only. -/
def addEdge (v w : V) : FiniteDigraph V where
  vertices := g.vertices
  edges := if v ∈ g.vertices ∧ w ∈ g.vertices then insert (v, w) g.edges else g.edges
  edge_mem := by
    intro e he
    split at he
    · rcases Finset.mem_insert.mp he with rfl | he
      · assumption
      · exact g.edge_mem e he
    · exact g.edge_mem e he

def removeEdge (v w : V) : FiniteDigraph V where
  vertices := g.vertices
  edges := g.edges.erase (v, w)
  edge_mem := fun e he ↦ g.edge_mem e (Finset.mem_of_mem_erase he)

/-- Removing a vertex removes the edges at it. -/
def removeVertex (v : V) : FiniteDigraph V where
  vertices := g.vertices.erase v
  edges := g.edges.filter fun e ↦ e.1 ≠ v ∧ e.2 ≠ v
  edge_mem := by
    intro e he
    obtain ⟨he, h₁, h₂⟩ := Finset.mem_filter.mp he
    exact ⟨Finset.mem_erase.mpr ⟨h₁, (g.edge_mem e he).1⟩,
      Finset.mem_erase.mpr ⟨h₂, (g.edge_mem e he).2⟩⟩

variable {g} {a b v w : V}

omit [DecidableEq V] in
theorem Adj.left_mem (h : g.Adj v w) : v ∈ g.vertices := (g.edge_mem _ h).1

omit [DecidableEq V] in
theorem Adj.right_mem (h : g.Adj v w) : w ∈ g.vertices := (g.edge_mem _ h).2

omit [DecidableEq V] in
@[simp] theorem not_empty_adj : ¬ (empty : FiniteDigraph V).Adj v w := by simp [Adj, empty]

@[simp] theorem addVertex_adj : (g.addVertex a).Adj v w ↔ g.Adj v w := Iff.rfl

@[simp] theorem mem_addVertex : v ∈ (g.addVertex a).vertices ↔ v = a ∨ v ∈ g.vertices :=
  Finset.mem_insert

@[simp] theorem addEdge_vertices : (g.addEdge a b).vertices = g.vertices := rfl

@[simp] theorem removeEdge_vertices : (g.removeEdge a b).vertices = g.vertices := rfl

theorem addEdge_adj (ha : a ∈ g.vertices) (hb : b ∈ g.vertices) :
    (g.addEdge a b).Adj v w ↔ v = a ∧ w = b ∨ g.Adj v w := by
  simp [Adj, addEdge, ha, hb]

theorem adj_of_addEdge (h : (g.addEdge a b).Adj v w) : v = a ∧ w = b ∨ g.Adj v w := by
  unfold Adj addEdge at h
  split at h
  · simpa [Adj] using h
  · exact Or.inr h

@[simp] theorem removeEdge_adj :
    (g.removeEdge a b).Adj v w ↔ ¬ (v = a ∧ w = b) ∧ g.Adj v w := by
  simp [Adj, removeEdge, Finset.mem_erase]

omit [DecidableEq V] in
theorem finite_sources (g : FiniteDigraph V) : {v | ∃ w, g.Adj v w}.Finite :=
  g.vertices.finite_toSet.subset fun _ ⟨_, h⟩ ↦ h.left_mem

/-- Taking out the edge that was just added restores the graph, unless the edge
was there before. -/
theorem removeEdge_addEdge (h : ¬ g.Adj a b) : (g.addEdge a b).removeEdge a b = g := by
  have h' : (a, b) ∉ g.edges := h
  apply FiniteDigraph.ext
  · rfl
  · simp only [removeEdge, addEdge]
    split
    · exact Finset.erase_insert h'
    · exact Finset.erase_eq_of_notMem h'

end FiniteDigraph

/-- How a graph library lists a graph: every vertex and every successor occurs,
in any order and any number of times. -/
structure GraphListing (V : Type*) where
  vertices : FiniteDigraph V → List V
  neighbors : FiniteDigraph V → V → List V
  mem_vertices : ∀ g v, v ∈ vertices g ↔ v ∈ g.vertices
  mem_neighbors : ∀ g v w, w ∈ neighbors g v ↔ g.Adj v w

/-- The listing in the order of a fixed enumeration of the vertex type. -/
def GraphListing.ofEnumeration {V : Type*} [DecidableEq V] (all : List V) (h : ∀ v, v ∈ all) :
    GraphListing V where
  vertices g := all.filter (· ∈ g.vertices)
  neighbors g v := all.filter (g.Adj v ·)
  mem_vertices := by simp [h]
  mem_neighbors := by simp [h]

end SystemProgramming
