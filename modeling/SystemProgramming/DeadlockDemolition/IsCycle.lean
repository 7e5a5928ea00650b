import SystemProgramming.DeadlockDemolition.Model

/-!
# The cycle search is exact

The visited vertices that are not stacked are closed under successors and lie on no
cycle.  The stacked vertices all reach the node being visited, so an edge into one
of them closes a cycle.  Every recursive call has one more visited vertex, which
bounds the depth by the number of vertices.
-/

namespace SystemProgramming.DeadlockDemolition

open Relation

variable {V : Type*} [DecidableEq V] {L : GraphListing V} {g : FiniteDigraph V}

/-- What holds of the two dictionaries between the steps of the search. -/
structure SearchInv (g : FiniteDigraph V) (visited stacked : Finset V) : Prop where
  stacked_visited : stacked ⊆ visited
  explored : ExploredSet g.Adj (visited \ stacked)

/-- What a call of `DFS` on `node` answers. -/
def DFSPost (g : FiniteDigraph V) (node : V) (visited stacked : Finset V) :
    Option (Bool × Finset V × Finset V) → Prop
  | none => False
  | some (true, _, _) => ¬ Acyclic g.Adj
  | some (false, seen, stack) =>
      stack = stacked ∧ insert node visited ⊆ seen ∧ SearchInv g seen stacked

/-- The same for the loop over some neighbors of a stacked node. -/
def LoopPost (g : FiniteDigraph V) (neighbors : List V) (visited stacked : Finset V) :
    Option (Bool × Finset V × Finset V) → Prop
  | none => False
  | some (true, _, _) => ¬ Acyclic g.Adj
  | some (false, seen, stack) =>
      stack = stacked ∧ visited ⊆ seen ∧ SearchInv g seen stacked ∧
        ∀ n ∈ neighbors, n ∈ seen \ stacked

theorem card_unvisited_le {visited seen : Finset V} (h : visited ⊆ seen) :
    (g.vertices \ seen).card ≤ (g.vertices \ visited).card :=
  Finset.card_le_card (Finset.sdiff_subset_sdiff (Finset.Subset.refl _) h)

theorem card_unvisited_insert_lt {visited : Finset V} {v : V} (hv : v ∈ g.vertices)
    (hnot : v ∉ visited) :
    (g.vertices \ insert v visited).card < (g.vertices \ visited).card := by
  refine Finset.card_lt_card ⟨Finset.sdiff_subset_sdiff (Finset.Subset.refl _)
    (Finset.subset_insert v visited), fun hsub ↦ ?_⟩
  have hmem := hsub (Finset.mem_sdiff.mpr ⟨hv, hnot⟩)
  simp at hmem

/-- One more neighbor, which the rest of the loop saw. -/
theorem LoopPost.cons {n : V} {neighbors : List V} {visited seen stacked : Finset V}
    {r : Option (Bool × Finset V × Finset V)} (h : LoopPost g neighbors seen stacked r)
    (hsub : visited ⊆ seen) (hn : n ∈ seen) (hst : n ∉ stacked) :
    LoopPost g (n :: neighbors) visited stacked r := by
  match r with
  | none => exact h
  | some (true, _, _) => exact h
  | some (false, seen', stack) =>
      obtain ⟨hs, hsub', hinv, hall⟩ := h
      refine ⟨hs, hsub.trans hsub', hinv, fun m hm ↦ ?_⟩
      rcases List.mem_cons.mp hm with rfl | hm
      · exact Finset.mem_sdiff.mpr ⟨hsub' hn, hst⟩
      · exact hall m hm

/-- The loop, given that the recursive calls below it are right. -/
theorem visitNeighbors_spec {dfs : V → Finset V → Finset V → Option (Bool × Finset V × Finset V)}
    {node : V} {stacked : Finset V} {bound : ℕ} (hnode : node ∈ stacked)
    (hreach : ∀ x ∈ stacked, ReflTransGen g.Adj x node)
    (hdfs : ∀ n visited, SearchInv g visited stacked → g.Adj node n → n ∉ visited →
      (g.vertices \ visited).card < bound → DFSPost g n visited stacked (dfs n visited stacked)) :
    ∀ (neighbors : List V) (visited : Finset V), (∀ n ∈ neighbors, g.Adj node n) →
      SearchInv g visited stacked → (g.vertices \ visited).card < bound →
      LoopPost g neighbors visited stacked (visitNeighbors dfs neighbors visited stacked) := by
  intro neighbors
  induction neighbors with
  | nil =>
      intro visited _ hinv _
      exact ⟨rfl, Finset.Subset.refl _, hinv, by simp⟩
  | cons n neighbors ih =>
      intro visited hadj hinv hcard
      have hn : g.Adj node n := hadj n (by simp)
      have hadj' : ∀ m ∈ neighbors, g.Adj node m := fun m hm ↦ hadj m (List.mem_cons_of_mem n hm)
      by_cases hvis : n ∈ visited
      · by_cases hst : n ∈ stacked
        · -- an edge back into the stack
          have hcycle : TransGen g.Adj n n := TransGen.tail' (hreach n hst) hn
          simpa [visitNeighbors, hvis, hst, LoopPost] using fun hac : Acyclic g.Adj ↦ hac n hcycle
        · simp only [visitNeighbors, hvis, hst, not_true_eq_false, if_false]
          exact (ih visited hadj' hinv hcard).cons (Finset.Subset.refl _) hvis hst
      · have hcall := hdfs n visited hinv hn hvis hcard
        simp only [visitNeighbors, hvis, not_false_eq_true, if_true]
        revert hcall
        cases dfs n visited stacked with
        | none => exact id
        | some r =>
            obtain ⟨b, seen, stack⟩ := r
            cases b with
            | true => exact id
            | false =>
                rintro ⟨rfl, hsub, hinv'⟩
                have hsub' : visited ⊆ seen := (Finset.subset_insert _ _).trans hsub
                have hrest := ih seen hadj' hinv'
                  ((card_unvisited_le hsub').trans_lt hcard)
                exact hrest.cons hsub' (hsub (Finset.mem_insert_self _ _))
                  fun hst ↦ hvis (hinv.stacked_visited hst)

/-- A call of `DFS` with enough fuel returns, and answers as `DFSPost` says. -/
theorem DFS_spec : ∀ (fuel : ℕ) (node : V) (visited stacked : Finset V),
    SearchInv g visited stacked → node ∈ g.vertices → node ∉ visited →
    (∀ x ∈ stacked, ReflTransGen g.Adj x node) → (g.vertices \ visited).card < fuel →
    DFSPost g node visited stacked (DFS L g fuel node visited stacked) := by
  intro fuel
  induction fuel with
  | zero => intro _ _ _ _ _ _ _ hcard; exact absurd hcard (Nat.not_lt_zero _)
  | succ fuel ih =>
      intro node visited stacked hinv hmem hnot hreach hcard
      have hnst : node ∉ stacked := fun h ↦ hnot (hinv.stacked_visited h)
      have hsd : insert node visited \ insert node stacked = visited \ stacked := by
        ext x
        by_cases hx : x = node
        · subst hx; simp [hnot]
        · simp [hx]
      have hinv₁ : SearchInv g (insert node visited) (insert node stacked) :=
        ⟨Finset.insert_subset_insert _ hinv.stacked_visited, hsd ▸ hinv.explored⟩
      have hreach₁ : ∀ x ∈ insert node stacked, ReflTransGen g.Adj x node := by
        intro x hx
        rcases Finset.mem_insert.mp hx with rfl | hx
        · exact ReflTransGen.refl
        · exact hreach x hx
      have hcard₁ : (g.vertices \ insert node visited).card < fuel := by
        have hlt := card_unvisited_insert_lt hmem hnot
        omega
      have hloop := visitNeighbors_spec (Finset.mem_insert_self node stacked) hreach₁
        (fun n visited hinv hadj hn hlt ↦ ih n visited _ hinv hadj.right_mem hn
          (fun x hx ↦ (hreach₁ x hx).tail hadj) hlt)
        (L.neighbors g node) (insert node visited)
        (fun n hn ↦ (L.mem_neighbors g node n).mp hn) hinv₁ hcard₁
      simp only [DFS]
      revert hloop
      cases visitNeighbors (DFS L g fuel) (L.neighbors g node) (insert node visited)
          (insert node stacked) with
      | none => exact id
      | some r =>
          obtain ⟨b, seen, stack⟩ := r
          cases b with
          | true => exact id
          | false =>
              rintro ⟨rfl, hsub, hinv', hall⟩
              have hpop : (insert node stacked).erase node = stacked := Finset.erase_insert hnst
              have hsplit : seen \ stacked = insert node (seen \ insert node stacked) := by
                ext x
                by_cases hx : x = node
                · subst hx
                  simp [hnst, hsub (Finset.mem_insert_self _ _)]
                · simp [hx]
              refine ⟨hpop, hsub, ?_, ?_⟩
              · exact (Finset.subset_insert _ _).trans hinv'.stacked_visited
              · rw [hsplit]
                refine hinv'.explored.insert fun w hw ↦ ?_
                exact hall w ((L.mem_neighbors g node w).mpr hw)

theorem visitVertices_spec {fuel : ℕ} (hfuel : g.vertices.card < fuel) :
    ∀ (vertices : List V) (visited : Finset V),
    (∀ v ∈ vertices, v ∈ g.vertices) → ExploredSet g.Adj visited →
    ∃ b, visitVertices (DFS L g fuel) vertices visited ∅ = some b ∧
      if b then ¬ Acyclic g.Adj
      else ∃ seen, visited ⊆ seen ∧ ExploredSet g.Adj seen ∧ ∀ v ∈ vertices, v ∈ seen := by
  intro vertices
  induction vertices with
  | nil => intro visited _ hex; exact ⟨false, rfl, visited, Finset.Subset.refl _, hex, by simp⟩
  | cons v vertices ih =>
      intro visited hmem hex
      have hmem' : ∀ w ∈ vertices, w ∈ g.vertices := fun w hw ↦ hmem w (List.mem_cons_of_mem v hw)
      by_cases hvis : v ∈ visited
      · obtain ⟨b, hb, hpost⟩ := ih visited hmem' hex
        refine ⟨b, by simpa [visitVertices, hvis] using hb, ?_⟩
        cases b with
        | true => exact hpost
        | false =>
            obtain ⟨seen, hsub, hex', hall⟩ := hpost
            refine ⟨seen, hsub, hex', fun w hw ↦ ?_⟩
            rcases List.mem_cons.mp hw with rfl | hw
            · exact hsub hvis
            · exact hall w hw
      · have hinv : SearchInv g visited ∅ := ⟨Finset.empty_subset _, by simpa using hex⟩
        have hcard : (g.vertices \ visited).card < fuel :=
          (Finset.card_le_card Finset.sdiff_subset).trans_lt hfuel
        have hcall := DFS_spec (L := L) fuel v visited ∅ hinv (hmem v (by simp))
          hvis (by simp) hcard
        simp only [visitVertices, hvis, not_false_eq_true, if_true]
        revert hcall
        cases DFS L g fuel v visited ∅ with
        | none => exact False.elim
        | some r =>
            obtain ⟨b, seen, stack⟩ := r
            cases b with
            | true => exact fun hcycle ↦ ⟨true, rfl, hcycle⟩
            | false =>
                rintro ⟨rfl, hsub, hinv'⟩
                obtain ⟨b, hb, hpost⟩ := ih seen hmem' (by simpa using hinv'.explored)
                refine ⟨b, hb, ?_⟩
                cases b with
                | true => exact hpost
                | false =>
                    obtain ⟨seen₂, hsub'', hex'', hall⟩ := hpost
                    refine ⟨seen₂, ((Finset.subset_insert _ _).trans hsub).trans hsub'', hex'',
                      fun w hw ↦ ?_⟩
                    rcases List.mem_cons.mp hw with rfl | hw
                    · exact hsub'' (hsub (Finset.mem_insert_self _ _))
                    · exact hall w hw

/-- With fuel for one more call than there are vertices the search returns, and its answer is
exact. -/
theorem visitVertices_exact (L : GraphListing V) (g : FiniteDigraph V) {fuel : ℕ}
    (hfuel : g.vertices.card < fuel) :
    ∃ b, visitVertices (DFS L g fuel) (L.vertices g) ∅ ∅ = some b ∧
      (b = true ↔ ¬ Acyclic g.Adj) := by
  obtain ⟨b, hb, hpost⟩ := visitVertices_spec (L := L) hfuel (L.vertices g) ∅
    (fun v hv ↦ (L.mem_vertices g v).mp hv) ⟨by simp, by simp⟩
  refine ⟨b, hb, ?_⟩
  cases b with
  | true => simpa using hpost
  | false =>
      obtain ⟨visited, -, hex, hall⟩ := hpost
      have hac : Acyclic g.Adj := by
        intro v hv
        obtain ⟨w, hvw, -⟩ := TransGen.head'_iff.mp hv
        exact hex.no_cycle v (hall v ((L.mem_vertices g v).mpr hvw.left_mem)) hv
      simpa using hac

theorem isCycle_spec (L : GraphListing V) (g : FiniteDigraph V) :
    ∃ b, isCycle L g = some b ∧ (b = true ↔ ¬ Acyclic g.Adj) :=
  visitVertices_exact L g (Nat.lt_succ_self _)

/-- The search returns on every graph, and 1 exactly if a vertex lies on a cycle.  A larger
bound on the depth changes nothing. -/
theorem isCycle_exact (L : GraphListing V) (g : FiniteDigraph V) :
    ∃ b, isCycle L g = some b ∧ (b = true ↔ ∃ v, TransGen g.Adj v v) ∧
      ∀ fuel, g.vertices.card < fuel →
        visitVertices (DFS L g fuel) (L.vertices g) ∅ ∅ = some b := by
  obtain ⟨b, hb, hexact⟩ := isCycle_spec L g
  refine ⟨b, hb, ?_, fun fuel hfuel ↦ ?_⟩
  · rw [hexact, Acyclic]
    push Not
    rfl
  · obtain ⟨c, hc, hexact'⟩ := visitVertices_exact L g hfuel
    have hcb : c = b := Bool.eq_iff_iff.mpr (hexact'.trans hexact.symm)
    rw [hc, hcb]

end SystemProgramming.DeadlockDemolition
