import SystemProgramming.ParallelMake.Model

/-!
# The cycle check of parmake

Before it builds anything, `parmake` searches for a cycle from every target in turn.  The
targets from which a search has found one are never entered again.
-/

namespace SystemProgramming.ParallelMake

open Relation

variable {Target : Type*} [DecidableEq Target]

/-- The targets with value 1 in `valid_target`, and the two sets of one search. -/
structure Search (Target : Type*) where
  condemned : Finset Target
  visited : Finset Target
  visiting : Finset Target

/-- The state in which the dependencies of `t` are searched. -/
def Search.enter (s : Search Target) (t : Target) : Search Target :=
  { s with visiting := insert t s.visiting }

namespace Makefile

variable (M : Makefile Target)

/-- The loop of `DFS_cycle` over the dependencies. -/
def searchNeighbors (dfs : Target → Search Target → Option (Bool × Search Target)) :
    List Target → Search Target → Option (Bool × Search Target)
  | [], s => some (false, s)
  | neighbor :: dependencies, s => do
    let (found, s) ← dfs neighbor s
    if found then some (true, s) else searchNeighbors dfs dependencies s

/-- `DFS_cycle`, with a bound on the depth of the recursion. -/
def DFSCycle : ℕ → Target → Search Target → Option (Bool × Search Target)
  | 0, _, _ => none
  | fuel + 1, target, s =>
      if target ∈ s.condemned then some (false, s)
      else if target = M.root then some (false, s)
      else if target ∈ s.visiting then
        some (true, { s with condemned := insert target s.condemned })
      else if target ∈ s.visited then some (false, s)
      else do
        let s := { s with visiting := insert target s.visiting }
        let (found, s) ← searchNeighbors (DFSCycle fuel) (M.neighbors target) s
        if found then some (true, { s with condemned := insert target s.condemned })
        else some (false, { s with visiting := s.visiting.erase target,
                                   visited := insert target s.visited })

/-- The calls of `print_cycle_failure`, in order. -/
def cycleFailures (fuel : ℕ) : List Target → Finset Target → Option (List Target)
  | [], _ => some []
  | target :: targets, condemned => do
    let (found, s) ← M.DFSCycle fuel target ⟨condemned, ∅, ∅⟩
    let failures ← cycleFailures fuel targets s.condemned
    pure (if found then target :: failures else failures)

/-- The part of `parmake` that reports cycles. -/
def reportCycles (fuel : ℕ) : Option (List Target) :=
  M.cycleFailures fuel (M.L.vertices M.g) ∅

/-! ## One search -/

/-- The edges that a search may follow. -/
def Open (C : Finset Target) (v w : Target) : Prop := M.g.Adj v w ∧ w ∉ C

/-- A cycle can be reached along such edges. -/
def ReachesCycle (C : Finset Target) (t : Target) : Prop :=
  ∃ c, ReflTransGen (M.Open C) t c ∧ TransGen (M.Open C) c c

variable {M} {C D : Finset Target} {t u : Target} {s s' : Search Target} {fuel : ℕ}

omit [DecidableEq Target] in
theorem Open.mono (h : C ⊆ D) (ho : M.Open D t u) : M.Open C t u :=
  ⟨ho.1, fun hu ↦ ho.2 (h hu)⟩

omit [DecidableEq Target] in
theorem ReachesCycle.mono (h : C ⊆ D) (hr : M.ReachesCycle D t) : M.ReachesCycle C t := by
  have hopen : ∀ v w, M.Open D v w → M.Open C v w := fun _ _ ↦ Open.mono h
  obtain ⟨c, hpath, hcycle⟩ := hr
  exact ⟨c, ReflTransGen.mono hopen t c hpath, TransGen.mono hopen c c hcycle⟩

omit [DecidableEq Target] in
theorem ReachesCycle.head (h : M.Open C t u) (hr : M.ReachesCycle C u) : M.ReachesCycle C t := by
  obtain ⟨c, hpath, hcycle⟩ := hr
  exact ⟨c, hpath.head h, hcycle⟩

/-- An unsuccessful call has visited targets that lead to no cycle. -/
structure Quiet (M : Makefile Target) (s s' : Search Target) : Prop where
  condemned : s'.condemned = s.condemned
  visiting : s'.visiting = s.visiting
  visited : s.visited ⊆ s'.visited
  explored : ExploredSet (M.Open s.condemned) s'.visited

/-- A successful call has condemned targets that lead to a cycle, the searched one among
them. -/
structure Condemns (M : Makefile Target) (t : Target) (s s' : Search Target) : Prop where
  mono : s.condemned ⊆ s'.condemned
  mem : t ∈ s'.condemned
  fresh : t ∉ s.condemned
  cyclic : ∀ u ∈ s'.condemned, u ∉ s.condemned → u ≠ M.root ∧ M.ReachesCycle s.condemned u

def DFSPost (M : Makefile Target) (t : Target) (s : Search Target) :
    Option (Bool × Search Target) → Prop
  | none => False
  | some (true, s') => M.Condemns t s s'
  | some (false, s') => M.Quiet s s' ∧ (t = M.root ∨ t ∈ s.condemned ∨ t ∈ s'.visited)

/-- The loop ends at the first dependency that is searched with success. -/
def LoopPost (M : Makefile Target) (dfs : Target → Search Target → Option (Bool × Search Target))
    (ns : List Target) (s : Search Target) : Option (Bool × Search Target) → Prop
  | none => False
  | some (true, s') => ∃ pre n post s₁, ns = pre ++ n :: post ∧ M.Quiet s s₁ ∧
      (∀ m ∈ pre, m ∈ s.condemned ∨ m ∈ s₁.visited) ∧ dfs n s₁ = some (true, s')
  | some (false, s') => M.Quiet s s' ∧ ∀ n ∈ ns, n ∈ s.condemned ∨ n ∈ s'.visited

omit [DecidableEq Target] in
theorem Quiet.refl (h : ExploredSet (M.Open s.condemned) s.visited) : M.Quiet s s :=
  ⟨rfl, rfl, Finset.Subset.refl _, h⟩

omit [DecidableEq Target] in
theorem Quiet.trans {s₁ : Search Target} (h : M.Quiet s s₁) (h' : M.Quiet s₁ s') :
    M.Quiet s s' where
  condemned := h'.condemned.trans h.condemned
  visiting := h'.visiting.trans h.visiting
  visited := h.visited.trans h'.visited
  explored := h.condemned ▸ h'.explored

omit [DecidableEq Target] in
/-- A dependency in front of the rest of the loop. -/
theorem LoopPost.cons {dfs : Target → Search Target → Option (Bool × Search Target)} {n : Target}
    {ns : List Target} {s₁ : Search Target} {r : Option (Bool × Search Target)}
    (h : M.LoopPost dfs ns s₁ r) (hquiet : M.Quiet s s₁)
    (hn : n ∈ s.condemned ∨ n ∈ s₁.visited) : M.LoopPost dfs (n :: ns) s r := by
  match r with
  | none => exact h
  | some (true, s') =>
      obtain ⟨pre, m, post, s₂, rfl, hquiet', hpre, hcall⟩ := h
      refine ⟨n :: pre, m, post, s₂, rfl, hquiet.trans hquiet', fun k hk ↦ ?_, hcall⟩
      rcases List.mem_cons.mp hk with rfl | hk
      · exact hn.imp_right fun hmem ↦ hquiet'.visited hmem
      · rw [← hquiet.condemned]
        exact hpre k hk
  | some (false, s') =>
      obtain ⟨hquiet', hall⟩ := h
      refine ⟨hquiet.trans hquiet', fun k hk ↦ ?_⟩
      rcases List.mem_cons.mp hk with rfl | hk
      · exact hn.imp_right fun hmem ↦ hquiet'.visited hmem
      · rw [← hquiet.condemned]
        exact hall k hk

omit [DecidableEq Target] in
theorem searchNeighbors_spec {dfs : Target → Search Target → Option (Bool × Search Target)}
    (ns : List Target) (hroot : ∀ n ∈ ns, n ≠ M.root)
    (hdfs : ∀ n ∈ ns, ∀ s₁, M.Quiet s s₁ → M.DFSPost n s₁ (dfs n s₁))
    (hs : ExploredSet (M.Open s.condemned) s.visited) :
    M.LoopPost dfs ns s (searchNeighbors dfs ns s) := by
  induction ns generalizing s with
  | nil => exact ⟨.refl hs, by simp⟩
  | cons n ns ih =>
    have hcall := hdfs n (by simp) s (.refl hs)
    rw [searchNeighbors]
    match hr : dfs n s with
    | none =>
      rw [hr] at hcall
      exact hcall
    | some (true, s₁) => exact ⟨[], n, ns, s, rfl, .refl hs, by simp, hr⟩
    | some (false, s₁) =>
      rw [hr] at hcall
      obtain ⟨hquiet, hn⟩ := hcall
      have hrest : M.LoopPost dfs ns s₁ (searchNeighbors dfs ns s₁) := by
        refine ih (fun m hm ↦ hroot m (by simp [hm])) ?_ (hquiet.condemned ▸ hquiet.explored)
        exact fun m hm s₂ hs₂ ↦ hdfs m (by simp [hm]) s₂ (hquiet.trans hs₂)
      exact hrest.cons hquiet (hn.resolve_left (hroot n (by simp)))

omit [DecidableEq Target] in
theorem ne_root_of_mem_neighbors (h : u ∈ M.neighbors t) : u ≠ M.root := by
  rintro rfl
  exact M.not_adj_root t (M.mem_neighbors.mp h)

/-- A node whose dependencies lead to no cycle is left. -/
theorem Quiet.leave (ht : t ∉ s.visiting)
    (h : M.Quiet { s with visiting := insert t s.visiting } s')
    (hall : ∀ n ∈ M.neighbors t, n ∈ s.condemned ∨ n ∈ s'.visited) :
    M.Quiet s { s' with visiting := s'.visiting.erase t, visited := insert t s'.visited } where
  condemned := h.condemned
  visiting := by rw [h.visiting, Finset.erase_insert ht]
  visited := h.visited.trans (Finset.subset_insert _ _)
  explored := by
    refine h.explored.insert fun w hw ↦ ?_
    exact (hall w (M.mem_neighbors.mpr hw.1)).resolve_left hw.2

/-- A node from which a condemned dependency can be reached is condemned. -/
theorem Condemns.leave {n : Target} {s₁ : Search Target} (h : M.Condemns n s₁ s')
    (hcondemned : s₁.condemned = s.condemned) (ht : t ∉ s.condemned) (hroot : t ≠ M.root)
    (hadj : M.g.Adj t n) :
    M.Condemns t s { s' with condemned := insert t s'.condemned } := by
  have hn : M.ReachesCycle s.condemned n := by
    rw [← hcondemned]
    exact (h.cyclic n h.mem h.fresh).2
  have hopen : M.Open s.condemned t n := ⟨hadj, hcondemned ▸ h.fresh⟩
  refine ⟨?_, Finset.mem_insert_self _ _, ht, ?_⟩
  · rw [← hcondemned]
    exact h.mono.trans (Finset.subset_insert _ _)
  · intro u hu hnot
    rcases Finset.mem_insert.mp hu with rfl | hu
    · exact ⟨hroot, hn.head hopen⟩
    · rw [← hcondemned] at hnot ⊢
      exact h.cyclic u hu hnot

/-- What a call relies on: every node on the path leads to its target, and enough fuel is
left. -/
structure Ready (M : Makefile Target) (fuel : ℕ) (t : Target) (s : Search Target) : Prop where
  mem : t ∈ M.g.vertices
  explored : ExploredSet (M.Open s.condemned) s.visited
  reach : t ∉ s.condemned → ∀ x ∈ s.visiting, TransGen (M.Open s.condemned) x t
  fuel_lt : (M.g.vertices \ s.visiting).card < fuel

theorem Ready.neighbor {n : Target} {s₁ : Search Target} (h : M.Ready (fuel + 1) t s)
    (hcond : t ∉ s.condemned) (hst : t ∉ s.visiting) (hn : n ∈ M.neighbors t)
    (hquiet : M.Quiet (s.enter t) s₁) : M.Ready fuel n s₁ := by
  have hadj := M.mem_neighbors.mp hn
  refine ⟨hadj.right_mem, hquiet.condemned ▸ hquiet.explored, ?_, ?_⟩
  · intro hfresh x hx
    rw [hquiet.condemned] at hfresh ⊢
    rw [hquiet.visiting] at hx
    have hopen : M.Open s.condemned t n := ⟨hadj, hfresh⟩
    rcases Finset.mem_insert.mp hx with rfl | hx
    · exact .single hopen
    · exact (h.reach hcond x hx).tail hopen
  · rw [hquiet.visiting]
    have hlt : (M.g.vertices \ insert t s.visiting).card < (M.g.vertices \ s.visiting).card := by
      rw [Finset.sdiff_insert]
      exact Finset.card_erase_lt_of_mem (Finset.mem_sdiff.mpr ⟨h.mem, hst⟩)
    exact hlt.trans_le (Nat.le_of_lt_succ h.fuel_lt)

/-- The end of a call that has searched the dependencies. -/
def leave (t : Target) : Bool × Search Target → Option (Bool × Search Target)
  | (true, s) => some (true, { s with condemned := insert t s.condemned })
  | (false, s) => some (false, { s with visiting := s.visiting.erase t,
                                        visited := insert t s.visited })

theorem DFSCycle_enter (hcond : t ∉ s.condemned) (hroot : t ≠ M.root) (hst : t ∉ s.visiting)
    (hvis : t ∉ s.visited) : M.DFSCycle (fuel + 1) t s =
      (searchNeighbors (M.DFSCycle fuel) (M.neighbors t) (s.enter t)).bind (leave t) := by
  rw [DFSCycle, if_neg hcond, if_neg hroot, if_neg hst, if_neg hvis]
  show (searchNeighbors (M.DFSCycle fuel) (M.neighbors t) (s.enter t)).bind _ = _
  congr 1
  funext r
  obtain ⟨found, s'⟩ := r
  cases found <;> simp [leave]

theorem DFSCycle_spec (h : M.Ready fuel t s) : M.DFSPost t s (M.DFSCycle fuel t s) := by
  induction fuel generalizing t s with
  | zero => exact absurd h.fuel_lt (Nat.not_lt_zero _)
  | succ fuel ih =>
    by_cases hcond : t ∈ s.condemned
    · rw [DFSCycle, if_pos hcond]
      exact ⟨.refl h.explored, .inr (.inl hcond)⟩
    by_cases hroot : t = M.root
    · rw [DFSCycle, if_neg hcond, if_pos hroot]
      exact ⟨.refl h.explored, .inl hroot⟩
    by_cases hst : t ∈ s.visiting
    · -- the path from `t` back to `t`
      rw [DFSCycle, if_neg hcond, if_neg hroot, if_pos hst]
      have hcycle := h.reach hcond t hst
      refine ⟨Finset.subset_insert _ _, Finset.mem_insert_self _ _, hcond, fun u hu hnot ↦ ?_⟩
      obtain rfl := (Finset.mem_insert.mp hu).resolve_right hnot
      exact ⟨hroot, u, .refl, hcycle⟩
    by_cases hvis : t ∈ s.visited
    · rw [DFSCycle, if_neg hcond, if_neg hroot, if_neg hst, if_pos hvis]
      exact ⟨.refl h.explored, .inr (.inr hvis)⟩
    have hdfs : ∀ n ∈ M.neighbors t, ∀ s₁, M.Quiet (s.enter t) s₁ →
        M.DFSPost n s₁ (M.DFSCycle fuel n s₁) := by
      intro n hn s₁ hquiet
      exact ih (h.neighbor hcond hst hn hquiet)
    have hloop := searchNeighbors_spec _ (fun n ↦ ne_root_of_mem_neighbors) hdfs h.explored
    rw [DFSCycle_enter hcond hroot hst hvis]
    match hr : searchNeighbors (M.DFSCycle fuel) (M.neighbors t) (s.enter t) with
    | none =>
      rw [hr] at hloop
      exact hloop.elim
    | some (false, s') =>
      rw [hr] at hloop
      obtain ⟨hquiet, hall⟩ := hloop
      exact ⟨hquiet.leave hst hall, .inr (.inr (Finset.mem_insert_self _ _))⟩
    | some (true, s') =>
      rw [hr] at hloop
      obtain ⟨pre, n, post, s₁, hns, hquiet, -, hcall⟩ := hloop
      have hn : n ∈ M.neighbors t := by simp [hns]
      have hpost := hdfs n hn s₁ hquiet
      rw [hcall] at hpost
      exact Condemns.leave hpost hquiet.condemned hcond hroot (M.mem_neighbors.mp hn)

/-! ## The search from a target -/

/-- The first dependency of `t` from which a search succeeds is `t` itself. -/
def LoopsFirst (M : Makefile Target) (C : Finset Target) (t : Target) : Prop :=
  M.g.Adj t t ∧ ∀ n ∈ (M.neighbors t).takeWhile (· ≠ t), n ∈ C ∨ ¬ M.ReachesCycle C n

/-- What a search from `t` finds, with the targets that are condemned behind it. -/
structure Finds (M : Makefile Target) (C : Finset Target) (t : Target) (found : Bool)
    (D : Finset Target) : Prop where
  found_iff : found = true ↔ t ≠ M.root ∧ t ∉ C ∧ M.ReachesCycle C t
  quiet : found = false → D = C
  mono : C ⊆ D
  mem : found = true → t ∈ D
  cyclic : ∀ u ∈ D, u ∉ C → u ≠ M.root ∧ M.ReachesCycle C u
  alone : found = true → (D = insert t C ↔ M.LoopsFirst C t)

theorem ready (hmem : t ∈ M.g.vertices) (hfuel : M.g.vertices.card < fuel) :
    M.Ready fuel t ⟨C, ∅, ∅⟩ where
  mem := hmem
  explored := ⟨by simp, by simp⟩
  reach := by simp
  fuel_lt := by simpa using hfuel

/-- Only `t` is condemned exactly when the loop over its dependencies stops at `t`. -/
theorem eq_insert_iff (hmem : t ∈ M.g.vertices) (hfuel : M.g.vertices.card < fuel)
    (hroot : t ≠ M.root) (ht : t ∉ C) {s' : Search Target}
    (h : M.DFSCycle fuel t ⟨C, ∅, ∅⟩ = some (true, s')) :
    s'.condemned = insert t C ↔ M.LoopsFirst C t := by
  obtain _ | fuel := fuel
  · cases h
  have hready : M.Ready (fuel + 1) t ⟨C, ∅, ∅⟩ := ready hmem hfuel
  have hdfs : ∀ n ∈ M.neighbors t, ∀ s₁, M.Quiet (Search.enter ⟨C, ∅, ∅⟩ t) s₁ →
      M.DFSPost n s₁ (M.DFSCycle fuel n s₁) := by
    intro n hn s₁ hquiet
    exact DFSCycle_spec (hready.neighbor ht (by simp) hn hquiet)
  have hloop := searchNeighbors_spec _ (fun n ↦ ne_root_of_mem_neighbors) hdfs hready.explored
  rw [DFSCycle_enter ht hroot (by simp) (by simp)] at h
  obtain ⟨r, hr, hleave⟩ := Option.bind_eq_some_iff.mp h
  rw [hr] at hloop
  match r with
  | (false, _) => cases hleave
  | (true, s₂) =>
    obtain ⟨pre, n, post, s₁, hns, hquiet, hpre, hcall⟩ := hloop
    obtain rfl : s' = { s₂ with condemned := insert t s₂.condemned } := by
      simpa [leave, eq_comm] using hleave
    have hn := hdfs n (by simp [hns]) s₁ hquiet
    rw [hcall] at hn
    have hcond : s₁.condemned = C := hquiet.condemned
    have hquiet_pre : ∀ m ∈ pre, m ∈ C ∨ ¬ M.ReachesCycle C m := by
      intro m hm
      refine (hpre m hm).imp_right fun hvis ↦ ?_
      rintro ⟨c, hpath, hcycle⟩
      exact hquiet.explored.not_reach_cycle hvis hpath hcycle
    -- an edge from `t` to `t` in front of `n` would have ended the loop
    have hself (hadj : M.g.Adj t t) : t ∉ pre := by
      intro hmem
      have hopen : M.Open C t t := ⟨hadj, ht⟩
      exact (hquiet_pre t hmem).elim ht fun hnot ↦ hnot ⟨t, .refl, .single hopen⟩
    have htake (hadj : M.g.Adj t t) : (M.neighbors t).takeWhile (· ≠ t) =
        pre ++ (n :: post).takeWhile (· ≠ t) := by
      rw [hns, List.takeWhile_append_of_pos]
      intro m hm
      have hne : m ≠ t := fun heq ↦ hself hadj (heq ▸ hm)
      simpa using hne
    have hfresh : n ∉ C := hcond ▸ hn.fresh
    constructor
    · intro heq
      have hnt : n = t := by
        have hmem : n ∈ insert t C := heq ▸ Finset.mem_insert_of_mem hn.mem
        exact (Finset.mem_insert.mp hmem).resolve_right hfresh
      subst hnt
      have hadj : M.g.Adj n n := M.mem_neighbors.mp (by simp [hns])
      refine ⟨hadj, fun m hm ↦ hquiet_pre m ?_⟩
      rw [htake hadj] at hm
      simpa using hm
    · rintro ⟨hadj, hfirst⟩
      have hnt : n = t := by
        by_contra hne
        have hmem : n ∈ (M.neighbors t).takeWhile (· ≠ t) := by
          rw [htake hadj]
          simp [hne]
        refine (hfirst n hmem).elim hfresh fun hnot ↦ hnot ?_
        exact hcond ▸ (hn.cyclic n hn.mem hn.fresh).2
      subst hnt
      have hvisiting : n ∈ s₁.visiting := by
        rw [hquiet.visiting]
        exact Finset.mem_insert_self _ _
      obtain _ | fuel := fuel
      · cases hcall
      rw [DFSCycle, if_neg hn.fresh, if_neg hroot, if_pos hvisiting] at hcall
      obtain rfl : _ = s₂ := by simpa using hcall
      simp [hcond]

theorem exists_finds (C : Finset Target) (hmem : t ∈ M.g.vertices)
    (hfuel : M.g.vertices.card < fuel) :
    ∃ found s', M.DFSCycle fuel t ⟨C, ∅, ∅⟩ = some (found, s') ∧
      M.Finds C t found s'.condemned := by
  have hready : M.Ready fuel t ⟨C, ∅, ∅⟩ := ready hmem hfuel
  have hpost := DFSCycle_spec hready
  match hr : M.DFSCycle fuel t ⟨C, ∅, ∅⟩ with
  | none =>
    rw [hr] at hpost
    exact hpost.elim
  | some (false, s') =>
    rw [hr] at hpost
    obtain ⟨hquiet, ht⟩ := hpost
    refine ⟨false, s', rfl, ⟨?_, fun _ ↦ hquiet.condemned, ?_, by simp, ?_, by simp⟩⟩
    · simp only [Bool.false_eq_true, false_iff]
      rintro ⟨hroot, hnot, c, hpath, hcycle⟩
      rcases ht with hr | hC | hvis
      · exact hroot hr
      · exact hnot hC
      · exact hquiet.explored.not_reach_cycle hvis hpath hcycle
    · exact hquiet.condemned.ge
    · intro u hu hnot
      rw [hquiet.condemned] at hu
      exact absurd hu hnot
  | some (true, s') =>
    rw [hr] at hpost
    obtain ⟨hroot, hcycle⟩ := hpost.cyclic t hpost.mem hpost.fresh
    have halone := eq_insert_iff hmem hfuel hroot hpost.fresh hr
    refine ⟨true, s', rfl, ⟨?_, by simp, hpost.mono, fun _ ↦ hpost.mem, hpost.cyclic,
      fun _ ↦ halone⟩⟩
    simpa using ⟨hroot, hpost.fresh, hcycle⟩

/-! ## The loop over the targets -/

/-- Only targets that lead to a cycle are reported, and none twice. -/
structure Failures (M : Makefile Target) (C : Finset Target) (failures : List Target) : Prop where
  nodup : failures.Nodup
  mem : ∀ t ∈ failures, t ≠ M.root ∧ t ∉ C ∧ M.ReachesCycle C t

theorem cycleFailures_cons {targets failures : List Target} {found : Bool}
    (hcall : M.DFSCycle fuel t ⟨C, ∅, ∅⟩ = some (found, s))
    (hrest : M.cycleFailures fuel targets s.condemned = some failures) :
    M.cycleFailures fuel (t :: targets) C =
      some (if found = true then t :: failures else failures) := by
  simp [cycleFailures, hcall, hrest]

theorem exists_cycleFailures (targets : List Target) (C : Finset Target)
    (hmem : ∀ t ∈ targets, t ∈ M.g.vertices) (hfuel : M.g.vertices.card < fuel) :
    ∃ failures, M.cycleFailures fuel targets C = some failures ∧
      M.Failures C failures := by
  induction targets generalizing C with
  | nil => exact ⟨[], rfl, List.nodup_nil, by simp⟩
  | cons t targets ih =>
    obtain ⟨found, s, hcall, hfinds⟩ := exists_finds C (hmem t (by simp)) hfuel
    obtain ⟨failures, hrest, hfailures⟩ :=
      ih s.condemned fun u hu ↦ hmem u (List.mem_cons_of_mem t hu)
    have hkept : ∀ u ∈ failures, u ≠ M.root ∧ u ∉ C ∧ M.ReachesCycle C u := by
      intro u hu
      obtain ⟨hroot, hnot, hcycle⟩ := hfailures.mem u hu
      exact ⟨hroot, fun hC ↦ hnot (hfinds.mono hC), hcycle.mono hfinds.mono⟩
    refine ⟨_, cycleFailures_cons hcall hrest, ?_⟩
    cases found with
    | false => exact ⟨hfailures.nodup, hkept⟩
    | true =>
      have hfresh : t ∉ failures := fun ht ↦ (hfailures.mem t ht).2.1 (hfinds.mem rfl)
      refine ⟨List.nodup_cons.mpr ⟨hfresh, hfailures.nodup⟩, fun u hu ↦ ?_⟩
      rcases List.mem_cons.mp hu with rfl | hu
      · exact hfinds.found_iff.mp rfl
      · exact hkept u hu

/-- Everything that leads to a cycle and is not condemned is reported. -/
def Complete (M : Makefile Target) (C : Finset Target) (failures : List Target) : Prop :=
  ∀ u, u ≠ M.root → M.ReachesCycle ∅ u → u ∉ C → u ∈ failures

/-- Every target that leads to a cycle depends on itself, and the dependencies in front of
this one that lead to a cycle come earlier. -/
def SelfLoops (M : Makefile Target) (C : Finset Target) (targets : List Target) : Prop :=
  ∀ u, u ≠ M.root → M.ReachesCycle ∅ u → u ∉ C → M.g.Adj u u ∧
    ∀ n ∈ (M.neighbors u).takeWhile (· ≠ u), M.ReachesCycle ∅ n →
      n ∈ C ∨ n ∈ targets.takeWhile (· ≠ u)

theorem mem_takeWhile_cons {targets : List Target} {n : Target} (hne : t ≠ u) :
    n ∈ (t :: targets).takeWhile (· ≠ u) ↔ n = t ∨ n ∈ targets.takeWhile (· ≠ u) := by
  rw [List.takeWhile_cons_of_pos (by simpa using hne), List.mem_cons]

theorem mem_neighbors_of_mem_takeWhile {n : Target}
    (h : n ∈ (M.neighbors u).takeWhile (· ≠ u)) : n ∈ M.neighbors u :=
  (List.takeWhile_sublist _).subset h

/-- A target that is not searched makes no difference. -/
theorem selfLoops_cons_iff {targets : List Target}
    (ht : t ≠ M.root → M.ReachesCycle ∅ t → t ∈ C) :
    M.SelfLoops C (t :: targets) ↔ M.SelfLoops C targets := by
  refine forall_congr' fun u ↦ forall₃_congr fun hroot hcycle hnot ↦ and_congr_right fun _ ↦ ?_
  have hne : t ≠ u := by
    rintro rfl
    exact hnot (ht hroot hcycle)
  refine forall₃_congr fun n hn hn' ↦ ?_
  rw [mem_takeWhile_cons hne]
  constructor
  · rintro (hC | rfl | htake)
    · exact .inl hC
    · exact .inl (ht (ne_root_of_mem_neighbors (mem_neighbors_of_mem_takeWhile hn)) hn')
    · exact .inr htake
  · exact Or.imp_right .inr

/-- A target that is condemned alone counts as condemned from then on. -/
theorem SelfLoops.of_cons {targets : List Target} (h : M.SelfLoops C (t :: targets)) :
    M.SelfLoops (insert t C) targets := by
  intro u hroot hcycle hnot
  rw [Finset.mem_insert, not_or] at hnot
  obtain ⟨hself, hbefore⟩ := h u hroot hcycle hnot.2
  refine ⟨hself, fun n hn hn' ↦ ?_⟩
  rcases hbefore n hn hn' with hC | htake
  · exact .inl (Finset.mem_insert_of_mem hC)
  · rcases (mem_takeWhile_cons (Ne.symm hnot.1)).mp htake with rfl | htake
    · exact .inl (Finset.mem_insert_self _ _)
    · exact .inr htake

theorem SelfLoops.cons {targets : List Target} (h : M.SelfLoops (insert t C) targets)
    (hfirst : M.LoopsFirst C t) : M.SelfLoops C (t :: targets) := by
  intro u hroot hcycle hnot
  rcases eq_or_ne u t with rfl | hne
  · refine ⟨hfirst.1, fun n hn hn' ↦ .inl ?_⟩
    by_contra hC
    -- `n` depends on itself, so the search from `u` would have condemned it
    have hnu : n ≠ u := by simpa using List.mem_takeWhile_imp hn
    have hnroot := ne_root_of_mem_neighbors (mem_neighbors_of_mem_takeWhile hn)
    have hopen : M.Open C n n := ⟨(h n hnroot hn' (by simp [hnu, hC])).1, hC⟩
    exact (hfirst.2 n hn).elim hC fun hblocked ↦ hblocked ⟨n, .refl, .single hopen⟩
  · obtain ⟨hself, hbefore⟩ := h u hroot hcycle (by simp [hne, hnot])
    refine ⟨hself, fun n hn hn' ↦ ?_⟩
    rw [mem_takeWhile_cons hne.symm]
    rcases hbefore n hn hn' with hC | htake
    · exact (Finset.mem_insert.mp hC).symm.imp_right .inl
    · exact .inr (.inr htake)

theorem SelfLoops.loopsFirst {targets : List Target} (h : M.SelfLoops C (t :: targets))
    (hroot : t ≠ M.root) (hcycle : M.ReachesCycle ∅ t) (hnot : t ∉ C) : M.LoopsFirst C t := by
  obtain ⟨hadj, hbefore⟩ := h t hroot hcycle hnot
  refine ⟨hadj, fun n hn ↦ ?_⟩
  by_cases hr : M.ReachesCycle C n
  · left
    simpa using hbefore n hn (hr.mono (Finset.empty_subset _))
  · exact .inr hr

/-- What is left to report behind a target that is condemned alone. -/
theorem complete_cons_iff {rest : List Target} :
    M.Complete C (t :: rest) ↔ M.Complete (insert t C) rest := by
  constructor
  · intro h u hroot hcycle hnot
    rw [Finset.mem_insert, not_or] at hnot
    exact (List.mem_cons.mp (h u hroot hcycle hnot.2)).resolve_left hnot.1
  · intro h u hroot hcycle hnot
    rcases eq_or_ne u t with rfl | hne
    · exact List.mem_cons_self
    · exact List.mem_cons_of_mem t (h u hroot hcycle (by simp [hne, hnot]))

theorem complete_iff_selfLoops (targets : List Target) (C : Finset Target)
    {failures : List Target} (hmem : ∀ t ∈ targets, t ∈ M.g.vertices)
    (hfuel : M.g.vertices.card < fuel) (hcover : M.Complete C targets)
    (h : M.cycleFailures fuel targets C = some failures) :
    M.Complete C failures ↔ M.SelfLoops C targets := by
  induction targets generalizing C failures with
  | nil =>
    have hnone : ∀ u, u ≠ M.root → M.ReachesCycle ∅ u → u ∉ C → False := by
      intro u hroot hcycle hnot
      exact List.not_mem_nil (hcover u hroot hcycle hnot)
    exact ⟨fun _ u hroot hcycle hnot ↦ (hnone u hroot hcycle hnot).elim,
      fun _ u hroot hcycle hnot ↦ (hnone u hroot hcycle hnot).elim⟩
  | cons t targets ih =>
    have hmem' : ∀ u ∈ targets, u ∈ M.g.vertices := fun u hu ↦ hmem u (List.mem_cons_of_mem t hu)
    obtain ⟨found, s, hcall, hfinds⟩ := exists_finds C (hmem t (by simp)) hfuel
    obtain ⟨rest, hrest, hfailures⟩ := exists_cycleFailures targets s.condemned hmem' hfuel
    obtain rfl : _ = failures := Option.some.inj ((cycleFailures_cons hcall hrest).symm.trans h)
    cases found with
    | false =>
      have hD : s.condemned = C := hfinds.quiet rfl
      rw [hD] at hrest hfailures
      by_cases ht : t ≠ M.root → M.ReachesCycle ∅ t → t ∈ C
      · rw [selfLoops_cons_iff ht]
        refine ih C hmem' ?_ hrest
        intro u hroot hcycle hnot
        refine (List.mem_cons.mp (hcover u hroot hcycle hnot)).resolve_left ?_
        rintro rfl
        exact hnot (ht hroot hcycle)
      · -- only condemned targets lead from `t` to a cycle
        push Not at ht
        obtain ⟨hroot, hcycle, hnot⟩ := ht
        have hblocked : ¬ M.ReachesCycle C t := fun hr ↦
          absurd (hfinds.found_iff.mpr ⟨hroot, hnot, hr⟩) (by simp)
        refine iff_of_false (fun hall ↦ ?_) fun hloops ↦ ?_
        · exact hblocked (hfailures.mem t (hall t hroot hcycle hnot)).2.2
        · have hopen : M.Open C t t := ⟨(hloops t hroot hcycle hnot).1, hnot⟩
          exact hblocked ⟨t, .refl, .single hopen⟩
    | true =>
      obtain ⟨hroot, hnot, hcycle⟩ := hfinds.found_iff.mp rfl
      have hcycle₀ : M.ReachesCycle ∅ t := hcycle.mono (Finset.empty_subset _)
      simp only [if_true]
      by_cases hD : s.condemned = insert t C
      · rw [hD] at hrest hfailures
        have hcover' : M.Complete (insert t C) targets := by
          intro u hr hc hn
          rw [Finset.mem_insert, not_or] at hn
          exact (List.mem_cons.mp (hcover u hr hc hn.2)).resolve_left hn.1
        rw [complete_cons_iff, ih (insert t C) hmem' hcover' hrest]
        exact ⟨fun hloops ↦ hloops.cons ((hfinds.alone rfl).mp hD), SelfLoops.of_cons⟩
      · refine iff_of_false (fun hall ↦ hD ?_) fun hloops ↦ hD ?_
        · -- a target that is condemned together with `t` is never reported
          refine Finset.Subset.antisymm (fun u hu ↦ ?_)
            (Finset.insert_subset (hfinds.mem rfl) hfinds.mono)
          rw [Finset.mem_insert, or_iff_not_imp_right]
          intro hu'
          obtain ⟨hr, hc⟩ := hfinds.cyclic u hu hu'
          refine (List.mem_cons.mp (hall u hr (hc.mono (Finset.empty_subset _)) hu')).resolve_right ?_
          exact fun hmem ↦ (hfailures.mem u hmem).2.1 hu
        · exact (hfinds.alone rfl).mpr (hloops.loopsFirst hroot hcycle₀ hnot)

/-! ## The report -/

/-- A directed cycle can be reached from `t`. -/
def Cyclic (M : Makefile Target) (t : Target) : Prop :=
  ∃ c, ReflTransGen M.g.Adj t c ∧ TransGen M.g.Adj c c

omit [DecidableEq Target] in
theorem reachesCycle_empty : M.ReachesCycle ∅ t ↔ M.Cyclic t := by
  have hopen : M.Open ∅ = M.g.Adj := by
    funext v w
    simp [Open]
  rw [ReachesCycle, Cyclic, hopen]

omit [DecidableEq Target] in
theorem Cyclic.mem (h : M.Cyclic t) : t ∈ M.g.vertices := by
  obtain ⟨c, hpath, hcycle⟩ := h
  obtain ⟨w, hadj, -⟩ := TransGen.head'_iff.mp (TransGen.trans_right hpath hcycle)
  exact hadj.left_mem

/-- Without a report no search has found anything. -/
theorem not_reachesCycle_of_nil (targets : List Target) (C : Finset Target)
    (hmem : ∀ t ∈ targets, t ∈ M.g.vertices) (hfuel : M.g.vertices.card < fuel)
    (h : M.cycleFailures fuel targets C = some []) :
    ∀ t ∈ targets, t ≠ M.root → t ∉ C → ¬ M.ReachesCycle C t := by
  induction targets with
  | nil => simp
  | cons t targets ih =>
    have hmem' : ∀ u ∈ targets, u ∈ M.g.vertices := fun u hu ↦ hmem u (List.mem_cons_of_mem t hu)
    obtain ⟨found, s, hcall, hfinds⟩ := exists_finds C (hmem t (by simp)) hfuel
    obtain ⟨rest, hrest, -⟩ := exists_cycleFailures targets s.condemned hmem' hfuel
    rw [cycleFailures_cons hcall hrest, Option.some.injEq] at h
    cases found with
    | true => simp at h
    | false =>
      obtain rfl : rest = [] := by simpa using h
      rw [hfinds.quiet rfl] at hrest
      intro u hu hroot hnot hcycle
      rcases List.mem_cons.mp hu with rfl | hu
      · exact absurd (hfinds.found_iff.mpr ⟨hroot, hnot, hcycle⟩) (by simp)
      · exact ih hmem' hrest u hu hroot hnot hcycle

/-- `parmake` goes on to build exactly the graphs without a cycle. -/
theorem reportCycles_eq_nil_iff (hfuel : M.g.vertices.card < fuel) :
    M.reportCycles fuel = some [] ↔ Acyclic M.g.Adj := by
  have hmem : ∀ t ∈ M.L.vertices M.g, t ∈ M.g.vertices := fun t ↦ (M.L.mem_vertices M.g t).mp
  constructor
  · intro h c hcycle
    obtain ⟨w, hadj, -⟩ := TransGen.head'_iff.mp hcycle
    obtain ⟨v, -, hback⟩ := TransGen.tail'_iff.mp hcycle
    have hroot : c ≠ M.root := fun heq ↦ M.not_adj_root v (heq ▸ hback)
    refine not_reachesCycle_of_nil _ ∅ hmem hfuel h c ?_ hroot (Finset.notMem_empty c) ?_
    · exact (M.L.mem_vertices M.g c).mpr hadj.left_mem
    · exact reachesCycle_empty.mpr ⟨c, .refl, hcycle⟩
  · intro hac
    obtain ⟨failures, hrun, hfailures⟩ := exists_cycleFailures (M.L.vertices M.g) ∅ hmem hfuel
    rw [reportCycles, hrun, Option.some.injEq, List.eq_nil_iff_forall_not_mem]
    intro t ht
    obtain ⟨c, -, hcycle⟩ := reachesCycle_empty.mp (hfailures.mem t ht).2.2
    exact hac c hcycle

end Makefile

/-- The report names only targets that lead to a cycle, and none twice.  It names all of them
exactly when every one depends on itself and, of its dependencies that lead to a cycle, those
listed before itself come before it in the list of targets. -/
theorem cycle_report_iff (M : Makefile Target) {fuel : ℕ} (hfuel : M.g.vertices.card < fuel) :
    ∃ failures, M.reportCycles fuel = some failures ∧ failures.Nodup ∧
      (∀ t ∈ failures, t ≠ M.root ∧ M.Cyclic t) ∧
      ((∀ t, t ∈ failures ↔ t ≠ M.root ∧ M.Cyclic t) ↔
        ∀ t, t ≠ M.root → M.Cyclic t → M.g.Adj t t ∧
          ∀ n ∈ (M.neighbors t).takeWhile (· ≠ t), M.Cyclic n →
            n ∈ (M.L.vertices M.g).takeWhile (· ≠ t)) := by
  have hmem : ∀ t ∈ M.L.vertices M.g, t ∈ M.g.vertices := fun t ↦ (M.L.mem_vertices M.g t).mp
  obtain ⟨failures, hrun, hfailures⟩ := M.exists_cycleFailures (M.L.vertices M.g) ∅ hmem hfuel
  have hsound : ∀ t ∈ failures, t ≠ M.root ∧ M.Cyclic t := by
    intro t ht
    obtain ⟨hroot, -, hcycle⟩ := hfailures.mem t ht
    exact ⟨hroot, Makefile.reachesCycle_empty.mp hcycle⟩
  have hcover : M.Complete ∅ (M.L.vertices M.g) := fun u _ hcycle _ ↦
    (M.L.mem_vertices M.g u).mpr (Makefile.reachesCycle_empty.mp hcycle).mem
  refine ⟨failures, hrun, hfailures.nodup, hsound, ?_⟩
  have hiff := M.complete_iff_selfLoops (M.L.vertices M.g) ∅ hmem hfuel hcover hrun
  simp only [Makefile.Complete, Makefile.SelfLoops, Makefile.reachesCycle_empty, Finset.notMem_empty,
    not_false_eq_true, true_imp_iff, false_or] at hiff
  rw [← hiff]
  constructor
  · intro hexact t hroot hcycle
    exact (hexact t).mpr ⟨hroot, hcycle⟩
  · intro hall t
    exact ⟨hsound t, fun ht ↦ hall t ht.1 ht.2⟩

/-- The root `none` and two targets that depend on each other, listed as in `all`. -/
def twoCycle (all : List (Option Bool)) (h : ∀ v, v ∈ all) : Makefile (Option Bool) where
  g :=
    { vertices := {none, some false, some true}
      edges := {(none, some false), (some false, some true), (some true, some false)}
      edge_mem := by decide }
  L := GraphListing.ofEnumeration all h
  commands := fun _ ↦ []
  root := none
  not_adj_root := by decide

theorem mem_forward : ∀ v : Option Bool, v ∈ [none, some false, some true] := by decide

theorem mem_backward : ∀ v : Option Bool, v ∈ [none, some true, some false] := by decide

theorem cycle_report_iff_twoCycle :
    ∃ failures, (twoCycle _ mem_forward).reportCycles 4 = some failures ∧
      failures.Nodup ∧ ∀ t ∈ failures, t ≠ none := by
  have hfuel : (twoCycle _ mem_forward).g.vertices.card < 4 := by decide
  obtain ⟨failures, hrun, hnodup, hsound, -⟩ := cycle_report_iff _ hfuel
  exact ⟨failures, hrun, hnodup, fun t ht ↦ (hsound t ht).1⟩

/-- One of the two is reported, and which one depends on the order. -/
theorem one_of_two_reported :
    (twoCycle _ mem_forward).reportCycles 4 = some [some false] ∧
    (twoCycle _ mem_backward).reportCycles 4 = some [some true] ∧
    ∀ t, t ≠ none → (twoCycle _ mem_forward).Cyclic t := by
  have h₁₂ : (twoCycle _ mem_forward).g.Adj (some false) (some true) := by decide
  have h₂₁ : (twoCycle _ mem_forward).g.Adj (some true) (some false) := by decide
  refine ⟨by decide, by decide, fun t ht ↦ ?_⟩
  rcases t with _ | _ | _
  · exact absurd rfl ht
  · exact ⟨some false, .refl, .head h₁₂ (.single h₂₁)⟩
  · exact ⟨some true, .refl, .head h₂₁ (.single h₁₂)⟩

end SystemProgramming.ParallelMake
