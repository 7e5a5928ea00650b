import SystemProgramming.ParallelMake.Workers

/-!
# When a worker starts the commands of a rule

`get_target_status` answers 1 on four ways.  Two of them look at files and not at rule
states, and a third reads a rule state again after `mtx_0` is released.  A rule starts
before a dependency is settled exactly on these three.
-/

namespace SystemProgramming.ParallelMake

variable {Target W : Type*} [DecidableEq Target] [DecidableEq W] {M : Makefile Target}

namespace State

variable {s s' : State Target W}

/-- Every rule that the target depends on has been settled. -/
def DepsSettled (M : Makefile Target) (s : State Target W) (target : Target) : Prop :=
  ∀ dep, M.g.Adj target dep → s.state dep ≠ 0

/-- The condition on a step of the scan: a missing or newer dependency of an existing
target, or a dependency that became 1 after it was seen unfinished, is met only when
all dependencies are settled. -/
def AnswersAfterDeps (M : Makefile Target) (s : State Target W) : Event Target W → Prop
  | .look w =>
      match s.pc w with
      | .fileDep _ target (sub :: _) => s.disk sub = none → s.DepsSettled M target
      | .statSub _ target mtime sub _ =>
          ∀ subMtime ∈ s.disk sub, mtime < subMtime → s.DepsSettled M target
      | .reread _ target sub => s.state sub = 1 → s.DepsSettled M target
      | _ => True
  | _ => True

instance [Fintype Target] (t : Target) : Decidable (s.DepsSettled M t) :=
  inferInstanceAs (Decidable (∀ dep, M.g.Adj t dep → s.state dep ≠ 0))

instance [Fintype Target] (e : Event Target W) : Decidable (s.AnswersAfterDeps M e) := by
  unfold AnswersAfterDeps
  split
  · split <;> infer_instance
  · infer_instance

/-- A worker that goes on to a rule's commands, or is running them, has its
dependencies settled. -/
structure BuildsInOrder (M : Makefile Target) (s : State Target W) : Prop where
  decided : ∀ w i t, s.pc w = .decided i t 1 → s.DepsSettled M t
  exec : ∀ w t commands, s.pc w = .exec t commands → s.DepsSettled M t

omit [DecidableEq Target] [DecidableEq W] in
theorem DepsSettled.mono {t : Target} (h : s.DepsSettled M t)
    (hs : ∀ dep, s.state dep ≠ 0 → s'.state dep ≠ 0) : s'.DepsSettled M t :=
  fun dep hdep ↦ hs dep (h dep hdep)

omit [DecidableEq Target] [DecidableEq W] in
/-- Under the condition, the answer 1 is given when the dependencies are settled. -/
theorem LookSteps.depsSettled {w : W} {i : ℕ} {t : Target}
    (hok : s.AnswersAfterDeps M (.look w)) (h : LookSteps M s (s.pc w) (.decided i t 1)) :
    s.DepsSettled M t := by
  generalize hpc : s.pc w = pc at h
  generalize hres : Pc.decided i t 1 = res at h
  simp only [AnswersAfterDeps, hpc] at hok
  cases h with
  | leaf hleaf _ =>
      obtain ⟨rfl, rfl, rfl⟩ : i = _ ∧ t = _ ∧ (1 : ℤ) = _ := by simpa using hres
      exact fun dep hdep ↦ absurd hdep (hleaf dep)
  | subMissing hmissing =>
      obtain ⟨rfl, rfl⟩ : i = _ ∧ t = _ := by simpa using hres
      exact hok hmissing
  | subNewer hsub hlt =>
      obtain ⟨rfl, rfl⟩ : i = _ ∧ t = _ := by simpa using hres
      exact hok _ hsub hlt
  | passed hall =>
      obtain ⟨rfl, rfl⟩ : i = _ ∧ t = _ := by simpa using hres
      exact fun dep hdep ↦ by simp [hall dep hdep]
  | reread =>
      obtain ⟨rfl, rfl, hone⟩ : i = _ ∧ t = _ ∧ (1 : ℤ) = _ := by simpa using hres
      exact hok hone.symm
  | _ => simp at hres

namespace BuildsInOrder

omit [DecidableEq W] in
theorem initial (h : s.Initial M) : s.BuildsInOrder M :=
  ⟨by simp [h.at_lock], by simp [h.at_lock]⟩

omit [DecidableEq Target] in
/-- A worker moves; the others keep what they had. -/
theorem setPc (h : s.BuildsInOrder M) {w : W} {pc : Pc Target} {topoOrder : List Target}
    {mtx1 : Option W} {disk : Disk Target} (hdec : ∀ i t, pc = .decided i t 1 → s.DepsSettled M t)
    (hexec : ∀ t commands, pc = .exec t commands → s.DepsSettled M t) :
    (State.setPc ⟨topoOrder, s.state, disk, mtx1, s.pc⟩ w pc).BuildsInOrder M := by
  refine ⟨fun w' i t hpc ↦ ?_, fun w' t commands hpc ↦ ?_⟩
  · rw [setPc_pc] at hpc
    split at hpc
    · exact hdec i t hpc
    · exact h.decided w' i t hpc
  · rw [setPc_pc] at hpc
    split at hpc
    · exact hexec t commands hpc
    · exact h.exec w' t commands hpc

omit [DecidableEq W] in
theorem broadcast (h : s.BuildsInOrder M) : s.broadcast.BuildsInOrder M := by
  have hback : ∀ w pc, pc ≠ .woken → s.broadcast.pc w = pc → s.pc w = pc := by
    intro w pc hne hpc
    by_cases hs : s.pc w = .asleep
    · simp only [State.broadcast, hs, if_true] at hpc
      exact absurd hpc.symm hne
    · simpa [State.broadcast, hs] using hpc
  exact ⟨fun w i t hpc ↦ h.decided w i t (hback w _ (by simp) hpc),
    fun w t commands hpc ↦ h.exec w t commands (hback w _ (by simp) hpc)⟩

theorem step (h : s.BuildsInOrder M) {e : Event Target W} (hok : s.AnswersAfterDeps M e)
    (hs : Steps M s e s') : s'.BuildsInOrder M := by
  have hmono : ∀ dep, s.state dep ≠ 0 → s'.state dep ≠ 0 := fun dep ↦ hs.state_ne_zero
  cases hs with
  | look hl =>
      refine h.setPc (fun i t hpc ↦ ?_) fun t commands hpc ↦ ?_
      · subst hpc
        exact (LookSteps.of_look hl).depsSettled hok
      · have hscan := (LookSteps.of_look hl).scanning.2
        simp [hpc, Pc.scanning] at hscan
  | @remove w i target status pc hpc hafter =>
      have hcases : pc = .exec target (M.commands target) ∧ status = 1 ∨ pc = .lock ∨
          pc = .skip target := by
        unfold afterRemove at hafter
        split_ifs at hafter with h₁ h₂ h₃ <;> cases hafter <;> simp_all
      refine h.setPc (fun j t hdec ↦ ?_) fun t commands hexec ↦ ?_
      · rcases hcases with ⟨rfl, -⟩ | rfl | rfl <;> simp at hdec
      · rcases hcases with ⟨rfl, rfl⟩ | rfl | rfl
        · obtain ⟨rfl, rfl⟩ : target = t ∧ _ = commands := by simpa using hexec
          exact h.decided w i target hpc
        · simp at hexec
        · simp at hexec
  | @call w target command commands result disk hpc =>
      refine h.setPc (fun i t hdec ↦ ?_) fun t cs hexec ↦ ?_
      · split at hdec <;> simp at hdec
      · split at hexec
        · simp at hexec
        · obtain ⟨rfl, rfl⟩ : target = t ∧ commands = cs := by simpa using hexec
          exact h.exec w target _ hpc
  | @settle w target hclaim hexec =>
      have hset : (s.setState target (s.settled (s.pc w))).BuildsInOrder M :=
        ⟨fun w' i t hpc ↦ (h.decided w' i t hpc).mono hmono,
          fun w' t commands hpc ↦ (h.exec w' t commands hpc).mono hmono⟩
      exact (hset.setPc (by simp) (by simp)).broadcast
  | _ => exact h.setPc (by simp) (by simp)

end BuildsInOrder

end State

/-- In every run whose steps meet the condition, whatever the graph, the disk, the
outcomes of the commands and the number of workers: a worker that is about to run a
command of a rule finds every dependency of the rule settled. -/
theorem builds_dependencies_first (M : Makefile Target) (s₀ s : State Target W)
    (events : List (Event Target W)) (hinit : s₀.Initial M)
    (hrun : Run (Guarded (StepOf (State.step M)) (State.AnswersAfterDeps M)) s₀ events s)
    (w : W) (target : Target) (command : String) (commands : List String)
    (hpc : s.pc w = .exec target (command :: commands)) : s.DepsSettled M target := by
  have hinv : s.BuildsInOrder M :=
    hrun.invariant (fun s e s' h hstep ↦ h.step hstep.1 (.of_step hstep.2))
      (State.BuildsInOrder.initial hinit)
  exact hinv.exec w target _ hpc

/-- The goal 1 depends on 2; neither file exists for the first run of the workers. -/
def twoRules : Makefile (Fin 3) where
  g :=
    { vertices := {0, 1, 2}
      edges := {(0, 1), (1, 2)}
      edge_mem := by decide }
  L := GraphListing.ofEnumeration [0, 1, 2] (by decide)
  commands := fun t ↦ if t = 1 then ["cc -o one two"] else ["touch two"]
  root := 0
  not_adj_root := by decide

theorem twoRules_lt {target dep : Fin 3} (h : Relation.TransGen twoRules.g.Adj target dep) :
    target < dep := by
  have hstep : ∀ t u, twoRules.g.Adj t u → t < u := by decide
  induction h with
  | single hadj => exact hstep _ _ hadj
  | tail _ hadj ih => exact ih.trans (hstep _ _ hadj)

theorem twoRules_acyclic : Acyclic twoRules.g.Adj :=
  fun target h ↦ lt_irrefl target (twoRules_lt h)

/-- Rule 2 is settled before the commands of rule 1 start. -/
theorem builds_dependencies_first_twoRules :
    ∃ s : State (Fin 3) (Fin 1), s.pc 0 = .exec 1 ["cc -o one two"] ∧ s.DepsSettled twoRules 1 :=
  ⟨_, rfl, builds_dependencies_first twoRules
    ⟨[2, 1], fun _ ↦ 0, fun _ ↦ none, none, fun _ ↦ .lock⟩ _
    [.lock 0, .look 0, .look 0, .remove 0 2, .call 0 2 "touch two" 0 fun _ ↦ none, .finish 0,
      .settle 0 2, .lock 0, .look 0, .look 0, .look 0, .remove 0 1]
    ⟨⟨4, {1, 2}, by decide, by decide⟩, by decide, rfl, fun _ ↦ rfl⟩
    (Run.execute_guarded_eq_some_iff.mp rfl)
    0 1 "cc -o one two" [] rfl⟩

/-- The file of target 1 exists and that of target 2 does not.  The only worker meets
target 1 first and starts its command while rule 2 is still in state 0. -/
theorem starts_before_dependency :
    Acyclic twoRules.g.Adj ∧ ∃ s₀ s t : State (Fin 3) (Fin 1), s₀.Initial twoRules ∧
      Run (StepOf (State.step twoRules)) s₀ [.lock 0, .look 0, .look 0, .look 0, .remove 0 1] s ∧
      s.pc 0 = .exec 1 ["cc -o one two"] ∧ twoRules.g.Adj 1 2 ∧ s.state 2 = 0 ∧
      s.step twoRules (.call 0 1 "cc -o one two" 0 s.disk) = some t :=
  ⟨twoRules_acyclic,
    ⟨[1, 2], fun _ ↦ 0, fun t ↦ if t = 1 then some 5 else none, none, fun _ ↦ .lock⟩, _, _,
    ⟨⟨4, {1, 2}, by decide, by decide⟩, by decide, rfl, fun _ ↦ rfl⟩,
    Run.execute_eq_some_iff.mp rfl, rfl, by decide, rfl, rfl⟩

end SystemProgramming.ParallelMake
