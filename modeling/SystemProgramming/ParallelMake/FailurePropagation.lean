import SystemProgramming.ParallelMake.BuildOrder
import SystemProgramming.ParallelMake.Trace

/-!
# What a failed command does to the rules above it

A rule whose dependency has failed is settled like a rule that is up to date: the
state -1 is stored for a rule only when one of its own commands fails.  So a failure
reaches the dependents exactly when each of them has been settled or started before
it, and those still running fail by themselves.
-/

namespace SystemProgramming.ParallelMake

open Relation

variable {Target W : Type*} [DecidableEq Target] [DecidableEq W] {M : Makefile Target}

/-- The worker that takes the step. -/
def Event.actor : Event Target W → W
  | .lock w | .look w | .remove w _ | .sleep w | .wake w | .resume w | .call w _ _ _ _
  | .finish w | .settle w _ => w

/-- One of the rule's commands has been run, or they are over. -/
def Pc.Started (M : Makefile Target) (d : Target) : Pc Target → Prop
  | .exec target commands => target = d ∧ commands.length < (M.commands d).length
  | .finish target _ => target = d
  | _ => False

instance (d : Target) (pc : Pc Target) : Decidable (pc.Started M d) := by
  cases pc <;> unfold Pc.Started <;> infer_instance

namespace State

variable {s s' : State Target W} {d r : Target}

/-- Some worker has started the rule's commands and is still to store its state. -/
def Started (M : Makefile Target) (s : State Target W) (d : Target) : Prop :=
  ∃ w, (s.pc w).Started M d

/-- A command of the rule has failed. -/
def Failed (s : State Target W) (r : Target) : Prop :=
  s.state r = -1 ∨ ∃ w, s.pc w = .finish r true

/-- The condition on a step: a command fails only when every rule above is settled or
started, and a rule above a failed one does not get through all its commands. -/
def FailsLast (M : Makefile Target) (depends : Target → Target → Prop) (s : State Target W) :
    Event Target W → Prop
  | .call _ r _ result _ => result ≠ 0 → ∀ d, d ≠ M.root → depends d r →
      s.state d ≠ 0 ∨ s.Started M d
  | .settle w d => s.pc w = .finish d false → ∀ r, depends d r → ¬ s.Failed r
  | _ => True

section

variable [Fintype Target] [Fintype W]

instance : Decidable (s.Started M d) :=
  inferInstanceAs (Decidable (∃ w, (s.pc w).Started M d))

instance : Decidable (s.Failed r) :=
  inferInstanceAs (Decidable (s.state r = -1 ∨ ∃ w, s.pc w = .finish r true))

instance (depends : Target → Target → Prop) [DecidableRel depends] (e : Event Target W) :
    Decidable (s.FailsLast M depends e) :=
  match e with
  | .call _ r _ result _ => inferInstanceAs (Decidable (result ≠ 0 →
      ∀ d, d ≠ M.root → depends d r → s.state d ≠ 0 ∨ s.Started M d))
  | .settle w d => inferInstanceAs (Decidable (s.pc w = .finish d false →
      ∀ r, depends d r → ¬ s.Failed r))
  | .lock _ | .look _ | .remove _ _ | .sleep _ | .wake _ | .resume _ | .finish _ => .isTrue trivial

end

omit [DecidableEq Target] [DecidableEq W] in
theorem Started.cases (h : s.Started M d) :
    (∃ w commands, s.pc w = .exec d commands ∧ commands.length < (M.commands d).length) ∨
      ∃ w error, s.pc w = .finish d error := by
  obtain ⟨w, hw⟩ := h
  cases hpc : s.pc w with
  | exec target commands =>
      rw [hpc] at hw
      obtain ⟨rfl, hlt⟩ := hw
      exact Or.inl ⟨w, commands, hpc, hlt⟩
  | finish target error =>
      rw [hpc] at hw
      obtain rfl : target = d := hw
      exact Or.inr ⟨w, error, hpc⟩
  | _ => simp [hpc, Pc.Started] at hw

omit [DecidableEq Target] [DecidableEq W] in
theorem FailsLast.mono {depends depends' : Target → Target → Prop}
    (hsub : ∀ d r, depends' d r → depends d r) {e : Event Target W}
    (h : s.FailsLast M depends e) : s.FailsLast M depends' e := by
  cases e with
  | call w r command result disk => exact fun hne d hd hdep ↦ h hne d hd (hsub d r hdep)
  | settle w d => exact fun hpc r hdep ↦ h hpc r (hsub d r hdep)
  | _ => trivial

/-! ## Frames -/

omit [DecidableEq W] in
theorem broadcast_pc_of_ne {w : W} (h : s.pc w ≠ .asleep) : s.broadcast.pc w = s.pc w := by
  simp [broadcast, h]

/-- A step moves its own worker; of the others it can only wake sleepers. -/
theorem Steps.pc_other {e : Event Target W} (h : Steps M s e s') {w : W} (hw : w ≠ e.actor)
    (hpc : s.pc w ≠ .asleep) : s'.pc w = s.pc w := by
  cases h with
  | @settle w₀ target _ _ =>
      have hset : ((s.setState target (s.settled (s.pc w₀))).setPc w₀ .lock).pc w = s.pc w :=
        setPc_pc_of_ne hw _
      rw [broadcast_pc_of_ne (by rwa [hset]), hset]
  | _ => exact setPc_pc_of_ne hw _

/-- A stored state is never overwritten. -/
theorem Steps.state_eq (hclaim : s.ClaimInv M) {e : Event Target W} (h : Steps M s e s')
    (hd : s.state d ≠ 0) : s'.state d = s.state d := by
  cases h with
  | @settle w target hw _ =>
      have hne : d ≠ target := by
        rintro rfl
        exact hd (hclaim.claimed_zero w d hw)
      exact Function.update_of_ne hne _ _
  | _ => rfl

/-- A worker that is to store a rule's state stays there until it has done so. -/
theorem Steps.finish_cases {e : Event Target W} (h : Steps M s e s') {w : W} {error : Bool}
    (hpc : s.pc w = .finish d error) :
    s'.pc w = .finish d error ∨ e = .settle w d ∧ s'.state d = if error then -1 else 1 := by
  by_cases hw : w = e.actor
  · cases h with
    | @settle w₀ target hclaim _ =>
        obtain rfl : w = w₀ := hw
        obtain rfl : d = target := by simpa [hpc, Pc.claim] using hclaim
        refine Or.inr ⟨rfl, ?_⟩
        change Function.update s.state d (s.settled (s.pc w)) d = _
        rw [Function.update_self, hpc]
        rfl
    | look hl =>
        obtain rfl : w = _ := hw
        rw [hpc] at hl
        simp [State.look] at hl
    | _ =>
        obtain rfl : w = _ := hw
        simp_all
  · exact Or.inl ((h.pc_other hw (by simp [hpc])).trans hpc)

/-- A worker at a rule's commands runs them to the end or to a failure. -/
theorem Steps.exec_cases {e : Event Target W} (h : Steps M s e s') {w : W} {commands : List String}
    (hpc : s.pc w = .exec d commands) :
    (∃ commands', s'.pc w = .exec d commands') ∨ ∃ error, s'.pc w = .finish d error := by
  by_cases hw : w = e.actor
  · cases h with
    | @call w₀ target command cs result disk hpc₀ =>
        obtain rfl : w = w₀ := hw
        obtain ⟨rfl, -⟩ : d = target ∧ _ := by simpa [hpc] using hpc₀
        rw [setPc_pc_self]
        split
        · exact Or.inr ⟨true, rfl⟩
        · exact Or.inl ⟨cs, rfl⟩
    | @finish w₀ target hpc₀ =>
        obtain rfl : w = w₀ := hw
        obtain ⟨rfl, -⟩ : d = target ∧ _ := by simpa [hpc] using hpc₀
        exact Or.inr ⟨false, setPc_pc_self _ _⟩
    | @settle w₀ target hclaim hexec =>
        obtain rfl : w = w₀ := hw
        obtain rfl : d = target := by simpa [hpc, Pc.claim] using hclaim
        exact absurd hpc (hexec commands)
    | look hl =>
        obtain rfl : w = _ := hw
        rw [hpc] at hl
        simp [State.look] at hl
    | _ =>
        obtain rfl : w = _ := hw
        simp_all
  · exact Or.inl ⟨commands, (h.pc_other hw (by simp [hpc])).trans hpc⟩

/-! ## Rules that run no more commands -/

/-- The rule's commands are over. -/
def Closed (s : State Target W) (d : Target) : Prop :=
  s.state d ≠ 0 ∨ ∃ w error, s.pc w = .finish d error

theorem Closed.step (h : s.Closed d) {e : Event Target W} (hs : Steps M s e s') : s'.Closed d := by
  rcases h with hd | ⟨w, error, hpc⟩
  · exact Or.inl (hs.state_ne_zero hd)
  · rcases hs.finish_cases hpc with hstay | ⟨-, hset⟩
    · exact Or.inr ⟨w, error, hstay⟩
    · refine Or.inl ?_
      rw [hset]
      split <;> decide

omit [DecidableEq Target] [DecidableEq W] in
theorem Closed.not_exec (h : s.Closed d) (hclaim : s.ClaimInv M) (w : W) (commands : List String) :
    s.pc w ≠ .exec d commands := by
  intro hexec
  have hw : (s.pc w).claim = some d := by rw [hexec]; rfl
  rcases h with hd | ⟨w', error, hpc⟩
  · exact hd (hclaim.claimed_zero w d hw)
  · obtain rfl := hclaim.claim_unique w w' d hw (by rw [hpc]; rfl)
    simp [hexec] at hpc

/-- From then on a run records no command of the rule. -/
theorem Closed.callsOf_eq_nil (h : s.Closed d) (hscan : s.ScanInv M) (hclaim : s.ClaimInv M)
    {es : List (Event Target W)} (hrun : Run (StepOf (State.step M)) s es s') :
    callsOf d es = [] := by
  induction hrun with
  | nil => rfl
  | @snoc t u es e hrun hlast ih =>
      obtain ⟨-, htclaim, htclosed⟩ : t.ScanInv M ∧ t.ClaimInv M ∧ t.Closed d :=
        hrun.invariant (I := fun t ↦ t.ScanInv M ∧ t.ClaimInv M ∧ t.Closed d)
          (fun _ _ _ hI hstep ↦ ⟨hI.1.step (.of_step hstep), hI.2.1.step hI.1 (.of_step hstep),
            hI.2.2.step (.of_step hstep)⟩) ⟨hscan, hclaim, h⟩
      cases Steps.of_step hlast with
      | @call w target command commands result disk hpc =>
          have hne : target ≠ d := by
            rintro rfl
            exact htclosed.not_exec htclaim w _ hpc
          rw [callsOf_append_call, if_neg hne, ih, List.append_nil]
      | _ => rw [callsOf_append (by simp), ih]

/-! ## Rules that are still running when a dependency fails -/

def Underway (s : State Target W) (d : Target) : Prop :=
  (∃ w commands, s.pc w = .exec d commands) ∨ ∃ w error, s.pc w = .finish d error

theorem Failed.step (h : s.Failed r) (hclaim : s.ClaimInv M) {e : Event Target W}
    (hs : Steps M s e s') : s'.Failed r := by
  rcases h with hr | ⟨w, hpc⟩
  · refine Or.inl ?_
    rw [hs.state_eq hclaim (by omega), hr]
  · rcases hs.finish_cases hpc with hstay | ⟨-, hset⟩
    · exact Or.inr ⟨w, hstay⟩
    · exact Or.inl hset

/-- The rule is stored as failed, or on its way to be stored. -/
theorem Underway.step (h : s.state d = -1 ∨ s.Underway d) (hclaim : s.ClaimInv M)
    {e : Event Target W} (hok : ∀ w, e = .settle w d → s.pc w ≠ .finish d false)
    (hs : Steps M s e s') : s'.state d = -1 ∨ s'.Underway d := by
  rcases h with hd | ⟨w, commands, hpc⟩ | ⟨w, error, hpc⟩
  · refine Or.inl ?_
    rw [hs.state_eq hclaim (by omega), hd]
  · refine Or.inr ?_
    rcases hs.exec_cases hpc with ⟨commands', hexec⟩ | ⟨error, hfinish⟩
    · exact Or.inl ⟨w, commands', hexec⟩
    · exact Or.inr ⟨w, error, hfinish⟩
  · rcases hs.finish_cases hpc with hstay | ⟨rfl, hset⟩
    · exact Or.inr (Or.inr ⟨w, error, hstay⟩)
    · cases error with
      | true => exact Or.inl hset
      | false => exact absurd hpc (hok w rfl)

/-- Along a run of the condition, a running rule above a failed one ends as failed. -/
theorem Underway.run {depends : Target → Target → Prop} (hscan : s.ScanInv M)
    (hclaim : s.ClaimInv M) (hdep : depends d r) (hfailed : s.Failed r)
    (h : s.state d = -1 ∨ s.Underway d) {es : List (Event Target W)}
    (hrun : Run (Guarded (StepOf (State.step M)) (State.FailsLast M depends)) s es s') :
    s'.state d = -1 ∨ s'.Underway d := by
  refine (hrun.invariant (I := fun t ↦ (t.ScanInv M ∧ t.ClaimInv M) ∧ t.Failed r ∧
    (t.state d = -1 ∨ t.Underway d)) ?_ ⟨⟨hscan, hclaim⟩, hfailed, h⟩).2.2
  rintro t e u ⟨⟨hsc, hcl⟩, hfail, hunder⟩ ⟨hok, hstep⟩
  have hs := Steps.of_step hstep
  refine ⟨⟨hsc.step hs, hcl.step hsc hs⟩, hfail.step hcl hs, Underway.step hunder hcl ?_ hs⟩
  rintro w rfl hpc
  exact hok hpc r hdep hfail

theorem state_eq_zero_of_not_settled {es : List (Event Target W)} (hzero : s.state d = 0)
    (hrun : Run (StepOf (State.step M)) s es s') (hnot : ∀ w, .settle w d ∉ es) :
    s'.state d = 0 := by
  induction hrun with
  | nil => exact hzero
  | @snoc t u es e hrun hlast ih =>
      have hprev := ih fun w hmem ↦ hnot w (List.mem_append_left _ hmem)
      cases Steps.of_step hlast with
      | @settle w target _ _ =>
          have hne : d ≠ target := by
            rintro rfl
            exact hnot w (List.mem_append_right _ (List.mem_singleton.mpr rfl))
          exact (Function.update_of_ne hne _ _).trans hprev
      | _ => exact hprev

end State

/-- After a failed command no rule above starts, and when all workers have returned
those that were not settled before the failure are in state -1. -/
def FailurePropagates (M : Makefile Target) (events : List (Event Target W))
    (s : State Target W) : Prop :=
  ∀ pre post w r command result disk, events = pre ++ .call w r command result disk :: post →
    result ≠ 0 → ∀ d, d ≠ M.root → TransGen M.g.Adj d r →
      (callsOf d pre = [] → callsOf d post = []) ∧
      ((∀ w, s.pc w = .done) → (∀ w, .settle w d ∉ pre) → s.state d = -1)

theorem failure_propagates (M : Makefile Target) (s₀ s : State Target W) (hinit : s₀.Initial M)
    (hzero : ∀ target, s₀.state target = 0) (events : List (Event Target W))
    (hrun : Run (Guarded (StepOf (State.step M)) (State.FailsLast M (TransGen M.g.Adj)))
      s₀ events s) : FailurePropagates M events s := by
  intro pre post w r command result disk hevents hresult d hd hdep
  subst hevents
  obtain ⟨s₁, hpre, hrest⟩ := Run.append_iff.mp hrun
  obtain ⟨s₂, ⟨hok, hfail⟩, hpost⟩ := Run.cons_iff.mp hrest
  have hinv := State.WorkersInv.of_run hinit hzero hpre.of_guarded
  have hs := State.Steps.of_step hfail
  have hscan := hinv.scan.step hs
  have hclaim := hinv.claim.step hinv.scan hs
  have hcond := (hok hresult d hd hdep).imp_right State.Started.cases
  constructor
  · intro hfresh
    have hclosed : s₁.Closed d := by
      rcases hcond with hne | ⟨w', commands, hpc, hlt⟩ | hfinish
      · exact Or.inl hne
      · have hall := hinv.trace.running w' d commands hpc
        rw [hfresh, List.nil_append] at hall
        rw [hall] at hlt
        exact absurd hlt (lt_irrefl _)
      · exact Or.inr hfinish
    exact (hclosed.step hs).callsOf_eq_nil hscan hclaim hpost.of_guarded
  · intro hdone hnot
    have hunder : s₁.Underway d := by
      rcases hcond with hne | ⟨w', commands, hpc, -⟩ | hfinish
      · exact absurd (State.state_eq_zero_of_not_settled (hzero d) hpre.of_guarded hnot) hne
      · exact Or.inl ⟨w', commands, hpc⟩
      · exact Or.inr hfinish
    have hfailed : s₂.Failed r := by
      cases hs with
      | call _ _ hpc =>
          refine Or.inr ⟨w, ?_⟩
          rw [State.setPc_pc_self, if_pos hresult]
    have hunder₂ := State.Underway.step (Or.inr hunder) hinv.claim (by simp) hs
    rcases State.Underway.run hscan hclaim hdep hfailed hunder₂ hpost with
      hneg | ⟨w', commands, hpc⟩ | ⟨w', error, hpc⟩
    · exact hneg
    · simp [hdone w'] at hpc
    · simp [hdone w'] at hpc

/-- Both commands fail, the one of rule 1 first. -/
theorem failure_propagates_twoRules :
    ∃ s : State (Fin 3) (Fin 2), (∀ w, s.pc w = .done) ∧ s.state 1 = -1 := by
  let disk : Disk (Fin 3) := fun t ↦ if t = 1 then some 5 else none
  let s₀ : State (Fin 3) (Fin 2) := ⟨[1, 2], fun _ ↦ 0, disk, none, fun _ ↦ .lock⟩
  let pre : List (Event (Fin 3) (Fin 2)) :=
    [.lock 0, .look 0, .look 0, .look 0, .remove 0 1, .lock 1, .look 1, .look 1, .remove 1 2,
      .call 0 1 "cc -o one two" 1 disk]
  let post : List (Event (Fin 3) (Fin 2)) := [.settle 0 1, .settle 1 2, .lock 0, .lock 1]
  obtain ⟨s, hs⟩ : ∃ s, execute (guarded (State.step twoRules)
      (State.FailsLast twoRules (· < ·))) s₀ (pre ++ .call 1 2 "touch two" 1 disk :: post) =
        some s := ⟨_, rfl⟩
  have hdone : ∀ w, s.pc w = .done := by
    obtain rfl := Option.some.inj hs
    decide
  have hrun : Run (Guarded (StepOf (State.step twoRules))
      (State.FailsLast twoRules (TransGen twoRules.g.Adj))) s₀
      (pre ++ .call 1 2 "touch two" 1 disk :: post) s :=
    (Run.execute_guarded_eq_some_iff.mp hs).mono fun _ _ _ hstep ↦
      ⟨hstep.1.mono fun _ _ ↦ twoRules_lt, hstep.2⟩
  have hprop := failure_propagates twoRules s₀ s
    ⟨⟨4, {1, 2}, by decide, by decide⟩, by decide, rfl, fun _ ↦ rfl⟩ (fun _ ↦ rfl) _ hrun
  exact ⟨s, hdone, (hprop pre post 1 2 "touch two" 1 disk rfl (by decide) 1 (by decide)
    (.single (by decide))).2 hdone (by simp [pre])⟩

/-- The goal 1 depends on 2, which depends on 3. -/
def threeRules : Makefile (Fin 4) where
  g :=
    { vertices := {0, 1, 2, 3}
      edges := {(0, 1), (1, 2), (2, 3)}
      edge_mem := by decide }
  L := GraphListing.ofEnumeration [0, 1, 2, 3] (by decide)
  commands := fun t ↦ if t = 1 then ["link"] else if t = 2 then ["compile"] else ["generate"]
  root := 0
  not_adj_root := by decide

/-- No file exists, and the command of rule 3 fails.  Rule 2 is then settled with
state 1, and the command of rule 1 is run. -/
theorem failure_stops_at_rule_two :
    Acyclic threeRules.g.Adj ∧ ∃ (s₀ s : State (Fin 4) (Fin 1))
      (pre post : List (Event (Fin 4) (Fin 1))), s₀.Initial threeRules ∧
      (∀ target, s₀.state target = 0) ∧
      Run (StepOf (State.step threeRules)) s₀
        (pre ++ .call 0 3 "generate" 1 (fun _ ↦ none) :: post) s ∧
      (∀ w, s.pc w = .done) ∧ s.state 2 = 1 ∧ callsOf 1 pre = [] ∧ callsOf 1 post = ["link"] ∧
      ¬ FailurePropagates threeRules (pre ++ .call 0 3 "generate" 1 (fun _ ↦ none) :: post) s := by
  refine ⟨acyclic_of_rank Fin.val (by decide),
    ⟨[3, 2, 1], fun _ ↦ 0, fun _ ↦ none, none, fun _ ↦ .lock⟩, _,
    [.lock 0, .look 0, .look 0, .remove 0 3],
    [.settle 0 3, .lock 0, .look 0, .look 0, .look 0, .look 0, .remove 0 2, .settle 0 2,
      .lock 0, .look 0, .look 0, .look 0, .remove 0 1, .call 0 1 "link" 0 (fun _ ↦ none), .finish 0,
      .settle 0 1, .lock 0],
    ⟨⟨5, {1, 2, 3}, by decide, by decide⟩, by decide, rfl, fun _ ↦ rfl⟩, fun _ ↦ rfl,
    Run.execute_eq_some_iff.mp rfl, by decide, rfl, rfl, rfl, fun hprop ↦ ?_⟩
  have hpath : Relation.TransGen threeRules.g.Adj 1 3 :=
    .tail (.single (b := 2) (by decide)) (by decide)
  have hstart := (hprop _ _ 0 3 "generate" 1 _ rfl (by decide) 1 (by decide) hpath).1 rfl
  simp [callsOf] at hstart

end SystemProgramming.ParallelMake
