import SystemProgramming.ParallelMake.BuildOrder
import SystemProgramming.ParallelMake.Trace

/-!
# Some worker always scans again

A worker goes to sleep after a scan in which every listed target was waiting for a
dependency in state 0.  If all other workers were asleep or had returned, every listed
target would wait for another listed one, against acyclicity.
-/

namespace SystemProgramming.ParallelMake

variable {Target W : Type*} [DecidableEq Target] [DecidableEq W] {M : Makefile Target}

/-- How many targets at the front of `topo_order` the scan has found waiting. -/
def Pc.scanned : Pc Target → ℕ
  | .status i | .access i _ | .fileDep i _ _ | .statTarget i _ _ _ | .statSub i _ _ _ _
  | .ruleDeps i _ | .reread i _ _ => i
  | .decided i _ answer => if answer = 0 then i + 1 else i
  | _ => 0

namespace State

variable {s s' : State Target W}

/-- The targets that the scan has passed wait for a rule in state 0. -/
def Waiting (M : Makefile Target) (s : State Target W) (n : ℕ) : Prop :=
  ∀ j < n, ∀ t, s.topoOrder[j]? = some t → ∃ dep, M.g.Adj t dep ∧ s.state dep = 0

structure WakeInv (M : Makefile Target) (s : State Target W) : Prop where
  scan : ∀ w, (s.pc w).scanning = true → (∀ w', w' ≠ w → (s.pc w').Idle) →
    s.Waiting M (s.pc w).scanned
  awake : (∃ w, s.pc w = .asleep) → ∃ w, ¬ (s.pc w).Idle
  claimed : s.topoOrder = [] → (∃ w, s.pc w = .asleep) → ∃ w t, (s.pc w).claim = some t
  returned : (∃ w, s.pc w = .done) → s.topoOrder = []

omit [DecidableEq W] in
theorem Initial.wakeInv (h : s.Initial M) : s.WakeInv M where
  scan := by simp [h.at_lock, Pc.scanning]
  awake := by simp [h.at_lock]
  claimed := by simp [h.at_lock]
  returned := by simp [h.at_lock]

omit [DecidableEq Target] [DecidableEq W] in
/-- A step of the scan passes a target only with an unfinished dependency. -/
theorem LookSteps.waiting (hscan : s.ScanInv M) (hclaim : s.ClaimInv M) {w : W} {pc : Pc Target}
    (h : LookSteps M s (s.pc w) pc) (hw : s.Waiting M (s.pc w).scanned) :
    s.Waiting M pc.scanned := by
  generalize hpc : s.pc w = old at h hw
  cases h with
  | @reread i t sub =>
      intro j hj u hu
      by_cases hji : j < i
      · exact hw j hji u hu
      · by_cases hzero : s.state sub = 0
        · obtain rfl : j = i := by
            simp only [Pc.scanned, hzero, if_true] at hj
            omega
          have hi : s.topoOrder[j]? = some t := hscan.index w j t (by rw [hpc]; rfl)
          obtain rfl : t = u := Option.some.inj (hi.symm.trans hu)
          exact ⟨sub, hscan.reread_dep w j t sub hpc, hzero⟩
        · simp only [Pc.scanned, hzero, if_false] at hj
          exact absurd hj hji
  | @next i t status hnone _ =>
      have hstatus : status = 0 := by
        have hvals := hclaim.status_values w i t status hpc
        have hnot := afterRemove_eq_none_iff.mp hnone
        omega
      simpa only [Pc.scanned, hstatus, if_true] using hw
  | @leaf i t status _ hst =>
      have hne : status ≠ 0 := by omega
      simpa only [Pc.scanned, hne, if_false] using hw
  | _ => exact hw

namespace WakeInv

omit [DecidableEq Target] in
/-- After a sleep, some other worker is neither asleep nor done. -/
theorem not_all_idle (h : s.WakeInv M) (hacyclic : Acyclic M.g.Adj) (hscan : s.ScanInv M)
    (hclaim : s.ClaimInv M) {w : W} {i : ℕ} {t : Target} {status : ℤ}
    (hpc : s.pc w = .decided i t status) (hnone : afterRemove M t status = none)
    (hlast : i + 1 = s.topoOrder.length) : ∃ w', w' ≠ w ∧ ¬ (s.pc w').Idle := by
  by_contra hidle
  push Not at hidle
  have hstatus : status = 0 := by
    have hvals := hclaim.status_values w i t status hpc
    have hnot := afterRemove_eq_none_iff.mp hnone
    omega
  have hwait : s.Waiting M s.topoOrder.length := by
    have hscanned := h.scan w (by rw [hpc]; rfl) hidle
    simpa only [hpc, Pc.scanned, hstatus, if_true, hlast] using hscanned
  have hunclaimed : ∀ w' u, (s.pc w').claim ≠ some u := by
    intro w' u hu
    by_cases hw : w' = w
    · rw [hw, hpc] at hu
      cases hu
    · exact Pc.not_idle_of_claim hu (hidle w' hw)
  have hi : s.topoOrder[i]? = some t := hscan.index w i t (by rw [hpc]; rfl)
  -- the listed targets form a nonempty set in which each waits for another
  refine hacyclic.not_forall_exists M.g.finite_sources (S := {u | u ∈ s.topoOrder})
    ⟨t, List.mem_of_getElem? hi⟩ fun u hu ↦ ?_
  obtain ⟨j, hj, rfl⟩ := List.mem_iff_getElem.mp hu
  obtain ⟨dep, hdep, hzero⟩ := hwait j hj _ (List.getElem?_eq_getElem hj)
  have hroot : dep ≠ M.root := fun heq ↦ M.not_adj_root _ (heq ▸ hdep)
  rcases hclaim.accounted dep (M.g.edge_mem _ hdep).2 hroot with hlist | ⟨w', hw'⟩ | hne
  · exact ⟨dep, hlist, Relation.TransGen.single hdep⟩
  · exact absurd hw' (hunclaimed w' dep)
  · exact absurd hzero hne

omit [DecidableEq Target] in
/-- A worker moves to a position at which it is awake; nobody falls asleep or returns. -/
theorem setPc (h : s.WakeInv M) {w : W} {pc : Pc Target} (hidle : ¬ pc.Idle)
    {mtx1 : Option W} {disk : Disk Target}
    (hclaim : (s.pc w).claim = none ∨ pc.claim = (s.pc w).claim)
    (hscan : pc.scanning = true → (∀ w', w' ≠ w → (s.pc w').Idle) → s.Waiting M pc.scanned) :
    (State.setPc ⟨s.topoOrder, s.state, disk, mtx1, s.pc⟩ w pc).WakeInv M := by
  have hasleep : (∃ w', (State.setPc ⟨s.topoOrder, s.state, disk, mtx1, s.pc⟩ w pc).pc w' =
      .asleep) → ∃ w', s.pc w' = .asleep := by
    rintro ⟨w', hw'⟩
    rw [setPc_pc] at hw'
    split at hw'
    · exact absurd (Or.inl hw') hidle
    · exact ⟨w', hw'⟩
  refine ⟨?_, ?_, ?_, ?_⟩
  · intro w' hsc hothers
    by_cases hw : w' = w
    · subst hw
      rw [setPc_pc_self] at hsc ⊢
      refine hscan hsc fun w'' hne ↦ ?_
      have hw'' := hothers w'' hne
      rwa [setPc_pc_of_ne hne] at hw''
    · have hactor := hothers w (Ne.symm hw)
      rw [setPc_pc_self] at hactor
      exact absurd hactor hidle
  · exact fun _ ↦ ⟨w, by rwa [setPc_pc_self]⟩
  · intro hempty hsleep
    obtain ⟨w', t, hw'⟩ := h.claimed hempty (hasleep hsleep)
    refine ⟨w', t, ?_⟩
    rw [setPc_pc]
    split
    · next heq =>
      subst heq
      rcases hclaim with hnone | hsame
      · rw [hnone] at hw'
        cases hw'
      · rw [hsame, hw']
    · exact hw'
  · rintro ⟨w', hw'⟩
    rw [setPc_pc] at hw'
    split at hw'
    · exact absurd (Or.inr hw') hidle
    · exact h.returned ⟨w', hw'⟩

omit [DecidableEq Target] [DecidableEq W] in
/-- A worker leaves the scan while it holds the lock, so no other worker is scanning. -/
theorem not_scanning_of_holder (hscan : s.ScanInv M) {w w' : W}
    (hheld : (s.pc w).scanning = true) (hw : w' ≠ w) : (s.pc w').scanning = false := by
  by_contra hsc
  have h₁ := (hscan.holder w).mp hheld
  have h₂ := (hscan.holder w').mp (by simpa using hsc)
  exact hw (Option.some.inj (h₂.symm.trans h₁))

omit [DecidableEq Target] in
theorem ret (h : s.WakeInv M) (hscan : s.ScanInv M) {w : W} (hpc : s.pc w = .lock)
    (hfree : s.mtx1 = none) (hempty : s.topoOrder = []) : (s.setPc w .done).WakeInv M := by
  have hasleep : ∀ w', (s.setPc w .done).pc w' = .asleep → s.pc w' = .asleep := by
    intro w' hw'
    rw [setPc_pc] at hw'
    split at hw'
    · cases hw'
    · exact hw'
  have hsome : (∃ w', (s.setPc w .done).pc w' = .asleep) →
      ∃ w' t, ((s.setPc w .done).pc w').claim = some t := by
    rintro ⟨w', hw'⟩
    obtain ⟨w₁, t, hw₁⟩ := h.claimed hempty ⟨w', hasleep w' hw'⟩
    refine ⟨w₁, t, ?_⟩
    have hne : w₁ ≠ w := by
      rintro rfl
      simp [hpc, Pc.claim] at hw₁
    rwa [setPc_pc_of_ne hne]
  refine ⟨?_, ?_, fun _ ↦ hsome, fun _ ↦ hempty⟩
  · intro w' hsc _
    rw [setPc_pc] at hsc
    split at hsc
    · cases hsc
    · rw [(hscan.holder w').mp hsc] at hfree
      cases hfree
  · intro hsleep
    obtain ⟨w₁, t, hw₁⟩ := hsome hsleep
    exact ⟨w₁, Pc.not_idle_of_claim hw₁⟩

omit [DecidableEq Target] in
theorem remove (hscan : s.ScanInv M) (hclaim : s.ClaimInv M) (h : s.WakeInv M) {w : W} {i : ℕ}
    {t : Target} {status : ℤ} {pc : Pc Target} (hpc : s.pc w = .decided i t status)
    (hafter : afterRemove M t status = some pc) :
    ({ s with topoOrder := s.topoOrder.eraseIdx i, mtx1 := none }.setPc w pc).WakeInv M := by
  have hw : (({ s with topoOrder := s.topoOrder.eraseIdx i, mtx1 := none }.setPc w pc).pc
      w).claim = some t := by
    rw [setPc_pc_self]
    exact hclaim.claim_of_afterRemove hpc hafter
  refine ⟨?_, fun _ ↦ ⟨w, Pc.not_idle_of_claim hw⟩, fun _ _ ↦ ⟨w, t, hw⟩, ?_⟩
  · intro w' hsc _
    rw [setPc_pc] at hsc
    split at hsc
    · rw [ScanInv.afterRemove_scanning hafter] at hsc
      cases hsc
    · next hne =>
      rw [not_scanning_of_holder hscan (by rw [hpc]; rfl) hne] at hsc
      cases hsc
  · rintro ⟨w', hw'⟩
    rw [setPc_pc] at hw'
    split at hw'
    · next heq =>
      rw [setPc_pc_self, hw'] at hw
      cases hw
    · change s.topoOrder.eraseIdx i = []
      rw [h.returned ⟨w', hw'⟩, List.eraseIdx_nil]

omit [DecidableEq Target] in
theorem sleep (h : s.WakeInv M) (hacyclic : Acyclic M.g.Adj) (hscan : s.ScanInv M)
    (hclaim : s.ClaimInv M) {w : W} {i : ℕ} {t : Target} {status : ℤ}
    (hpc : s.pc w = .decided i t status) (hnone : afterRemove M t status = none)
    (hlast : i + 1 = s.topoOrder.length) :
    ({ s with mtx1 := none }.setPc w .asleep).WakeInv M := by
  refine ⟨?_, fun _ ↦ ?_, fun hempty ↦ ?_, ?_⟩
  · intro w' hsc _
    rw [setPc_pc] at hsc
    split at hsc
    · cases hsc
    · next hne =>
      rw [not_scanning_of_holder hscan (by rw [hpc]; rfl) hne] at hsc
      cases hsc
  · obtain ⟨w', hne, hidle⟩ := h.not_all_idle hacyclic hscan hclaim hpc hnone hlast
    exact ⟨w', by rwa [setPc_pc_of_ne hne]⟩
  · change s.topoOrder = [] at hempty
    simp [hempty] at hlast
  · rintro ⟨w', hw'⟩
    rw [setPc_pc] at hw'
    split at hw'
    · cases hw'
    · exact h.returned ⟨w', hw'⟩

theorem settle (h : s.WakeInv M) {w : W} (state : Target → ℤ) :
    (({ s with state := state }.setPc w .lock).broadcast).WakeInv M := by
  have hidle : ∀ w', ((({ s with state := state }.setPc w .lock).broadcast).pc w').Idle →
      (({ s with state := state }.setPc w .lock).broadcast).pc w' = .done := by
    rintro w' (hsleep | hdone)
    · exact absurd hsleep (broadcast_pc_ne_asleep w')
    · exact hdone
  have hlock : (({ s with state := state }.setPc w .lock).broadcast).pc w = .lock := by
    simp [broadcast, State.setPc]
  refine ⟨?_, ?_, ?_, ?_⟩
  · intro w' hsc hothers
    by_cases hw : w' = w
    · rw [hw, hlock] at hsc
      cases hsc
    · have hactor := hidle w (hothers w (Ne.symm hw))
      rw [hlock] at hactor
      cases hactor
  · rintro ⟨w', hw'⟩
    exact absurd hw' (broadcast_pc_ne_asleep w')
  · rintro - ⟨w', hw'⟩
    exact absurd hw' (broadcast_pc_ne_asleep w')
  · rintro ⟨w', hw'⟩
    refine h.returned ⟨w', ?_⟩
    have hset : ({ s with state := state }.setPc w .lock).pc w' = .done := by
      by_cases hs : ({ s with state := state }.setPc w .lock).pc w' = .asleep
      · simp [State.broadcast, hs] at hw'
      · simpa [State.broadcast, hs] using hw'
    rw [setPc_pc] at hset
    split at hset
    · cases hset
    · exact hset

theorem step (h : s.WakeInv M) (hacyclic : Acyclic M.g.Adj) (hscan : s.ScanInv M)
    (hclaim : s.ClaimInv M) {e : Event Target W} (hs : Steps M s e s') : s'.WakeInv M := by
  cases hs with
  | lock hpc _ _ =>
      refine h.setPc (by simp [Pc.Idle]) (Or.inl (by rw [hpc]; rfl)) fun _ _ j hj ↦ ?_
      exact absurd hj (Nat.not_lt_zero j)
  | ret hpc hfree hempty => exact h.ret hscan hpc hfree hempty
  | @look w pc hl =>
      have hl' := LookSteps.of_look hl
      refine h.setPc (Pc.not_idle_of_scanning hl'.scanning.2)
        (Or.inl (Pc.claim_eq_none_of_scanning hl'.scanning.1)) fun _ hothers ↦ ?_
      exact hl'.waiting hscan hclaim (h.scan w hl'.scanning.1 hothers)
  | remove hpc hafter => exact h.remove hscan hclaim hpc hafter
  | sleep hpc hnone hlast => exact h.sleep hacyclic hscan hclaim hpc hnone hlast
  | wake hpc => exact h.setPc (by simp [Pc.Idle]) (Or.inl (by rw [hpc]; rfl)) (by simp [Pc.scanning])
  | resume hpc _ =>
      exact h.setPc (by simp [Pc.Idle]) (Or.inl (by rw [hpc]; rfl)) (by simp [Pc.scanning])
  | call result disk hpc =>
      refine h.setPc ?_ (Or.inr ?_) ?_ <;> split <;> simp [Pc.Idle, Pc.claim, Pc.scanning, hpc]
  | finish hpc =>
      exact h.setPc (by simp [Pc.Idle]) (Or.inr (by rw [hpc]; rfl)) (by simp [Pc.scanning])
  | settle _ _ => exact h.settle _

end WakeInv

theorem WakeInv.of_run {s₀ : State Target W} {es : List (Event Target W)}
    (hacyclic : Acyclic M.g.Adj) (hinit : s₀.Initial M) (hzero : ∀ t, s₀.state t = 0)
    (hrun : Run (StepOf (State.step M)) s₀ es s) : s.WakeInv M := by
  induction hrun with
  | nil => exact hinit.wakeInv
  | snoc hrun hlast ih =>
      have hinv := WorkersInv.of_run hinit hzero hrun
      exact ih.step hacyclic hinv.scan hinv.claim (Steps.of_step hlast)

end State

/-- Every interleaving of the workers removes a target at most once and runs a prefix
of its commands; the workers that have not returned never all sleep; and when all have
returned, every target was removed by exactly one of them and is settled. -/
theorem processes_every_target_once [Nonempty W] (M : Makefile Target)
    (hacyclic : Acyclic M.g.Adj) (s₀ s : State Target W) (hinit : s₀.Initial M)
    (hzero : ∀ target, s₀.state target = 0) (events : List (Event Target W))
    (hrun : Run (StepOf (State.step M)) s₀ events s) :
    (∀ target, (removals target events).length ≤ 1 ∧
      callsOf target events <+: M.commands target) ∧
    ¬ ((∃ w, s.pc w ≠ .done) ∧ ∀ w, s.pc w ≠ .done → s.pc w = .asleep) ∧
    ((∀ w, s.pc w = .done) → ∀ target ∈ M.g.vertices, target ≠ M.root →
      s.state target ≠ 0 ∧ ∃ w, removals target events = [w]) := by
  have hinv := State.WorkersInv.of_run hinit hzero hrun
  have hwake := State.WakeInv.of_run hacyclic hinit hzero hrun
  refine ⟨fun t ↦ ⟨hinv.trace.removals_le t, hinv.trace.called t⟩, ?_, ?_⟩
  · rintro ⟨⟨w, hw⟩, hall⟩
    obtain ⟨w', hidle⟩ := hwake.awake ⟨w, hall w hw⟩
    by_cases hdone : s.pc w' = .done
    · exact hidle (Or.inr hdone)
    · exact hidle (Or.inl (hall w' hdone))
  · intro hdone t ht hroot
    have hempty : s.topoOrder = [] :=
      hwake.returned (Nonempty.elim inferInstance fun w ↦ ⟨w, hdone w⟩)
    have hnot : t ∉ s.topoOrder := by simp [hempty]
    refine ⟨?_, hinv.trace.removed t ht hroot hnot⟩
    rcases hinv.claim.accounted t ht hroot with hlist | ⟨w, hw⟩ | hne
    · exact absurd hlist hnot
    · simp [hdone w, Pc.claim] at hw
    · exact hne

/-- Two workers on the two rules: the second one sleeps while the first one runs the
command of rule 2. -/
theorem processes_every_target_once_twoRules :
    ∃ s : State (Fin 3) (Fin 2), s.pc 1 = .asleep ∧ s.pc 0 = .finish 2 false ∧
      ¬ ((∃ w, s.pc w ≠ .done) ∧ ∀ w, s.pc w ≠ .done → s.pc w = .asleep) :=
  ⟨_, rfl, rfl, (processes_every_target_once twoRules twoRules_acyclic
    ⟨[1, 2], fun _ ↦ 0, fun _ ↦ none, none, fun _ ↦ .lock⟩ _
    ⟨⟨4, {1, 2}, by decide, by decide⟩, by decide, rfl, fun _ ↦ rfl⟩ (fun _ ↦ rfl)
    [.lock 0, .look 0, .look 0, .look 0, .look 0, .look 0, .look 0, .look 0, .remove 0 2,
      .lock 1, .look 1, .look 1, .look 1, .look 1, .sleep 1, .call 0 2 "touch two" 0 fun _ ↦ none,
      .finish 0]
    (Run.execute_eq_some_iff.mp rfl)).2.1⟩

end SystemProgramming.ParallelMake
