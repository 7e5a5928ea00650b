import SystemProgramming.ParallelMake.Claims

/-!
# What a run records

The removals of a target and the calls of its commands, read off the labels of a run.
-/

namespace SystemProgramming.ParallelMake

variable {Target W : Type*} [DecidableEq Target] [DecidableEq W] {M : Makefile Target}

/-- The workers that removed the target from `topo_order`, in order. -/
def removals (t : Target) (es : List (Event Target W)) : List W :=
  es.filterMap fun
    | .remove w u => if u = t then some w else none
    | _ => none

/-- The commands of the target's rule that were run, in order. -/
def callsOf (t : Target) (es : List (Event Target W)) : List String :=
  es.filterMap fun
    | .call _ u command _ _ => if u = t then some command else none
    | _ => none

variable {t u : Target} {w : W} {es : List (Event Target W)}

omit [DecidableEq W] in
theorem removals_append_remove :
    removals t (es ++ [.remove w u]) = removals t es ++ if u = t then [w] else [] := by
  unfold removals
  split <;> simp [*]

omit [DecidableEq W] in
theorem removals_append {e : Event Target W} (h : ∀ w u, e ≠ .remove w u) :
    removals t (es ++ [e]) = removals t es := by
  cases e with
  | remove w u => exact absurd rfl (h w u)
  | _ => simp [removals]

omit [DecidableEq W] in
theorem callsOf_append_call {command : String} {result : ℤ} {disk : Disk Target} :
    callsOf t (es ++ [.call w u command result disk]) =
      callsOf t es ++ if u = t then [command] else [] := by
  unfold callsOf
  split <;> simp [*]

omit [DecidableEq W] in
theorem callsOf_append {e : Event Target W}
    (h : ∀ w u command result disk, e ≠ .call w u command result disk) :
    callsOf t (es ++ [e]) = callsOf t es := by
  cases e with
  | call w u command result disk => exact absurd rfl (h w u command result disk)
  | _ => simp [callsOf]

namespace State

variable {s s' : State Target W}

omit [DecidableEq Target] in
/-- A worker at its commands was there before, unless its own step put it there. -/
theorem exec_of_setPc {pc : Pc Target} (hpc : ∀ t commands, pc ≠ .exec t commands) {w' : W}
    {commands : List String} (h : (s.setPc w pc).pc w' = .exec t commands) :
    s.pc w' = .exec t commands := by
  rw [setPc_pc] at h
  split at h
  · exact absurd h (hpc t commands)
  · exact h

/-- What a run has recorded about the targets, together with the commands to come. -/
structure TraceInv (M : Makefile Target) (es : List (Event Target W)) (s : State Target W) :
    Prop where
  listed : ∀ t ∈ s.topoOrder, removals t es = [] ∧ callsOf t es = []
  removed : ∀ t ∈ M.g.vertices, t ≠ M.root → t ∉ s.topoOrder → ∃ w, removals t es = [w]
  removals_le : ∀ t, (removals t es).length ≤ 1
  running : ∀ w t commands, s.pc w = .exec t commands →
    callsOf t es ++ commands = M.commands t
  called : ∀ t, callsOf t es <+: M.commands t

omit [DecidableEq W] in
theorem Initial.traceInv (h : s.Initial M) : s.TraceInv M [] where
  listed _ _ := ⟨rfl, rfl⟩
  removed t ht hne hnot := absurd (h.mem_topoOrder.mpr ⟨hne, ht⟩) hnot
  removals_le _ := Nat.zero_le 1
  running := by simp [h.at_lock]
  called t := List.nil_prefix

namespace TraceInv

omit [DecidableEq W] in
/-- A step that neither removes a target nor runs a command. -/
theorem frame (h : s.TraceInv M es) {e : Event Target W} (htopo : s'.topoOrder = s.topoOrder)
    (hremove : ∀ w u, e ≠ .remove w u)
    (hcall : ∀ w u command result disk, e ≠ .call w u command result disk)
    (hexec : ∀ w t commands, s'.pc w = .exec t commands → s.pc w = .exec t commands) :
    s'.TraceInv M (es ++ [e]) where
  listed t ht := by
    rw [removals_append hremove, callsOf_append hcall]
    exact h.listed t (htopo ▸ ht)
  removed t ht hne hnot := by
    rw [removals_append hremove]
    exact h.removed t ht hne (htopo ▸ hnot)
  removals_le t := by
    rw [removals_append hremove]
    exact h.removals_le t
  running w t commands hpc := by
    rw [callsOf_append hcall]
    exact h.running w t commands (hexec w t commands hpc)
  called t := by
    rw [callsOf_append hcall]
    exact h.called t

theorem remove (h : s.TraceInv M es) (hscan : s.ScanInv M) {i : ℕ} {status : ℤ} {pc : Pc Target}
    (hpc : s.pc w = .decided i t status) (hafter : afterRemove M t status = some pc) :
    ({ s with topoOrder := s.topoOrder.eraseIdx i, mtx1 := none }.setPc w pc).TraceInv M
      (es ++ [Event.remove w t]) := by
  have hi : s.topoOrder[i]? = some t := hscan.index w i t (by rw [hpc]; rfl)
  have hfresh := h.listed t (List.mem_of_getElem? hi)
  have herase : ∀ u, u ∈ s.topoOrder.eraseIdx i ↔ u ≠ t ∧ u ∈ s.topoOrder :=
    fun u ↦ mem_eraseIdx_iff hscan.nodup hi
  refine ⟨?_, ?_, ?_, ?_, ?_⟩
  · intro u hu
    obtain ⟨hne, hu⟩ := (herase u).mp hu
    rw [removals_append_remove, if_neg hne.symm, callsOf_append (by simp), List.append_nil]
    exact h.listed u hu
  · intro u hu hroot hnot
    rw [removals_append_remove]
    by_cases heq : t = u
    · exact ⟨w, by rw [if_pos heq, ← heq, hfresh.1, List.nil_append]⟩
    · rw [if_neg heq, List.append_nil]
      exact h.removed u hu hroot fun hlist ↦ hnot ((herase u).mpr ⟨Ne.symm heq, hlist⟩)
  · intro u
    rw [removals_append_remove]
    by_cases heq : t = u
    · rw [if_pos heq, ← heq, hfresh.1]
      simp
    · rw [if_neg heq, List.append_nil]
      exact h.removals_le u
  · intro w' u commands hexec
    rw [callsOf_append (by simp)]
    rw [setPc_pc] at hexec
    split at hexec
    · subst hexec
      unfold afterRemove at hafter
      split_ifs at hafter
      · obtain ⟨rfl, rfl⟩ : t = u ∧ M.commands t = commands := by simpa using hafter
        rw [hfresh.2, List.nil_append]
      · simp at hafter
      · simp at hafter
    · exact h.running w' u commands hexec
  · intro u
    rw [callsOf_append (by simp)]
    exact h.called u

theorem call (h : s.TraceInv M es) (hclaim : s.ClaimInv M) {command : String}
    {commands : List String} (result : ℤ) (disk : Disk Target)
    (hpc : s.pc w = .exec t (command :: commands)) :
    ({ s with disk := disk }.setPc w
      (if result ≠ 0 then .finish t true else .exec t commands)).TraceInv M
      (es ++ [Event.call w t command result disk]) := by
  have hw : (s.pc w).claim = some t := by rw [hpc]; rfl
  have hrest : callsOf t es ++ [command] ++ commands = M.commands t := by
    rw [List.append_assoc, List.singleton_append]
    exact h.running w t _ hpc
  refine ⟨?_, ?_, ?_, ?_, ?_⟩
  · intro u hu
    have hne : t ≠ u := fun heq ↦ hclaim.pending_unclaimed u hu w (heq ▸ hw)
    rw [removals_append (by simp), callsOf_append_call, if_neg hne, List.append_nil]
    exact h.listed u hu
  · intro u hu hroot hnot
    rw [removals_append (by simp)]
    exact h.removed u hu hroot hnot
  · intro u
    rw [removals_append (by simp)]
    exact h.removals_le u
  · intro w' u commands' hexec
    rw [callsOf_append_call]
    rw [setPc_pc] at hexec
    split at hexec
    · split at hexec
      · simp at hexec
      · obtain ⟨rfl, rfl⟩ : t = u ∧ commands = commands' := by simpa using hexec
        rwa [if_pos rfl]
    · next hne =>
      have htu : t ≠ u := by
        rintro rfl
        exact hne (hclaim.claim_unique w' w t
          (by rw [show s.pc w' = .exec t commands' from hexec]; rfl) hw)
      rw [if_neg htu, List.append_nil]
      exact h.running w' u commands' hexec
  · intro u
    rw [callsOf_append_call]
    by_cases htu : t = u
    · rw [if_pos htu, ← htu, ← hrest]
      exact List.prefix_append _ _
    · rw [if_neg htu, List.append_nil]
      exact h.called u

theorem step (h : s.TraceInv M es) (hscan : s.ScanInv M) (hclaim : s.ClaimInv M)
    {e : Event Target W} (hs : Steps M s e s') : s'.TraceInv M (es ++ [e]) := by
  cases hs with
  | @look w pc hl =>
      refine h.frame rfl (by simp) (by simp) fun w' t cs ↦ exec_of_setPc fun u cs' hpc ↦ ?_
      have hscanning := (LookSteps.of_look hl).scanning.2
      simp [hpc, Pc.scanning] at hscanning
  | remove hpc hafter => exact h.remove hscan hpc hafter
  | call result disk hpc => exact h.call hclaim result disk hpc
  | @settle w target _ _ =>
      refine h.frame rfl (by simp) (by simp) fun w' t cs hexec ↦ ?_
      have hback : ∀ r : State Target W, r.broadcast.pc w' = .exec t cs →
          r.pc w' = .exec t cs := by
        intro r hr
        by_cases hs : r.pc w' = .asleep
        · simp [State.broadcast, hs] at hr
        · simpa [State.broadcast, hs] using hr
      exact exec_of_setPc (s := s.setState target _) (by simp) (hback _ hexec)
  | _ => exact h.frame rfl (by simp) (by simp) fun w' t cs ↦ exec_of_setPc (by simp)

end TraceInv

/-- What holds in every state of a run from rule states 0. -/
structure WorkersInv (M : Makefile Target) (es : List (Event Target W)) (s : State Target W) :
    Prop where
  scan : s.ScanInv M
  claim : s.ClaimInv M
  trace : s.TraceInv M es

theorem WorkersInv.of_run {s₀ : State Target W} (hinit : s₀.Initial M)
    (hzero : ∀ t, s₀.state t = 0) (hrun : Run (StepOf (State.step M)) s₀ es s) :
    s.WorkersInv M es := by
  induction hrun with
  | nil => exact ⟨hinit.scanInv, hinit.claimInv hzero, hinit.traceInv⟩
  | snoc _ hlast ih =>
      have hs := Steps.of_step hlast
      exact ⟨ih.scan.step hs, ih.claim.step ih.scan hs, ih.trace.step ih.scan ih.claim hs⟩

end State

end SystemProgramming.ParallelMake
