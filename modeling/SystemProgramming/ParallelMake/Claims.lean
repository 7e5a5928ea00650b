import SystemProgramming.ParallelMake.TopologicalOrder
import SystemProgramming.ParallelMake.Workers

/-!
# Every target is listed, claimed by one worker, or settled

The invariants of runs that start with all rule states 0.
-/

namespace SystemProgramming.ParallelMake

variable {Target W : Type*} [DecidableEq Target] [DecidableEq W] {M : Makefile Target}

namespace State

variable {s s' : State Target W}

structure ClaimInv (M : Makefile Target) (s : State Target W) : Prop where
  pending_zero : ∀ t ∈ s.topoOrder, s.state t = 0
  pending_unclaimed : ∀ t ∈ s.topoOrder, ∀ w, (s.pc w).claim ≠ some t
  claimed_zero : ∀ w t, (s.pc w).claim = some t → s.state t = 0
  claim_unique : ∀ w w' t, (s.pc w).claim = some t → (s.pc w').claim = some t → w = w'
  accounted : ∀ t ∈ M.g.vertices, t ≠ M.root →
    t ∈ s.topoOrder ∨ (∃ w, (s.pc w).claim = some t) ∨ s.state t ≠ 0
  state_values : ∀ t, s.state t = 0 ∨ s.state t = 1 ∨ s.state t = -1
  status_values : ∀ w i t status, s.pc w = .decided i t status →
    status = 0 ∨ status = 1 ∨ status = -1 ∨ status = 2

omit [DecidableEq W] in
theorem Initial.mem_topoOrder (h : s.Initial M) {t : Target} :
    t ∈ s.topoOrder ↔ t ≠ M.root ∧ t ∈ M.g.vertices := by
  obtain ⟨fuel, order, horder, hlist⟩ := h.lists_order
  rw [hlist, Makefile.topologicalOrder_eq horder, Finset.mem_erase]

omit [DecidableEq W] in
theorem Initial.claimInv (h : s.Initial M) (hzero : ∀ t, s.state t = 0) : s.ClaimInv M where
  pending_zero t _ := hzero t
  pending_unclaimed := by simp [h.at_lock, Pc.claim]
  claimed_zero w t _ := hzero t
  claim_unique := by simp [h.at_lock, Pc.claim]
  accounted t ht hne := Or.inl (h.mem_topoOrder.mpr ⟨hne, ht⟩)
  state_values t := Or.inl (hzero t)
  status_values := by simp [h.at_lock]

/-- Erasing the examined target removes it and nothing else. -/
theorem mem_eraseIdx_iff {l : List Target} (hl : l.Nodup) {i : ℕ} {t u : Target}
    (hi : l[i]? = some t) : u ∈ l.eraseIdx i ↔ u ≠ t ∧ u ∈ l := by
  obtain ⟨hlt, rfl⟩ := List.getElem?_eq_some_iff.mp hi
  rw [← hl.erase_getElem i hlt, hl.mem_erase_iff]

namespace ClaimInv

omit [DecidableEq Target] in
/-- A worker moves without claiming a target or giving one up. -/
theorem setPc (h : s.ClaimInv M) {w : W} {pc : Pc Target} (hclaim : pc.claim = (s.pc w).claim)
    (hstatus : ∀ i t status, pc = .decided i t status →
      status = 0 ∨ status = 1 ∨ status = -1 ∨ status = 2)
    (mtx1 : Option W) (disk : Disk Target) :
    (State.setPc ⟨s.topoOrder, s.state, disk, mtx1, s.pc⟩ w pc).ClaimInv M := by
  have hsame : ∀ w', ((State.setPc ⟨s.topoOrder, s.state, disk, mtx1, s.pc⟩ w pc).pc w').claim =
      (s.pc w').claim := by
    intro w'
    rw [setPc_pc]
    split
    · next hw => rw [hclaim, hw]
    · rfl
  refine ⟨h.pending_zero, ?_, ?_, ?_, ?_, h.state_values, ?_⟩
  · intro t ht w'
    rw [hsame]
    exact h.pending_unclaimed t ht w'
  · intro w' t ht
    exact h.claimed_zero w' t (hsame w' ▸ ht)
  · intro w₁ w₂ t h₁ h₂
    exact h.claim_unique w₁ w₂ t (hsame w₁ ▸ h₁) (hsame w₂ ▸ h₂)
  · intro t ht hne
    simp only [hsame]
    exact h.accounted t ht hne
  · intro w' i t status hpc
    rw [setPc_pc] at hpc
    split at hpc
    · exact hstatus i t status hpc
    · exact h.status_values w' i t status hpc

omit [DecidableEq Target] [DecidableEq W] in
/-- What the branches that erase the target do with it. -/
theorem claim_of_afterRemove (h : s.ClaimInv M) {w : W} {i : ℕ} {t : Target} {status : ℤ}
    {pc : Pc Target} (hpc : s.pc w = .decided i t status)
    (hafter : afterRemove M t status = some pc) : pc.claim = some t := by
  have hne : status ≠ 3 := by
    have hvals := h.status_values w i t status hpc
    omega
  unfold afterRemove at hafter
  split_ifs at hafter <;> cases hafter <;> rfl

theorem remove (h : s.ClaimInv M) (hscan : s.ScanInv M) {w : W} {i : ℕ} {t : Target} {status : ℤ}
    {pc : Pc Target} (hpc : s.pc w = .decided i t status)
    (hafter : afterRemove M t status = some pc) :
    ({ s with topoOrder := s.topoOrder.eraseIdx i, mtx1 := none }.setPc w pc).ClaimInv M := by
  have hi : s.topoOrder[i]? = some t := hscan.index w i t (by rw [hpc]; rfl)
  have hclaim := h.claim_of_afterRemove hpc hafter
  have hold : (s.pc w).claim = none := by rw [hpc]; rfl
  have hmem := List.mem_of_getElem? hi
  have herase : ∀ u, u ∈ s.topoOrder.eraseIdx i ↔ u ≠ t ∧ u ∈ s.topoOrder :=
    fun u ↦ mem_eraseIdx_iff hscan.nodup hi
  have hpc' : ∀ w', (({ s with topoOrder := s.topoOrder.eraseIdx i, mtx1 := none }.setPc w pc).pc
      w').claim = if w' = w then some t else (s.pc w').claim := by
    intro w'
    rw [setPc_pc]
    split
    · exact hclaim
    · rfl
  refine ⟨?_, ?_, ?_, ?_, ?_, h.state_values, ?_⟩
  · intro u hu
    exact h.pending_zero u ((herase u).mp hu).2
  · intro u hu w'
    obtain ⟨hne, hu⟩ := (herase u).mp hu
    rw [hpc']
    split
    · exact fun heq ↦ hne (Option.some.inj heq).symm
    · exact h.pending_unclaimed u hu w'
  · intro w' u hu
    rw [hpc'] at hu
    split at hu
    · exact Option.some.inj hu ▸ h.pending_zero t hmem
    · exact h.claimed_zero w' u hu
  · intro w₁ w₂ u h₁ h₂
    rw [hpc'] at h₁ h₂
    split at h₁ <;> split at h₂
    · next hw₁ hw₂ => rw [hw₁, hw₂]
    · exact absurd (Option.some.inj h₁ ▸ h₂) (h.pending_unclaimed t hmem w₂)
    · exact absurd (Option.some.inj h₂ ▸ h₁) (h.pending_unclaimed t hmem w₁)
    · exact h.claim_unique w₁ w₂ u h₁ h₂
  · intro u hu hne
    by_cases heq : u = t
    · exact Or.inr (Or.inl ⟨w, by rw [hpc', if_pos rfl, heq]⟩)
    · rcases h.accounted u hu hne with hlist | ⟨w', hw'⟩ | hset
      · exact Or.inl ((herase u).mpr ⟨heq, hlist⟩)
      · refine Or.inr (Or.inl ⟨w', ?_⟩)
        have hw : w' ≠ w := by
          rintro rfl
          simp [hold] at hw'
        rw [hpc', if_neg hw, hw']
      · exact Or.inr (Or.inr hset)
  · intro w' j u st hdec
    rw [setPc_pc] at hdec
    split at hdec
    · simp [hdec, Pc.claim] at hclaim
    · exact h.status_values w' j u st hdec

omit [DecidableEq Target] [DecidableEq W] in
theorem settled_values {pc : Pc Target} {t : Target} (h : pc.claim = some t)
    (hexec : ∀ commands, pc ≠ .exec t commands) : s.settled pc = 1 ∨ s.settled pc = -1 := by
  cases pc with
  | exec u cs =>
      obtain rfl : u = t := by simpa [Pc.claim] using h
      exact absurd rfl (hexec cs)
  | finish u error => cases error <;> simp [settled]
  | skip u => by_cases hs : s.state u = -1 <;> simp [settled, hs]
  | _ => simp [Pc.claim] at h

theorem settle (h : s.ClaimInv M) {w : W} {t : Target} (hclaim : (s.pc w).claim = some t)
    (hexec : ∀ commands, s.pc w ≠ .exec t commands) :
    (((s.setState t (s.settled (s.pc w))).setPc w .lock).broadcast).ClaimInv M := by
  set v := s.settled (s.pc w) with hv
  have hvals : v = 1 ∨ v = -1 := settled_values hclaim hexec
  have hstate : ∀ u, (((s.setState t v).setPc w .lock).broadcast).state u =
      if u = t then v else s.state u := by
    intro u
    exact Function.update_apply _ _ _ _
  have hpc' : ∀ w', ((((s.setState t v).setPc w .lock).broadcast).pc w').claim =
      if w' = w then none else (s.pc w').claim := by
    intro w'
    rw [broadcast_pc_congr Pc.claim rfl, setPc_pc]
    split <;> rfl
  have hnot : t ∉ s.topoOrder := fun ht ↦ h.pending_unclaimed t ht w hclaim
  refine ⟨?_, ?_, ?_, ?_, ?_, ?_, ?_⟩
  · intro u hu
    have hne : u ≠ t := fun heq ↦ hnot (heq ▸ hu)
    rw [hstate, if_neg hne]
    exact h.pending_zero u hu
  · intro u hu w'
    rw [hpc']
    split
    · simp
    · exact h.pending_unclaimed u hu w'
  · intro w' u hu
    rw [hpc'] at hu
    split at hu
    · cases hu
    · next hw =>
      have hne : u ≠ t := fun heq ↦ hw (h.claim_unique w' w t (heq ▸ hu) hclaim)
      rw [hstate, if_neg hne]
      exact h.claimed_zero w' u hu
  · intro w₁ w₂ u h₁ h₂
    rw [hpc'] at h₁ h₂
    split at h₁
    · cases h₁
    · split at h₂
      · cases h₂
      · exact h.claim_unique w₁ w₂ u h₁ h₂
  · intro u hu hne
    by_cases heq : u = t
    · refine Or.inr (Or.inr ?_)
      rw [hstate, if_pos heq]
      omega
    · rcases h.accounted u hu hne with hlist | ⟨w', hw'⟩ | hset
      · exact Or.inl hlist
      · refine Or.inr (Or.inl ⟨w', ?_⟩)
        have hw : w' ≠ w := by
          rintro rfl
          exact heq (Option.some.inj (hw'.symm.trans hclaim))
        rw [hpc', if_neg hw, hw']
      · exact Or.inr (Or.inr (by rwa [hstate, if_neg heq]))
  · intro u
    rw [hstate]
    split
    · omega
    · exact h.state_values u
  · intro w' i u st hdec
    have hold : ((s.setState t v).setPc w .lock).pc w' = .decided i u st := by
      by_cases hs : ((s.setState t v).setPc w .lock).pc w' = .asleep
      · simp [State.broadcast, hs] at hdec
      · simpa [State.broadcast, hs] using hdec
    rw [setPc_pc] at hold
    split at hold
    · simp at hold
    · exact h.status_values w' i u st hold

omit [DecidableEq Target] [DecidableEq W] in
theorem look_status (h : s.ClaimInv M) {w : W} {i : ℕ} {t : Target} {status : ℤ}
    (hl : LookSteps M s (s.pc w) (.decided i t status)) :
    status = 0 ∨ status = 1 ∨ status = -1 ∨ status = 2 := by
  generalize hpc : s.pc w = pc at hl
  generalize hres : Pc.decided i t status = res at hl
  cases hl with
  | settled hi hne => exact absurd (h.pending_zero _ (List.mem_of_getElem? hi)) hne
  | leaf _ hst => cases hres; omega
  | @reread j u sub =>
      obtain ⟨-, -, rfl⟩ : i = j ∧ t = u ∧ status = s.state sub := by simpa using hres
      have hvals := h.state_values sub
      omega
  | upToDate => cases hres; decide
  | subMissing _ => cases hres; decide
  | statTargetFails _ => cases hres; decide
  | statSubFails _ => cases hres; decide
  | subNewer _ _ => cases hres; decide
  | passed _ => cases hres; decide
  | _ => simp at hres

theorem step (h : s.ClaimInv M) (hscan : s.ScanInv M) {e : Event Target W}
    (hs : Steps M s e s') : s'.ClaimInv M := by
  cases hs with
  | lock hpc _ _ => exact h.setPc (by rw [hpc]; rfl) (by simp) _ _
  | ret hpc _ _ => exact h.setPc (by rw [hpc]; rfl) (by simp) _ _
  | @look w pc hl =>
      have hl' := LookSteps.of_look hl
      refine h.setPc ?_ (fun i t status hpc ↦ h.look_status (hpc ▸ hl')) _ _
      rw [Pc.claim_eq_none_of_scanning hl'.scanning.1, Pc.claim_eq_none_of_scanning hl'.scanning.2]
  | remove hpc hafter => exact h.remove hscan hpc hafter
  | sleep hpc _ _ => exact h.setPc (by rw [hpc]; rfl) (by simp) _ _
  | wake hpc => exact h.setPc (by rw [hpc]; rfl) (by simp) _ _
  | resume hpc _ => exact h.setPc (by rw [hpc]; rfl) (by simp) _ _
  | call result disk hpc =>
      refine h.setPc ?_ (fun i t status hdec ↦ ?_) _ _
      · rw [hpc]; split <;> rfl
      · split at hdec <;> simp at hdec
  | finish hpc => exact h.setPc (by rw [hpc]; rfl) (by simp) _ _
  | settle hclaim hexec => exact h.settle hclaim hexec

end ClaimInv

end State

end SystemProgramming.ParallelMake
