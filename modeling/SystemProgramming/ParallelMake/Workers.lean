import SystemProgramming.ParallelMake.Model

/-!
# What a worker's step can do

The inversion of the step function, and the invariants that hold for every graph and
every initial rule state: the scanning worker is the one that holds `mtx_1`, and the
target it examines is the one at its index.
-/

namespace SystemProgramming.ParallelMake

variable {Target W : Type*} [DecidableEq Target] [DecidableEq W] {M : Makefile Target}

namespace Pc

/-- The position lies between locking and unlocking `mtx_1`. -/
def scanning : Pc Target → Bool
  | .status _ | .access _ _ | .fileDep _ _ _ | .statTarget _ _ _ _ | .statSub _ _ _ _ _
  | .ruleDeps _ _ | .reread _ _ _ | .decided _ _ _ => true
  | _ => false

/-- The index and the target that are being examined. -/
def examined : Pc Target → Option (ℕ × Target)
  | .access i target | .fileDep i target _ | .statTarget i target _ _ | .statSub i target _ _ _
  | .ruleDeps i target | .reread i target _ | .decided i target _ => some (i, target)
  | _ => none

/-- The target that a worker has erased from the list and not settled yet. -/
def claim : Pc Target → Option Target
  | .exec target _ | .finish target _ | .skip target => some target
  | _ => none

/-- The worker has returned, or sleeps without a pending wake-up. -/
def Idle (pc : Pc Target) : Prop := pc = .asleep ∨ pc = .done

omit [DecidableEq Target] in
theorem not_idle_of_scanning {pc : Pc Target} (h : pc.scanning = true) : ¬ pc.Idle := by
  rintro (rfl | rfl) <;> simp [scanning] at h

omit [DecidableEq Target] in
theorem not_idle_of_claim {pc : Pc Target} {target : Target} (h : pc.claim = some target) :
    ¬ pc.Idle := by
  rintro (rfl | rfl) <;> simp [claim] at h

omit [DecidableEq Target] in
theorem claim_eq_none_of_scanning {pc : Pc Target} (h : pc.scanning = true) :
    pc.claim = none := by
  cases pc <;> simp_all [scanning, claim]

end Pc

namespace State

variable {s s' : State Target W}

omit [DecidableEq Target] in
@[simp] theorem setPc_pc_self (w : W) (pc : Pc Target) : (s.setPc w pc).pc w = pc := by
  simp [setPc]

omit [DecidableEq Target] in
theorem setPc_pc_of_ne {w w' : W} (h : w' ≠ w) (pc : Pc Target) :
    (s.setPc w pc).pc w' = s.pc w' := by
  simp [setPc, h]

omit [DecidableEq Target] in
theorem setPc_pc (w w' : W) (pc : Pc Target) :
    (s.setPc w pc).pc w' = if w' = w then pc else s.pc w' := by
  simp [setPc, Function.update_apply]

omit [DecidableEq W] in
/-- A broadcast changes nothing that does not tell sleeping from woken. -/
theorem broadcast_pc_congr {α : Type*} (f : Pc Target → α) (h : f .asleep = f .woken) (w : W) :
    f (s.broadcast.pc w) = f (s.pc w) := by
  by_cases hs : s.pc w = .asleep
  · simp [broadcast, hs, h]
  · simp [broadcast, hs]

omit [DecidableEq W] in
theorem broadcast_pc_ne_asleep (w : W) : s.broadcast.pc w ≠ .asleep := by
  by_cases hs : s.pc w = .asleep
  · simp [broadcast, hs]
  · simp [broadcast, hs]

/-- The value that settling stores. -/
def settled (s : State Target W) : Pc Target → ℤ
  | .finish _ error => if error then -1 else 1
  | .skip target => if s.state target ≠ -1 then 1 else s.state target
  | _ => 0

omit [DecidableEq Target] [DecidableEq W] in
theorem settled_ne_zero {pc : Pc Target} {target : Target} (h : pc.claim = some target)
    (hexec : ∀ commands, pc ≠ .exec target commands) : s.settled pc ≠ 0 := by
  cases pc with
  | exec t cs =>
      obtain rfl : t = target := by simpa [Pc.claim] using h
      exact absurd rfl (hexec cs)
  | finish t error => cases error <;> simp [settled]
  | skip t => by_cases hs : s.state t = -1 <;> simp [settled, hs]
  | _ => simp [Pc.claim] at h

/-- The steps, with what they require and what they leave. -/
inductive Steps (M : Makefile Target) (s : State Target W) :
    Event Target W → State Target W → Prop
  | lock {w} : s.pc w = .lock → s.mtx1 = none → s.topoOrder ≠ [] →
      Steps M s (.lock w) ({ s with mtx1 := some w }.setPc w (.status 0))
  | ret {w} : s.pc w = .lock → s.mtx1 = none → s.topoOrder = [] →
      Steps M s (.lock w) (s.setPc w .done)
  | look {w pc} : s.look M (s.pc w) = some pc → Steps M s (.look w) (s.setPc w pc)
  | remove {w i target status pc} : s.pc w = .decided i target status →
      afterRemove M target status = some pc →
      Steps M s (.remove w target)
        ({ s with topoOrder := s.topoOrder.eraseIdx i, mtx1 := none }.setPc w pc)
  | sleep {w i target status} : s.pc w = .decided i target status →
      afterRemove M target status = none → i + 1 = s.topoOrder.length →
      Steps M s (.sleep w) ({ s with mtx1 := none }.setPc w .asleep)
  | wake {w} : s.pc w = .asleep → Steps M s (.wake w) (s.setPc w .woken)
  | resume {w} : s.pc w = .woken → s.mtx1 = none → Steps M s (.resume w) (s.setPc w .lock)
  | call {w target command commands} (result disk) : s.pc w = .exec target (command :: commands) →
      Steps M s (.call w target command result disk) ({ s with disk := disk }.setPc w
        (if result ≠ 0 then .finish target true else .exec target commands))
  | finish {w target} : s.pc w = .exec target [] →
      Steps M s (.finish w) (s.setPc w (.finish target false))
  | settle {w target} : (s.pc w).claim = some target →
      (∀ commands, s.pc w ≠ .exec target commands) →
      Steps M s (.settle w target)
        (((s.setState target (s.settled (s.pc w))).setPc w .lock).broadcast)

theorem Steps.of_step {e : Event Target W} (h : s.step M e = some s') : Steps M s e s' := by
  cases e with
  | lock w =>
      by_cases hok : s.pc w = .lock ∧ s.mtx1 = none
      · cases horder : s.topoOrder with
        | nil =>
            obtain rfl : s.setPc w .done = s' := by simpa [step, hok, horder] using h
            exact .ret hok.1 hok.2 horder
        | cons t ts =>
            obtain rfl : { s with mtx1 := some w }.setPc w (.status 0) = s' := by
              simpa [step, hok, horder] using h
            exact .lock hok.1 hok.2 (by simp [horder])
      · simp [step, hok] at h
  | look w =>
      simp only [step, Option.map_eq_some_iff] at h
      obtain ⟨pc, hpc, rfl⟩ := h
      exact .look hpc
  | remove w target =>
      cases hpc : s.pc w with
      | decided i t status =>
          by_cases ht : t = target
          · subst ht
            simp only [step, hpc, if_true, Option.map_eq_some_iff] at h
            obtain ⟨pc, hafter, rfl⟩ := h
            exact .remove hpc hafter
          · simp [step, hpc, ht] at h
      | _ => simp [step, hpc] at h
  | sleep w =>
      cases hpc : s.pc w with
      | decided i t status =>
          by_cases hok : afterRemove M t status = none ∧ i + 1 = s.topoOrder.length
          · obtain rfl : { s with mtx1 := none }.setPc w .asleep = s' := by
              simpa [step, hpc, hok] using h
            exact .sleep hpc hok.1 hok.2
          · simp [step, hpc, hok] at h
      | _ => simp [step, hpc] at h
  | wake w =>
      by_cases hpc : s.pc w = .asleep
      · obtain rfl : s.setPc w .woken = s' := by simpa [step, hpc] using h
        exact .wake hpc
      · simp [step, hpc] at h
  | resume w =>
      by_cases hok : s.pc w = .woken ∧ s.mtx1 = none
      · obtain rfl : s.setPc w .lock = s' := by simpa [step, hok] using h
        exact .resume hok.1 hok.2
      · simp [step, hok] at h
  | call w target command result disk =>
      cases hpc : s.pc w with
      | exec t cs =>
          cases cs with
          | nil => simp [step, hpc] at h
          | cons c cs =>
              by_cases ht : t = target ∧ c = command
              · obtain ⟨rfl, rfl⟩ := ht
                simp only [step, hpc, and_self, if_true, Option.some.injEq] at h
                exact h ▸ .call result disk hpc
              · simp [step, hpc, ht] at h
      | _ => simp [step, hpc] at h
  | finish w =>
      cases hpc : s.pc w with
      | exec t cs =>
          cases cs with
          | nil =>
              obtain rfl : s.setPc w (.finish t false) = s' := by simpa [step, hpc] using h
              exact .finish hpc
          | cons c cs => simp [step, hpc] at h
      | _ => simp [step, hpc] at h
  | settle w target =>
      cases hpc : s.pc w with
      | finish t error =>
          by_cases ht : t = target
          · subst ht
            simp only [step, hpc, if_true, Option.some.injEq] at h
            have hsteps : Steps M s (.settle w t) _ :=
              .settle (by simp [hpc, Pc.claim]) (by simp [hpc])
            rw [hpc] at hsteps
            exact h ▸ hsteps
          · simp [step, hpc, ht] at h
      | skip t =>
          by_cases ht : t = target
          · subst ht
            simp only [step, hpc, if_true, Option.some.injEq] at h
            have hsteps : Steps M s (.settle w t) _ :=
              .settle (by simp [hpc, Pc.claim]) (by simp [hpc])
            rw [hpc] at hsteps
            exact h ▸ hsteps
          · simp [step, hpc, ht] at h
      | _ => simp [step, hpc] at h

/-- A settled rule stays settled. -/
theorem Steps.state_ne_zero {e : Event Target W} (h : Steps M s e s') {t : Target}
    (ht : s.state t ≠ 0) : s'.state t ≠ 0 := by
  cases h with
  | @settle w target hclaim hexec =>
      change Function.update s.state target (s.settled (s.pc w)) t ≠ 0
      by_cases heq : t = target
      · subst heq
        simpa using settled_ne_zero hclaim hexec
      · simpa [heq] using ht
  | _ => exact ht

/-! ## Steps of the scan -/

/-- The steps of `get_target_status` and of the loop around it. -/
inductive LookSteps (M : Makefile Target) (s : State Target W) : Pc Target → Pc Target → Prop
  | settled {i t} : s.topoOrder[i]? = some t → s.state t ≠ 0 →
      LookSteps M s (.status i) (.decided i t 3)
  | unsettled {i t} : s.topoOrder[i]? = some t → s.state t = 0 →
      LookSteps M s (.status i) (.access i t)
  | isFile {i t} : s.disk t ≠ none → LookSteps M s (.access i t) (.fileDep i t (M.neighbors t))
  | noFile {i t} : s.disk t = none → LookSteps M s (.access i t) (.ruleDeps i t)
  | leaf {i t status} : (∀ dep, ¬ M.g.Adj t dep) → status = 1 ∨ status = 2 →
      LookSteps M s (.access i t) (.decided i t status)
  | upToDate {i t} : LookSteps M s (.fileDep i t []) (.decided i t 2)
  | subFile {i t sub deps} : s.disk sub ≠ none →
      LookSteps M s (.fileDep i t (sub :: deps)) (.statTarget i t sub deps)
  | subMissing {i t sub deps} : s.disk sub = none →
      LookSteps M s (.fileDep i t (sub :: deps)) (.decided i t 1)
  | statTarget {i t sub deps mtime} : s.disk t = some mtime →
      LookSteps M s (.statTarget i t sub deps) (.statSub i t mtime sub deps)
  | statTargetFails {i t sub deps} : s.disk t = none →
      LookSteps M s (.statTarget i t sub deps) (.decided i t (-1))
  | statSubFails {i t mtime sub deps} : s.disk sub = none →
      LookSteps M s (.statSub i t mtime sub deps) (.decided i t (-1))
  | subNewer {i t mtime sub deps subMtime} : s.disk sub = some subMtime → mtime < subMtime →
      LookSteps M s (.statSub i t mtime sub deps) (.decided i t 1)
  | subOlder {i t mtime sub deps} : LookSteps M s (.statSub i t mtime sub deps) (.fileDep i t deps)
  | unfinished {i t sub} : M.g.Adj t sub → s.state sub ≠ 1 →
      LookSteps M s (.ruleDeps i t) (.reread i t sub)
  | passed {i t} : (∀ dep, M.g.Adj t dep → s.state dep = 1) →
      LookSteps M s (.ruleDeps i t) (.decided i t 1)
  | reread {i t sub} : LookSteps M s (.reread i t sub) (.decided i t (s.state sub))
  | next {i t status} : afterRemove M t status = none → i + 1 ≠ s.topoOrder.length →
      LookSteps M s (.decided i t status) (.status (i + 1))

omit [DecidableEq Target] [DecidableEq W] in
theorem LookSteps.of_look {pc pc' : Pc Target} (h : s.look M pc = some pc') :
    LookSteps M s pc pc' := by
  cases pc with
  | status i =>
      cases ht : s.topoOrder[i]? with
      | none => simp [look, ht] at h
      | some t =>
          by_cases hzero : s.state t = 0
          · obtain rfl : .access i t = pc' := by simpa [look, ht, hzero] using h
            exact .unsettled ht hzero
          · obtain rfl : .decided i t 3 = pc' := by simpa [look, ht, hzero] using h
            exact .settled ht hzero
  | access i t =>
      cases hn : M.neighbors t with
      | nil =>
          have hleaf : ∀ dep, ¬ M.g.Adj t dep := by
            intro dep hdep
            simpa [hn] using (M.mem_neighbors).mpr hdep
          cases hd : s.disk t with
          | none =>
              obtain rfl : .decided i t 1 = pc' := by simpa [look, hn, hd] using h
              exact .leaf hleaf (Or.inl rfl)
          | some mtime =>
              obtain rfl : .decided i t 2 = pc' := by simpa [look, hn, hd] using h
              exact .leaf hleaf (Or.inr rfl)
      | cons dep deps =>
          cases hd : s.disk t with
          | none =>
              obtain rfl : .ruleDeps i t = pc' := by simpa [look, hn, hd] using h
              exact .noFile hd
          | some mtime =>
              obtain rfl : .fileDep i t (M.neighbors t) = pc' := by simpa [look, hn, hd] using h
              exact .isFile (by simp [hd])
  | fileDep i t deps =>
      cases deps with
      | nil =>
          obtain rfl : .decided i t 2 = pc' := by simpa [look] using h
          exact .upToDate
      | cons sub deps =>
          cases hd : s.disk sub with
          | none =>
              obtain rfl : .decided i t 1 = pc' := by simpa [look, hd] using h
              exact .subMissing hd
          | some mtime =>
              obtain rfl : .statTarget i t sub deps = pc' := by simpa [look, hd] using h
              exact .subFile (by simp [hd])
  | statTarget i t sub deps =>
      cases hd : s.disk t with
      | none =>
          obtain rfl : .decided i t (-1) = pc' := by simpa [look, hd] using h
          exact .statTargetFails hd
      | some mtime =>
          obtain rfl : .statSub i t mtime sub deps = pc' := by simpa [look, hd] using h
          exact .statTarget hd
  | statSub i t mtime sub deps =>
      cases hd : s.disk sub with
      | none =>
          obtain rfl : .decided i t (-1) = pc' := by simpa [look, hd] using h
          exact .statSubFails hd
      | some subMtime =>
          by_cases hlt : mtime < subMtime
          · obtain rfl : .decided i t 1 = pc' := by simpa [look, hd, hlt] using h
            exact .subNewer hd hlt
          · obtain rfl : .fileDep i t deps = pc' := by simpa [look, hd, hlt] using h
            exact .subOlder
  | ruleDeps i t =>
      cases hfind : (M.neighbors t).find? (fun dep ↦ s.state dep ≠ 1) with
      | none =>
          obtain rfl : .decided i t 1 = pc' := by simpa only [look, hfind, Option.some.injEq] using h
          refine .passed fun dep hdep ↦ ?_
          simpa using List.find?_eq_none.mp hfind dep (M.mem_neighbors.mpr hdep)
      | some sub =>
          obtain rfl : .reread i t sub = pc' := by simpa only [look, hfind, Option.some.injEq] using h
          refine .unfinished (M.mem_neighbors.mp (List.mem_of_find?_eq_some hfind)) ?_
          simpa using List.find?_some hfind
  | reread i t sub =>
      obtain rfl : .decided i t (s.state sub) = pc' := by simpa [look] using h
      exact .reread
  | decided i t status =>
      by_cases hst : status = 1 ∨ status = 3 ∨ status = -1 ∨ status = 2
      · simp [look, hst] at h
      · by_cases hlast : i + 1 = s.topoOrder.length
        · simp [look, hst, hlast] at h
        · obtain rfl : .status (i + 1) = pc' := by simpa [look, hst, hlast] using h
          refine .next ?_ hlast
          push Not at hst
          simp [afterRemove, hst]
  | _ => simp [look] at h

omit [DecidableEq Target] [DecidableEq W] in
theorem LookSteps.scanning {pc pc' : Pc Target} (h : LookSteps M s pc pc') :
    pc.scanning = true ∧ pc'.scanning = true := by
  cases h <;> exact ⟨rfl, rfl⟩

omit [DecidableEq Target] [DecidableEq W] in
theorem LookSteps.examined {pc pc' : Pc Target} (h : LookSteps M s pc pc') {i : ℕ} {t : Target}
    (ht : pc'.examined = some (i, t)) :
    pc.examined = some (i, t) ∨ s.topoOrder[i]? = some t := by
  cases h with
  | settled hi _ =>
      obtain ⟨rfl, rfl⟩ : _ = i ∧ _ = t := by simpa [Pc.examined] using ht
      exact Or.inr hi
  | unsettled hi _ =>
      obtain ⟨rfl, rfl⟩ : _ = i ∧ _ = t := by simpa [Pc.examined] using ht
      exact Or.inr hi
  | next _ _ => simp [Pc.examined] at ht
  | _ => exact Or.inl ht

omit [DecidableEq Target] in
theorem afterRemove_eq_none_iff {t : Target} {status : ℤ} :
    afterRemove M t status = none ↔ status ≠ 1 ∧ status ≠ 3 ∧ status ≠ -1 ∧ status ≠ 2 := by
  unfold afterRemove
  split_ifs <;> simp only [true_iff, false_iff] <;> omega

/-! ## The lock and the examined target -/

/-- At most one worker is between locking and unlocking `mtx_1`, and what it examines
is in the list. -/
structure ScanInv (M : Makefile Target) (s : State Target W) : Prop where
  nodup : s.topoOrder.Nodup
  holder : ∀ w, (s.pc w).scanning = true ↔ s.mtx1 = some w
  index : ∀ w i t, (s.pc w).examined = some (i, t) → s.topoOrder[i]? = some t
  reread_dep : ∀ w i t sub, s.pc w = .reread i t sub → M.g.Adj t sub

omit [DecidableEq W] in
theorem Initial.scanInv (h : s.Initial M) : s.ScanInv M where
  nodup := h.nodup
  holder := by simp [h.at_lock, h.unlocked, Pc.scanning]
  index := by simp [h.at_lock, Pc.examined]
  reread_dep := by simp [h.at_lock]

namespace ScanInv

omit [DecidableEq Target] [DecidableEq W] in
theorem examined_holder (h : s.ScanInv M) {w : W} {i : ℕ} {t : Target}
    (hex : (s.pc w).examined = some (i, t)) : s.mtx1 = some w := by
  apply (h.holder w).mp
  cases hpc : s.pc w <;> simp_all [Pc.examined, Pc.scanning]

omit [DecidableEq Target] in
/-- A worker ends up outside the scan; it may release the lock, and erase from the
list while it holds the lock. -/
theorem setPc_outside (h : s.ScanInv M) {w : W} {pc : Pc Target} (hpc : pc.scanning = false)
    {topoOrder : List Target} (hnodup : topoOrder.Nodup) {mtx1 : Option W}
    (hother : ∀ w', w' ≠ w → (s.mtx1 = some w' ↔ mtx1 = some w')) (hself : mtx1 ≠ some w)
    (hkeep : topoOrder = s.topoOrder ∨ s.mtx1 = some w) (state : Target → ℤ) (disk : Disk Target) :
    (State.setPc ⟨topoOrder, state, disk, mtx1, s.pc⟩ w pc).ScanInv M := by
  refine ⟨hnodup, fun w' ↦ ?_, fun w' i t hex ↦ ?_, fun w' i t sub hsub ↦ ?_⟩
  · rw [setPc_pc]
    by_cases hw : w' = w
    · subst hw
      simpa [setPc, hpc] using hself
    · rw [if_neg hw, h.holder w', hother w' hw]
      rfl
  · rw [setPc_pc] at hex
    by_cases hw : w' = w
    · rw [if_pos hw] at hex
      cases pc <;> simp_all [Pc.examined, Pc.scanning]
    · rw [if_neg hw] at hex
      rcases hkeep with rfl | hheld
      · exact h.index w' i t hex
      · exact absurd (Option.some.inj ((h.examined_holder hex).symm.trans hheld)) hw
  · rw [setPc_pc] at hsub
    by_cases hw : w' = w
    · rw [if_pos hw] at hsub
      simp [hsub, Pc.scanning] at hpc
    · exact h.reread_dep w' i t sub (by rwa [if_neg hw] at hsub)

omit [DecidableEq W] in
theorem broadcast (h : s.ScanInv M) : s.broadcast.ScanInv M where
  nodup := h.nodup
  holder w := by rw [broadcast_pc_congr Pc.scanning rfl w]; exact h.holder w
  index w i t hex := h.index w i t (by rwa [broadcast_pc_congr Pc.examined rfl w] at hex)
  reread_dep w i t sub hsub := by
    refine h.reread_dep w i t sub ?_
    by_cases hs : s.pc w = .asleep
    · simp [State.broadcast, hs] at hsub
    · simpa [State.broadcast, hs] using hsub

omit [DecidableEq Target] in
theorem look (h : s.ScanInv M) {w : W} {pc : Pc Target} (hl : LookSteps M s (s.pc w) pc) :
    (s.setPc w pc).ScanInv M where
  nodup := h.nodup
  holder w' := by
    rw [setPc_pc]
    by_cases hw : w' = w
    · subst hw
      simpa [setPc, hl.scanning.2] using (h.holder w').mp hl.scanning.1
    · rw [if_neg hw]
      exact h.holder w'
  index w' i t hex := by
    rw [setPc_pc] at hex
    by_cases hw : w' = w
    · rw [if_pos hw] at hex
      rcases hl.examined hex with hold | hnew
      · exact h.index w i t hold
      · exact hnew
    · exact h.index w' i t (by rwa [if_neg hw] at hex)
  reread_dep w' i t sub hsub := by
    rw [setPc_pc] at hsub
    by_cases hw : w' = w
    · rw [if_pos hw] at hsub
      subst hsub
      cases hpc : s.pc w with
      | ruleDeps j u =>
          rw [hpc] at hl
          cases hl with
          | unfinished hadj _ => exact hadj
      | _ => rw [hpc] at hl; cases hl
    · exact h.reread_dep w' i t sub (by rwa [if_neg hw] at hsub)

omit [DecidableEq Target] in
theorem lock (h : s.ScanInv M) {w : W} (hfree : s.mtx1 = none) :
    ({ s with mtx1 := some w }.setPc w (.status 0)).ScanInv M where
  nodup := h.nodup
  holder w' := by
    rw [setPc_pc]
    by_cases hw : w' = w
    · subst hw
      simp [setPc, Pc.scanning]
    · have hnot := h.holder w'
      simp only [hfree, reduceCtorEq, iff_false] at hnot
      simpa [setPc, hw, hnot] using fun heq ↦ hw heq.symm
  index w' i t hex := by
    rw [setPc_pc] at hex
    by_cases hw : w' = w
    · simp [hw, Pc.examined] at hex
    · exact h.index w' i t (by rwa [if_neg hw] at hex)
  reread_dep w' i t sub hsub := by
    rw [setPc_pc] at hsub
    by_cases hw : w' = w
    · simp [hw] at hsub
    · exact h.reread_dep w' i t sub (by rwa [if_neg hw] at hsub)

omit [DecidableEq Target] [DecidableEq W] in
/-- Outside the scan, a worker does not hold the lock. -/
theorem not_holder (h : s.ScanInv M) {w : W} (hpc : (s.pc w).scanning = false) :
    s.mtx1 ≠ some w := by
  intro hheld
  simp [(h.holder w).mpr hheld] at hpc

omit [DecidableEq Target] in
theorem afterRemove_scanning {t : Target} {status : ℤ} {pc : Pc Target}
    (h : afterRemove M t status = some pc) : pc.scanning = false := by
  unfold afterRemove at h
  split_ifs at h <;> cases h <;> rfl

theorem step (h : s.ScanInv M) {e : Event Target W} (hs : Steps M s e s') : s'.ScanInv M := by
  cases hs with
  | lock _ hfree _ => exact h.lock hfree
  | ret hpc hfree _ =>
      exact h.setPc_outside rfl h.nodup (fun _ _ ↦ Iff.rfl) (by simp [hfree]) (Or.inl rfl) _ _
  | look hl => exact h.look (.of_look hl)
  | @remove w i target status pc hpc hafter =>
      have hheld := (h.holder w).mp (by simp [hpc, Pc.scanning])
      refine h.setPc_outside (afterRemove_scanning hafter) (h.nodup.eraseIdx i) ?_ (by simp)
        (Or.inr hheld) _ _
      intro w' hw
      simpa [hheld] using fun heq ↦ hw heq.symm
  | @sleep w i target status hpc _ _ =>
      have hheld := (h.holder w).mp (by simp [hpc, Pc.scanning])
      refine h.setPc_outside rfl h.nodup ?_ (by simp) (Or.inl rfl) _ _
      intro w' hw
      simpa [hheld] using fun heq ↦ hw heq.symm
  | wake hpc =>
      exact h.setPc_outside rfl h.nodup (fun _ _ ↦ Iff.rfl)
        (h.not_holder (by simp [hpc, Pc.scanning])) (Or.inl rfl) _ _
  | resume hpc hfree =>
      exact h.setPc_outside rfl h.nodup (fun _ _ ↦ Iff.rfl) (by simp [hfree]) (Or.inl rfl) _ _
  | call result disk hpc =>
      refine h.setPc_outside ?_ h.nodup (fun _ _ ↦ Iff.rfl)
        (h.not_holder (by simp [hpc, Pc.scanning])) (Or.inl rfl) _ _
      split <;> rfl
  | finish hpc =>
      exact h.setPc_outside rfl h.nodup (fun _ _ ↦ Iff.rfl)
        (h.not_holder (by simp [hpc, Pc.scanning])) (Or.inl rfl) _ _
  | @settle w target hclaim _ =>
      apply ScanInv.broadcast
      refine h.setPc_outside rfl h.nodup (fun _ _ ↦ Iff.rfl) (h.not_holder ?_) (Or.inl rfl) _ _
      cases hpc : s.pc w <;> simp_all [Pc.claim, Pc.scanning]

end ScanInv

end State

end SystemProgramming.ParallelMake
