import SystemProgramming.Lib.Runs

/-!
# Systems that come to an end

Every step decreases a measure.  A system that can only stop in a final state then reaches one
under every schedule.
-/

namespace SystemProgramming.Run

variable {σ ε : Type*} {step : σ → ε → σ → Prop} {I final : σ → Prop} {μ : σ → ℕ} {s t : σ}
  {es : List ε}

/-- A run is no longer than the measure of its first state. -/
theorem length_le (hI : ∀ s e t, I s → step s e t → I t)
    (hdec : ∀ s e t, I s → step s e t → μ t < μ s) (h : Run step s es t) (hs : I s) :
    es.length + μ t ≤ μ s := by
  induction h with
  | nil => simp
  | snoc hrun hlast ih =>
      have hlt := hdec _ _ _ (hrun.invariant hI hs) hlast
      rw [List.length_append, List.length_singleton]
      omega

/-- Steps of a kind `p` that raise the measure by at most one each pay for one more step. -/
theorem countP_le {p : ε → Bool} (hI : ∀ s e t, I s → step s e t → I t)
    (hdec : ∀ s e t, I s → step s e t → p e = false → μ t < μ s)
    (hinc : ∀ s e t, I s → step s e t → p e = true → μ t ≤ μ s + 1)
    (h : Run step s es t) (hs : I s) :
    es.countP (fun e ↦ !p e) + μ t ≤ μ s + es.countP p := by
  induction h with
  | nil => simp
  | @snoc t u es e hrun hlast ih =>
      have ht : I t := hrun.invariant hI hs
      rw [List.countP_append, List.countP_append, List.countP_singleton, List.countP_singleton]
      cases he : p e with
      | false =>
          have hlt := hdec _ _ _ ht hlast he
          simp
          omega
      | true =>
          have hle := hinc _ _ _ ht hlast he
          simp
          omega

/-- From every state the system can go on to a final one. -/
theorem exists_final (hI : ∀ s e t, I s → step s e t → I t)
    (hdec : ∀ s e t, I s → step s e t → μ t < μ s)
    (hprog : ∀ s, I s → ¬ final s → ∃ e t, step s e t) (hs : I s) :
    ∃ es t, Run step s es t ∧ final t := by
  induction h : μ s using Nat.strong_induction_on generalizing s with
  | h n ih =>
      by_cases hfinal : final s
      · exact ⟨[], s, Run.nil, hfinal⟩
      · obtain ⟨e, t, hstep⟩ := hprog s hs hfinal
        have hlt : μ t < n := h ▸ hdec s e t hs hstep
        obtain ⟨es, u, hrun, hu⟩ := ih (μ t) hlt (hI s e t hs hstep) rfl
        exact ⟨e :: es, u, hrun.cons hstep, hu⟩

end SystemProgramming.Run

namespace SystemProgramming

/-! ## Threads that sleep

One unit of work is worth more than a change of all threads from asleep to awake. -/

variable {ι : Type*} [Fintype ι] {work work' : ι → ℕ} {awake awake' : ι → Bool} {t : ι}

def workload (work : ι → ℕ) (awake : ι → Bool) : ℕ :=
  (∑ t, work t) * (Fintype.card ι + 1) + (Finset.univ.filter fun t ↦ awake t).card

theorem workload_lt_of_work (hle : ∀ u, work' u ≤ work u) (hlt : work' t < work t) :
    workload work' awake' < workload work awake := by
  have hsum : ∑ u, work' u < ∑ u, work u :=
    Finset.sum_lt_sum (fun u _ ↦ hle u) ⟨t, Finset.mem_univ t, hlt⟩
  have hcard : (Finset.univ.filter fun t ↦ awake' t).card ≤ Fintype.card ι :=
    Finset.card_le_univ _
  calc
    workload work' awake' < (∑ u, work' u) * (Fintype.card ι + 1) + (Fintype.card ι + 1) := by
      apply Nat.add_lt_add_left
      exact Nat.lt_succ_of_le hcard
    _ = (∑ u, work' u + 1) * (Fintype.card ι + 1) := by ring
    _ ≤ (∑ u, work u) * (Fintype.card ι + 1) := Nat.mul_le_mul_right _ hsum
    _ ≤ workload work awake := Nat.le_add_right _ _

theorem workload_lt_of_sleep (hwork : ∀ u, work' u = work u) (hawake : awake t = true)
    (hasleep : awake' t = false) (hle : ∀ u, awake' u = true → awake u = true) :
    workload work' awake' < workload work awake := by
  rw [workload, workload, Finset.sum_congr rfl fun u _ ↦ hwork u]
  apply Nat.add_lt_add_left
  apply Finset.card_lt_card
  refine ⟨fun u hu ↦ ?_, fun hsub ↦ ?_⟩
  · simpa using hle u (by simpa using hu)
  · have ht := hsub (Finset.mem_filter.mpr ⟨Finset.mem_univ t, hawake⟩)
    simp [hasleep] at ht

theorem workload_le_of_wake [DecidableEq ι] (hwork : ∀ u, work' u = work u)
    (hle : ∀ u, u ≠ t → awake' u = true → awake u = true) :
    workload work' awake' ≤ workload work awake + 1 := by
  rw [workload, workload, Finset.sum_congr rfl fun u _ ↦ hwork u, add_assoc]
  apply Nat.add_le_add_left
  refine (Finset.card_le_card fun u hu ↦ ?_).trans (Finset.card_insert_le t _)
  rcases eq_or_ne u t with rfl | hne
  · exact Finset.mem_insert_self _ _
  · apply Finset.mem_insert_of_mem
    simpa using hle u hne (by simpa using hu)

/-! ## Calls that make further calls

If each of them does what it should, and they come to an end, then an induction on the calls shows
what the first one does. -/

variable {α : Type*} {calls : α → α → Prop} {good : α → Prop} {a b : α}

/-- A call and all that come about through it are good, and they come to an end. -/
inductive Everywhere (calls : α → α → Prop) (good : α → Prop) : α → Prop
  | intro {a : α} : good a → (∀ b, calls a b → Everywhere calls good b) → Everywhere calls good a

theorem Everywhere.good_of_reaches (h : Everywhere calls good a)
    (hab : Relation.ReflTransGen calls a b) : good b := by
  induction hab using Relation.ReflTransGen.head_induction_on with
  | refl =>
      obtain ⟨hgood, -⟩ := h
      exact hgood
  | head hcall _ ih =>
      obtain ⟨-, hcalls⟩ := h
      exact ih (hcalls _ hcall)

theorem Everywhere.acc (h : Everywhere calls good a) : Acc (flip calls) a := by
  induction h with
  | intro _ _ ih => exact Acc.intro _ fun b hcall ↦ ih b hcall

theorem Everywhere.of_acc (h : Acc (flip calls) a)
    (hgood : ∀ b, Relation.ReflTransGen calls a b → good b) : Everywhere calls good a := by
  induction h with
  | intro a _ ih =>
      refine .intro (hgood a .refl) fun b hcall ↦ ih b hcall fun c hc ↦ hgood c ?_
      exact .head hcall hc

theorem everywhere_iff : Everywhere calls good a ↔
    (∀ b, Relation.ReflTransGen calls a b → good b) ∧ Acc (flip calls) a :=
  ⟨fun h ↦ ⟨fun _ hb ↦ h.good_of_reaches hb, h.acc⟩, fun h ↦ .of_acc h.2 h.1⟩

end SystemProgramming
