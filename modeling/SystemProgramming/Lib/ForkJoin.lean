import SystemProgramming.Lib.Termination

/-!
# Fork and join

A main thread starts workers in the order of their numbers and then joins them in that order.
The workers share nothing and end in any order.
-/

namespace SystemProgramming.ForkJoin

variable {α : Type*}

/-- The number of workers that run or have run, the results of those that have ended, and the
results that the main thread has collected. -/
structure State (α : Type*) where
  created : ℕ
  result : ℕ → Option α
  joined : List α

inductive Event
  | create
  | finish (i : ℕ)
  | join

def init : State α := ⟨0, fun _ ↦ none, []⟩

/-- Worker `i` computes `compute i`, if that is defined. -/
inductive Step (workers : ℕ) (compute : ℕ → Option α) : State α → Event → State α → Prop
  | create {s : State α} : s.created < workers →
      Step workers compute s .create { s with created := s.created + 1 }
  | finish {s : State α} {i : ℕ} {a : α} : i < s.created → s.result i = none →
      compute i = some a →
      Step workers compute s (.finish i) { s with result := Function.update s.result i (some a) }
  | join {s : State α} {a : α} : s.created = workers → s.joined.length < workers →
      s.result s.joined.length = some a →
      Step workers compute s .join { s with joined := s.joined ++ [a] }

/-- The main thread has joined every worker. -/
def Done (workers : ℕ) (s : State α) : Prop := s.joined.length = workers

variable {workers : ℕ} {compute : ℕ → Option α} {s t : State α} {e : Event} {es : List Event}

structure Inv (workers : ℕ) (compute : ℕ → Option α) (s : State α) : Prop where
  created_le : s.created ≤ workers
  result_lt : ∀ i a, s.result i = some a → i < s.created
  result_eq : ∀ i a, s.result i = some a → compute i = some a
  joined_le : s.joined.length ≤ workers
  joined_eq : s.joined.map some = (List.range s.joined.length).map compute

theorem inv_init : Inv workers compute init := by
  constructor <;> simp [init]

theorem Inv.step (h : Inv workers compute s) (hstep : Step workers compute s e t) :
    Inv workers compute t := by
  cases hstep with
  | create hlt =>
      refine ⟨hlt, ?_, h.result_eq, h.joined_le, h.joined_eq⟩
      intro i a hi
      exact Nat.lt_succ_of_lt (h.result_lt i a hi)
  | @finish i a hi _ hcompute =>
      refine ⟨h.created_le, ?_, ?_, h.joined_le, h.joined_eq⟩
      · intro j b hj
        rcases eq_or_ne j i with rfl | hne
        · exact hi
        · exact h.result_lt j b (by simpa [hne] using hj)
      · intro j b hj
        rcases eq_or_ne j i with rfl | hne
        · rw [hcompute]
          simpa using hj
        · exact h.result_eq j b (by simpa [hne] using hj)
  | join _ hlt hresult =>
      refine ⟨h.created_le, h.result_lt, h.result_eq, ?_, ?_⟩
      · rw [List.length_append]
        exact hlt
      · rw [List.length_append, List.length_singleton, List.range_succ, List.map_append,
          List.map_append, h.joined_eq, List.map_singleton, List.map_singleton,
          h.result_eq _ _ hresult]

/-- What is left to do: workers to start, to wait for, and to join. -/
def remaining (workers : ℕ) (s : State α) : ℕ :=
  (workers - s.created) + ((Finset.range workers).filter fun i ↦ (s.result i).isNone).card +
    (workers - s.joined.length)

theorem remaining_lt (h : Inv workers compute s) (hstep : Step workers compute s e t) :
    remaining workers t < remaining workers s := by
  cases hstep with
  | create hlt =>
      simp only [remaining]
      omega
  | @finish i a hi hnone _ =>
      have hcard : ((Finset.range workers).filter fun j ↦
          (Function.update s.result i (some a) j).isNone).card <
            ((Finset.range workers).filter fun j ↦ (s.result j).isNone).card := by
        apply Finset.card_lt_card
        apply Finset.ssubset_iff_subset_ne.mpr
        refine ⟨?_, fun heq ↦ ?_⟩
        · intro j hj
          rw [Finset.mem_filter] at hj ⊢
          rcases eq_or_ne j i with rfl | hne
          · simp [hnone, hj.1]
          · simpa [hne] using hj
        · have hmem : i ∈ (Finset.range workers).filter fun j ↦ (s.result j).isNone := by
            simp [hnone, hi.trans_le h.created_le]
          rw [← heq] at hmem
          simp at hmem
      simp only [remaining]
      omega
  | join _ hlt _ =>
      simp only [remaining, List.length_append, List.length_singleton]
      omega

/-- As long as a worker is not joined, something can happen. -/
theorem exists_step (hcompute : ∀ i < workers, (compute i).isSome) (h : Inv workers compute s)
    (hdone : ¬ Done workers s) : ∃ e t, Step workers compute s e t := by
  have hlt : s.joined.length < workers := lt_of_le_of_ne h.joined_le hdone
  rcases h.created_le.lt_or_eq with hcreated | hcreated
  · exact ⟨_, _, .create hcreated⟩
  · cases hresult : s.result s.joined.length with
    | some a => exact ⟨_, _, .join hcreated hlt hresult⟩
    | none =>
        obtain ⟨a, ha⟩ := Option.isSome_iff_exists.mp (hcompute _ hlt)
        exact ⟨_, _, .finish (hcreated ▸ hlt) hresult ha⟩

theorem inv_of_run (hrun : Run (Step workers compute) init es s) : Inv workers compute s :=
  hrun.invariant (fun _ _ _ h hstep ↦ h.step hstep) inv_init

/-- What is joined does not depend on the order in which the workers end. -/
theorem joined_of_done (hrun : Run (Step workers compute) init es s) (hdone : Done workers s) :
    s.joined.map some = (List.range workers).map compute := by
  have hjoined := (inv_of_run hrun).joined_eq
  rwa [hdone] at hjoined

/-- Every schedule ends, and none gets stuck before all workers are joined. -/
theorem exists_done (hcompute : ∀ i < workers, (compute i).isSome)
    (hrun : Run (Step workers compute) init es s) :
    es.length ≤ 3 * workers ∧ ∃ es' t, Run (Step workers compute) s es' t ∧ Done workers t := by
  have hI : ∀ (s : State α) e t, Inv workers compute s → Step workers compute s e t →
      Inv workers compute t := fun _ _ _ h hstep ↦ h.step hstep
  have hdec : ∀ (s : State α) e t, Inv workers compute s → Step workers compute s e t →
      remaining workers t < remaining workers s := fun _ _ _ h hstep ↦ remaining_lt h hstep
  refine ⟨?_, ?_⟩
  · have hlength := hrun.length_le hI hdec inv_init
    have hinit : remaining workers (init : State α) = 3 * workers := by
      simp [remaining, init]
      omega
    omega
  · apply Run.exists_final hI hdec _ (inv_of_run hrun)
    exact fun s h hdone ↦ exists_step hcompute h hdone

end SystemProgramming.ForkJoin
