import Mathlib

/-!
# Who destroys an object

A trace of constructions, copies and destructions. The objects that have been made and not yet
destroyed are live. A ledger is a trace in which only live objects are copied or destroyed.
-/

namespace SystemProgramming

/-- Objects that were made in the trace, numbered in their order, and others. -/
inductive Object
  | made (k : ℕ)
  | outside (k : ℕ)
deriving DecidableEq

inductive Action
  | construct (k : ℕ)
  | copy (source : Object)
  | destroy (o : Object)
deriving DecidableEq

/-- The object is read or destroyed. -/
def Action.Uses (a : Action) (k : ℕ) : Prop := a = .copy (.made k) ∨ a = .destroy (.made k)

/-- Nothing that was destroyed is used again. -/
def NoUseAfterDestroy (trace : List Action) : Prop :=
  trace.Pairwise fun a b ↦ ∀ k, a = .destroy (.made k) → ¬ b.Uses k

/-- What was made is destroyed exactly once, nothing is used after it was destroyed, and nothing
else is destroyed. -/
structure OwnedTrace (trace : List Action) : Prop where
  once : ∀ k, Action.construct k ∈ trace → trace.count (.destroy (.made k)) = 1
  noUse : NoUseAfterDestroy trace
  outside : ∀ k, Action.destroy (.outside k) ∉ trace

/-- A trace, the live objects, and the number of the next object. -/
inductive Ledger : List Action → List ℕ → ℕ → Prop
  | nil : Ledger [] [] 0
  | construct {trace : List Action} {live : List ℕ} {next : ℕ} :
      Ledger trace live next → Ledger (trace ++ [.construct next]) (next :: live) (next + 1)
  | copyMade {trace : List Action} {live : List ℕ} {next k : ℕ} :
      Ledger trace live next → k ∈ live → Ledger (trace ++ [.copy (.made k)]) live next
  | copyOutside {trace : List Action} {live : List ℕ} {next : ℕ} (k : ℕ) :
      Ledger trace live next → Ledger (trace ++ [.copy (.outside k)]) live next
  | destroy {trace : List Action} {live : List ℕ} {next k : ℕ} :
      Ledger trace (k :: live) next → Ledger (trace ++ [.destroy (.made k)]) live next
  | perm {trace : List Action} {live live' : List ℕ} {next : ℕ} :
      Ledger trace live next → live.Perm live' → Ledger trace live' next

namespace Ledger

variable {trace : List Action} {live : List ℕ} {next k : ℕ}

theorem lt_next (h : Ledger trace live next) : ∀ k ∈ live, k < next := by
  induction h with
  | nil => simp
  | construct _ ih =>
      intro k hk
      rcases List.mem_cons.mp hk with rfl | hk
      · exact Nat.lt_succ_self k
      · exact Nat.lt_succ_of_lt (ih k hk)
  | copyMade _ _ ih => exact ih
  | copyOutside _ _ ih => exact ih
  | destroy _ ih => exact fun k hk ↦ ih k (List.mem_cons_of_mem _ hk)
  | perm _ hperm ih => exact fun k hk ↦ ih k (hperm.mem_iff.mpr hk)

theorem nodup (h : Ledger trace live next) : live.Nodup := by
  induction h with
  | nil => exact List.nodup_nil
  | construct h ih => exact List.nodup_cons.mpr ⟨fun hmem ↦ (h.lt_next _ hmem).false, ih⟩
  | copyMade _ _ ih => exact ih
  | copyOutside _ _ ih => exact ih
  | destroy _ ih => exact (List.nodup_cons.mp ih).2
  | perm _ hperm ih => exact hperm.nodup_iff.mp ih

theorem construct_mem_iff (h : Ledger trace live next) :
    Action.construct k ∈ trace ↔ k < next := by
  induction h with
  | nil => simp
  | construct _ ih =>
      rw [List.mem_append, ih, List.mem_singleton, Action.construct.injEq]
      omega
  | copyMade _ _ ih => simpa using ih
  | copyOutside _ _ ih => simpa using ih
  | destroy _ ih => simpa using ih
  | perm _ _ ih => exact ih

theorem count_destroy (h : Ledger trace live next) (k : ℕ) :
    trace.count (.destroy (.made k)) = if k < next ∧ k ∉ live then 1 else 0 := by
  induction h with
  | nil => simp
  | @construct trace live next h ih =>
      have hne : next ∉ live := fun hmem ↦ (h.lt_next _ hmem).false
      rw [List.count_append, ih, List.count_singleton]
      rcases lt_trichotomy k next with hlt | rfl | hgt
      · simp [hlt, Nat.lt_succ_of_lt hlt, hlt.ne]
      · simp
      · simp [hgt.not_gt, hgt.ne', show ¬ k < next + 1 by omega]
  | copyMade _ _ ih => simpa [List.count_append] using ih
  | copyOutside _ _ ih => simpa [List.count_append] using ih
  | @destroy trace live next k' h ih =>
      have hlt := h.lt_next k' (List.mem_cons_self ..)
      have hnodup := (List.nodup_cons.mp h.nodup).1
      rw [List.count_append, ih, List.count_singleton]
      rcases eq_or_ne k k' with rfl | hne
      · simp [hlt, hnodup]
      · simp [hne, hne.symm]
  | perm _ hperm ih => simpa only [hperm.mem_iff] using ih

/-- A live object has not been destroyed. -/
theorem not_destroyed (h : Ledger trace live next) (hk : k ∈ live) :
    Action.destroy (.made k) ∉ trace := by
  have hcount := h.count_destroy k
  rw [if_neg (by simp [hk])] at hcount
  exact List.count_eq_zero.mp hcount

theorem noUseAfterDestroy (h : Ledger trace live next) : NoUseAfterDestroy trace := by
  have hsnoc : ∀ {trace : List Action} {b : Action}, NoUseAfterDestroy trace →
      (∀ k, b.Uses k → Action.destroy (.made k) ∉ trace) → NoUseAfterDestroy (trace ++ [b]) := by
    intro trace b htrace hb
    apply List.pairwise_append.mpr
    refine ⟨htrace, List.pairwise_singleton _ _, fun a ha b' hb' k hk huses ↦ ?_⟩
    rw [List.mem_singleton.mp hb'] at huses
    exact hb k huses (hk ▸ ha)
  induction h with
  | nil => exact List.Pairwise.nil
  | construct _ ih => exact hsnoc ih fun k huses ↦ by simp [Action.Uses] at huses
  | @copyMade trace live next k h hk ih =>
      refine hsnoc ih fun k' huses ↦ ?_
      obtain rfl : k = k' := by simpa [Action.Uses] using huses
      exact h.not_destroyed hk
  | copyOutside _ _ ih => exact hsnoc ih fun k huses ↦ by simp [Action.Uses] at huses
  | @destroy trace live next k h ih =>
      refine hsnoc ih fun k' huses ↦ ?_
      obtain rfl : k = k' := by simpa [Action.Uses] using huses
      exact h.not_destroyed (List.mem_cons_self ..)
  | perm _ _ ih => exact ih

theorem destroy_outside_notMem (h : Ledger trace live next) (k : ℕ) :
    Action.destroy (.outside k) ∉ trace := by
  induction h with
  | nil => simp
  | construct _ ih => simpa using ih
  | copyMade _ _ ih => simpa using ih
  | copyOutside _ _ ih => simpa using ih
  | destroy _ ih => simpa using ih
  | perm _ _ ih => exact ih

/-- When nothing is live any more, everything has been destroyed once. -/
theorem owned (h : Ledger trace [] next) : OwnedTrace trace := by
  refine ⟨fun k hk ↦ ?_, h.noUseAfterDestroy, h.destroy_outside_notMem⟩
  rw [h.count_destroy, if_pos]
  exact ⟨h.construct_mem_iff.mp hk, List.not_mem_nil⟩

/-! ## Several objects -/

theorem destroyAll {ks : List ℕ} (h : Ledger trace (ks ++ live) next) :
    Ledger (trace ++ ks.map fun k ↦ .destroy (.made k)) live next := by
  induction ks generalizing trace with
  | nil => simpa using h
  | cons k ks ih =>
      have hrest := ih h.destroy
      rwa [List.append_assoc] at hrest

theorem constructAll (h : Ledger trace live next) (n : ℕ) :
    Ledger (trace ++ (List.range' next n).map .construct) (live ++ List.range' next n)
      (next + n) := by
  induction n generalizing trace live next with
  | zero => simpa using h
  | succ n ih =>
      have hrest := ih h.construct
      rw [List.range'_succ, List.map_cons, Nat.add_comm n 1, ← Nat.add_assoc, List.append_cons]
      apply hrest.perm
      rw [List.cons_append]
      exact List.perm_middle.symm

end Ledger

end SystemProgramming
