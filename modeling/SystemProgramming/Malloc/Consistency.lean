import SystemProgramming.Malloc.Reachable

/-!
# Free lists and payloads

The lists and the payloads are right in every run whose requests fit.  A sweep that merges a
block out of its class breaks the lists, and a later sweep then gives a block away that is in use.
-/

namespace SystemProgramming.Malloc

/-- Free lists in every run whose requests fit. -/
theorem free_lists_consistent {base : ℕ} {mem : Bytes} {calls : List (Call × Answers)} {s : System}
    (hpos : 0 < base) (hlt : base < 2 ^ 63)
    (hrun : Run (Guarded (StepOf System.exec) System.Ok) (System.init base mem) calls s) :
    s.heap.ListsConsistent base ∧ ∀ e, s.Ok e → ∃ t, s.exec e = some t := by
  obtain ⟨blocks, lists, hs⟩ := System.Inv.run hpos hlt hrun
  refine ⟨hs.heap.listsConsistent, fun e hok ↦ ?_⟩
  obtain ⟨t, -, -, heq, -⟩ := hs.exec hok
  exact ⟨t, heq⟩

theorem free_lists_consistent_reusing : ∃ s,
    Run (Guarded (StepOf System.exec) System.Ok) (System.init 64 fun _ ↦ 0) reusingCalls s ∧
      s.heap.ListsConsistent 64 := by
  have hsome : (execute (guarded System.exec System.Ok) (System.init 64 fun _ ↦ 0)
      reusingCalls).isSome = true := by decide +kernel
  obtain ⟨s, hs⟩ := Option.isSome_iff_exists.mp hsome
  have hrun := Run.execute_guarded_eq_some_iff.mp hs
  exact ⟨s, hrun, (free_lists_consistent (by decide) (by decide) hrun).1⟩

/-- Seven requests of class 15 lead to a sweep.  At that time the list of the class holds the
first block, and a small free block lies behind it. -/
def mergingCalls : List (Call × Answers) :=
  List.replicate 5 (.malloc 262144, granting false) ++
    [(.malloc 262144, granting true), (.malloc 8, granting true), (.free (some 96), granting true),
      (.free (some 262272), granting true), (.malloc 131073, granting true)]

/-- Requests of class 15 up to the next sweep. -/
def refusedCalls : List (Call × Answers) := List.replicate 7 (.malloc 262144, granting false)

set_option maxRecDepth 100000 in
/-- The merged block leaves class 15 and stays at the head of its list.  It is given back, the
next request gets it anew, and the next sweep gives it back a second time. -/
theorem mergingCalls_result :
    ((execute (guarded System.exec System.NoWrap) (System.init 64 fun _ ↦ 0) mergingCalls).any
      fun s ↦ decide (s.heap.freeListHead 15 = some 64 ∧ (s.heap.header 64).free = 0) &&
        (execute (guarded System.exec System.NoWrap) s refusedCalls).any
          fun t ↦ decide (t.heap.top = 64 ∧ t.live 96 = some 131073)) = true := by
  decide +kernel

theorem mergingCalls_run : ∃ s t,
    Run (Guarded (StepOf System.exec) System.NoWrap) (System.init 64 fun _ ↦ 0) mergingCalls s ∧
      s.heap.freeListHead 15 = some 64 ∧ (s.heap.header 64).free = 0 ∧
      Run (Guarded (StepOf System.exec) System.NoWrap) (System.init 64 fun _ ↦ 0)
        (mergingCalls ++ refusedCalls) t ∧ t.heap.top = 64 ∧ t.live 96 = some 131073 := by
  obtain ⟨s, hs, hrest⟩ := (Option.any_eq_true _ _).mp mergingCalls_result
  obtain ⟨hfacts, hmore⟩ := Bool.and_eq_true_iff.mp hrest
  obtain ⟨hhead, hfree⟩ := of_decide_eq_true hfacts
  obtain ⟨t, ht, hend⟩ := (Option.any_eq_true _ _).mp hmore
  obtain ⟨htop, hlive⟩ := of_decide_eq_true hend
  have hrun := Run.execute_guarded_eq_some_iff.mp hs
  exact ⟨s, t, hrun, hhead, hfree, hrun.append (Run.execute_guarded_eq_some_iff.mp ht), htop, hlive⟩

theorem free_list_holds_used_block : ¬ ∀ calls s,
    Run (Guarded (StepOf System.exec) System.NoWrap) (System.init 64 fun _ ↦ 0) calls s →
      s.heap.ListsConsistent 64 := by
  intro hall
  obtain ⟨s, -, hrun, hhead, hfree, -⟩ := mergingCalls_run
  obtain ⟨blocks, -, hlists⟩ := hall mergingCalls s hrun
  obtain ⟨l, hlinked, -, hmem⟩ := hlists 15 (by decide)
  rw [Heap.IsList, hhead] at hlinked
  have hone := ((hmem 64).mp (List.mem_of_mem_head? hlinked.head?_eq.symm)).2.1
  rw [hfree] at hone
  exact absurd hone (by decide)

/-- Payloads in every run whose requests fit. -/
theorem live_payloads_separate {base : ℕ} {mem : Bytes} {calls : List (Call × Answers)} {s : System}
    (hpos : 0 < base) (hlt : base < 2 ^ 63)
    (hrun : Run (Guarded (StepOf System.exec) System.Ok) (System.init base mem) calls s) :
    s.PayloadsSeparate base := by
  obtain ⟨blocks, lists, hs⟩ := System.Inv.run hpos hlt hrun
  exact hs.payloadsSeparate

theorem live_payloads_separate_reusing : ∃ s,
    Run (Guarded (StepOf System.exec) System.Ok) (System.init 64 fun _ ↦ 0) reusingCalls s ∧
      s.live 96 = some 6 ∧ s.PayloadsSeparate 64 := by
  have hsome : ((execute (guarded System.exec System.Ok) (System.init 64 fun _ ↦ 0)
      reusingCalls).any fun s ↦ decide (s.live 96 = some 6)) = true := by decide +kernel
  obtain ⟨s, hs, hlive⟩ := (Option.any_eq_true _ _).mp hsome
  have hrun := Run.execute_guarded_eq_some_iff.mp hs
  exact ⟨s, hrun, of_decide_eq_true hlive, live_payloads_separate (by decide) (by decide) hrun⟩

theorem live_payload_above_break : ¬ ∀ calls s,
    Run (Guarded (StepOf System.exec) System.NoWrap) (System.init 64 fun _ ↦ 0) calls s →
      s.PayloadsSeparate 64 := by
  intro hall
  obtain ⟨-, t, -, -, -, hrun, htop, hlive⟩ := mergingCalls_run
  obtain ⟨blocks, htiles, hlies, -⟩ := hall _ t hrun
  obtain ⟨h, hh, -, hle⟩ := hlies 96 131073 hlive
  have hbounds := (htiles.bounds hh).2
  omega

end SystemProgramming.Malloc
