import SystemProgramming.Malloc.Merging

/-!
# The searches of `malloc`

First fit takes the first block of the list that is large enough, best fit a smallest one.
Before the search the lists of the two largest classes may be swept.
-/

namespace SystemProgramming.Malloc

namespace Heap

variable {s s' : Heap} {base n size : ℕ} {blocks : List ℕ} {lists : ℕ → List ℕ}

/-- No member of the list is a better fit. -/
structure Best (s : Heap) (size : ℕ) (l : List ℕ) (chosen : Option ℕ) : Prop where
  fits : ∀ c, chosen = some c → c ∈ l ∧ size ≤ (s.header c).size
  least : ∀ h ∈ l, size ≤ (s.header h).size →
    ∃ c, chosen = some c ∧ (s.header c).size ≤ (s.header h).size

theorem best_nil : Best s size [] none :=
  ⟨fun _ h ↦ (Option.some_ne_none _ h.symm).elim, fun _ h ↦ absurd h List.not_mem_nil⟩

/-- The sweep that comes before the search merges no block out of its class. -/
def SweepFits (s : Heap) (size : ℕ) : Prop :=
  getIndex size = 15 → 6 < s.defrag + 1 →
    StaysInClass 15 s.fuel { s with defrag := s.defrag + 1 } (s.freeListHead 15)

instance (s : Heap) (size : ℕ) : Decidable (SweepFits s size) :=
  inferInstanceAs (Decidable (_ → _ → _))

theorem bestFit_some {chosen : Option ℕ} {cur : ℕ} :
    s.bestFit size (n + 1) chosen (some cur) = s.bestFit size n
      (if (s.header cur).free = 1 ∧ size ≤ (s.header cur).size ∧
          ∀ c, chosen = some c → (s.header cur).size < (s.header c).size then some cur else chosen)
      (s.header cur).next := by
  rw [Heap.bestFit.eq_def]
  cases chosen with
  | none =>
    simp only [reduceCtorEq, false_implies, implies_true, and_true]
    split <;> rfl
  | some c =>
    simp only [decide_eq_true_eq, Option.some.injEq, forall_eq']
    split <;> rfl

namespace Inv

/-- The rest of a list. -/
theorem next_eq (hs : Inv base s blocks lists) {i cur : ℕ} {pre post : List ℕ}
    (hl : lists i = pre ++ cur :: post) : (s.header cur).next = post.head? := by
  have hd := hs.linked.linked i
  rw [hl] at hd
  exact hd.next_eq

theorem length_le_fuel (hs : Inv base s blocks lists) (i : ℕ) : (lists i).length ≤ s.fuel := by
  have hsub : (lists i).toFinset ⊆ Finset.range s.fuel := by
    intro h hh
    have hb := hs.bounds (hs.linked.subset i h (List.mem_toFinset.mp hh))
    rw [Finset.mem_range, fuel]
    omega
  have hcard := Finset.card_le_card hsub
  rwa [List.toFinset_card_of_nodup (hs.linked.linked i).nodup, Finset.card_range] at hcard

theorem with_defrag (hs : Inv base s blocks lists) (defrag : ℕ) :
    Inv base { s with defrag } blocks lists :=
  hs.of_header_eq (fun _ _ ↦ rfl) rfl rfl

theorem blockCoalescing (hs : Inv base s blocks lists) {index : ℕ} (ok : Bool)
    (hstay : index = 16 ∨ StaysInClass index s.fuel s (s.freeListHead index)) :
    ∃ s' blocks' lists', s.blockCoalescing index ok = some s' ∧ Inv base s' blocks' lists' ∧
      Keeps ∅ s blocks s' blocks' := by
  have hhead := (hs.linked.linked index).head?_eq
  rw [hhead] at hstay
  rw [Heap.blockCoalescing, hhead]
  have hstart : lists index = [] ++ lists index := rfl
  exact hs.coalesce ok hstart (hs.length_le_fuel index) hstay

/-- The sweep ends, and the blocks of the client stay. -/
theorem sweep (hs : Inv base s blocks lists) (ok : Bool) (hfits : s.SweepFits size) :
    ∃ s' blocks' lists', s.sweep size ok = some s' ∧ Inv base s' blocks' lists' ∧
      Keeps ∅ s blocks s' blocks' := by
  unfold Heap.sweep
  split
  · exact hs.blockCoalescing ok (Or.inl rfl)
  split
  · next hclass =>
    simp only
    have hs₁ := hs.with_defrag (s.defrag + 1)
    have hk₁ : Keeps ∅ s blocks { s with defrag := s.defrag + 1 } blocks :=
      ⟨fun _ hh _ hf ↦ ⟨hh, hf, rfl⟩, fun _ _ _ _ _ _ _ ↦ rfl⟩
    split
    · next hdefrag =>
      obtain ⟨s', blocks', lists', heq, hs', hk'⟩ :=
        hs₁.blockCoalescing ok (Or.inr (hfits hclass hdefrag))
      rw [heq]
      exact ⟨_, blocks', lists', rfl, hs'.with_defrag 0, hk₁.trans ⟨hk'.used, hk'.payload⟩⟩
    · exact ⟨_, blocks, lists, rfl, hs₁, hk₁⟩
  · exact ⟨s, blocks, lists, rfl, hs, .refl _ _ _⟩

theorem firstFit_eq (hs : Inv base s blocks lists) {i : ℕ} {pre l : List ℕ} (hl : lists i = pre ++ l)
    (hn : l.length ≤ n) :
    s.firstFit size n l.head? = some (l.find? fun h ↦ size ≤ (s.header h).size) := by
  induction n generalizing pre l with
  | zero =>
    obtain rfl := List.length_eq_zero_iff.mp (Nat.le_zero.mp hn)
    simp [firstFit]
  | succ n ih =>
    cases l with
    | nil => simp [firstFit]
    | cons cur post =>
      have hone := ((hs.mem_lists i cur).mp (by simp [hl])).2.1
      have hpost : lists i = (pre ++ [cur]) ++ post := by simp [hl]
      rw [List.head?_cons, firstFit, List.find?_cons]
      by_cases hfit : size ≤ (s.header cur).size
      · simp [hone, hfit]
      · have hrest := ih hpost (Nat.le_of_succ_le_succ hn)
        rw [← hs.next_eq hl] at hrest
        simp [hfit, hrest]

/-- The loop of best fit, by induction on the fuel.  The part of the list that it has seen has
no better fit than the chosen block. -/
theorem bestFit (hs : Inv base s blocks lists) {i : ℕ} {pre l : List ℕ} {chosen : Option ℕ}
    (hl : lists i = pre ++ l) (hn : l.length ≤ n) (hbest : Best s size pre chosen) :
    ∃ r, s.bestFit size n chosen l.head? = some r ∧ Best s size (lists i) r := by
  induction n generalizing pre l chosen with
  | zero =>
    obtain rfl := List.length_eq_zero_iff.mp (Nat.le_zero.mp hn)
    rw [List.append_nil] at hl
    exact ⟨chosen, by simp [Heap.bestFit], hl ▸ hbest⟩
  | succ n ih =>
    cases l with
    | nil =>
      rw [List.append_nil] at hl
      exact ⟨chosen, by simp [Heap.bestFit], hl ▸ hbest⟩
    | cons cur post =>
      have hone := ((hs.mem_lists i cur).mp (by simp [hl])).2.1
      have hpost : lists i = (pre ++ [cur]) ++ post := by simp [hl]
      rw [List.head?_cons, bestFit_some, hs.next_eq hl]
      split
      · next hcond =>
        obtain ⟨-, hfit, hbetter⟩ := hcond
        refine ih hpost (Nat.le_of_succ_le_succ hn) ⟨?_, ?_⟩
        · rintro _ ⟨⟩
          exact ⟨by simp, hfit⟩
        · intro h hh hsize
          refine ⟨cur, rfl, ?_⟩
          rcases List.mem_append.mp hh with hh | hh
          · obtain ⟨c, rfl, hc⟩ := hbest.least h hh hsize
            exact (hbetter c rfl).le.trans hc
          · rw [List.mem_singleton.mp hh]
      · next hcond =>
        refine ih hpost (Nat.le_of_succ_le_succ hn) ⟨?_, ?_⟩
        · intro c hc
          exact ⟨List.mem_append_left _ (hbest.fits c hc).1, (hbest.fits c hc).2⟩
        · intro h hh hsize
          rcases List.mem_append.mp hh with hh | hh
          · exact hbest.least h hh hsize
          · obtain rfl := List.mem_singleton.mp hh
            cases chosen with
            | none => exact absurd ⟨hone, hsize, fun _ h ↦ (Option.some_ne_none _ h.symm).elim⟩ hcond
            | some c =>
              refine ⟨c, rfl, ?_⟩
              by_contra hnot
              refine hcond ⟨hone, hsize, ?_⟩
              rintro _ ⟨⟩
              exact Nat.lt_of_not_le hnot

/-- What `malloc` finds in the list of the class. -/
theorem findFit (hs : Inv base s blocks lists) (size : ℕ) :
    ∃ r, s.findFit size = some r ∧
      (getIndex size < SEARCH → r = (lists (getIndex size)).find? fun h ↦ size ≤ (s.header h).size) ∧
      (SEARCH ≤ getIndex size → Best s size (lists (getIndex size)) r) := by
  have hhead := (hs.linked.linked (getIndex size)).head?_eq
  have hfuel := hs.length_le_fuel (getIndex size)
  have hstart : lists (getIndex size) = [] ++ lists (getIndex size) := rfl
  unfold Heap.findFit
  simp only [hhead]
  split
  · next hnone =>
    rw [List.head?_eq_none_iff] at hnone
    rw [hnone]
    exact ⟨none, rfl, fun _ ↦ rfl, fun _ ↦ best_nil⟩
  split
  · next hsearch =>
    obtain ⟨r, hr, hbest⟩ := hs.bestFit hstart hfuel best_nil
    exact ⟨r, hr, fun h ↦ absurd hsearch (Nat.not_le.mpr h), fun _ ↦ hbest⟩
  · next hsearch =>
    exact ⟨_, hs.firstFit_eq hstart hfuel, fun _ ↦ rfl, fun h ↦ absurd h hsearch⟩

end Inv

end Heap

end SystemProgramming.Malloc
