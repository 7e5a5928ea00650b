import Mathlib

/-!
# Waiting in line

Whoever stands in a line waits for all in front.  Altogether the waiting is least when the shorter
ones go first.
-/

namespace SystemProgramming

variable {M : Type*} [AddCommMonoid M] {l l' : List M} {a m : M}

/-- The sum of what each of a line has in front. -/
def totalDelay : List M → M
  | [] => 0
  | a :: l => l.length • a + totalDelay l

theorem totalDelay_append :
    totalDelay (l ++ l') = totalDelay l + l'.length • l.sum + totalDelay l' := by
  induction l with
  | nil => simp [totalDelay]
  | cons a l ih =>
    simp only [List.cons_append, totalDelay, ih, List.length_append, List.sum_cons, add_nsmul,
      nsmul_add]
    abel

theorem totalDelay_concat : totalDelay (l ++ [a]) = totalDelay l + l.sum := by
  rw [totalDelay_append]
  simp [totalDelay]

variable [PartialOrder M] [IsOrderedAddMonoid M]

/-- Nobody loses more than the one that goes to the front saves. -/
theorem totalDelay_front_le (hmin : ∀ a ∈ l, m ≤ a) :
    totalDelay (m :: (l ++ l')) ≤ totalDelay (l ++ m :: l') := by
  have hsum : l.length • m ≤ l.sum := List.card_nsmul_le_sum l m hmin
  calc
    totalDelay (m :: (l ++ l'))
      = l.length • m + (l'.length • m + totalDelay l + l'.length • l.sum + totalDelay l') := by
        rw [totalDelay, List.length_append, totalDelay_append, add_nsmul]
        abel
    _ ≤ l.sum + (l'.length • m + totalDelay l + l'.length • l.sum + totalDelay l') := by
        gcongr
    _ = totalDelay (l ++ m :: l') := by
        rw [totalDelay_append, List.length_cons, succ_nsmul, totalDelay]
        abel

/-- A line in order waits no longer than any other line of the same ones. -/
theorem totalDelay_le_of_pairwise (hsorted : l.Pairwise (· ≤ ·)) (hperm : l.Perm l') :
    totalDelay l ≤ totalDelay l' := by
  induction l generalizing l' with
  | nil => rw [hperm.nil_eq]
  | cons m l ih =>
    obtain ⟨hmin, hsorted⟩ := List.pairwise_cons.mp hsorted
    obtain ⟨before, after, rfl⟩ := List.append_of_mem (hperm.mem_iff.mp List.mem_cons_self)
    have hrest : l.Perm (before ++ after) := (hperm.trans List.perm_middle).cons_inv
    calc
      totalDelay (m :: l) = (before ++ after).length • m + totalDelay l := by
        rw [totalDelay, hrest.length_eq]
      _ ≤ totalDelay (m :: (before ++ after)) := by
        rw [totalDelay]
        gcongr
        exact ih hsorted hrest
      _ ≤ totalDelay (before ++ m :: after) := by
        apply totalDelay_front_le
        intro a ha
        exact hmin a (hrest.mem_iff.mpr (List.mem_append_left _ ha))

end SystemProgramming
