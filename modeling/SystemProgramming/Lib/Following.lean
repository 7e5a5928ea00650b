import Mathlib

/-!
# Following links

A link may be missing. If only finitely many places have a link, then following the links comes to
an end exactly if no place is visited twice.
-/

namespace SystemProgramming

variable {α : Type*}

/-- The place after `n` links. -/
def follow (next : α → Option α) : ℕ → α → Option α
  | 0, a => some a
  | n + 1, a => (next a).bind (follow next n)

/-- No place is visited twice on the way from `a`. -/
def NoRepetition (next : α → Option α) (a : α) : Prop :=
  ∀ m n b, follow next m a = some b → follow next n a = some b → m = n

variable {next next' : α → Option α} {a b c : α} {m n : ℕ}

theorem follow_succ_of_eq_some (h : next a = some b) :
    follow next (n + 1) a = follow next n b := by
  rw [follow, h, Option.bind_some]

theorem follow_add : follow next (m + n) a = (follow next m a).bind (follow next n) := by
  induction m generalizing a with
  | zero => rw [Nat.zero_add, follow, Option.bind_some]
  | succ m ih =>
      rw [Nat.add_right_comm, follow, follow]
      cases next a with
      | none => rfl
      | some b => exact ih

theorem follow_succ : follow next (n + 1) a = (follow next n a).bind next := by
  have hone : follow next 1 = next := by
    funext b
    rw [follow]
    cases next b <;> rfl
  rw [follow_add, hone]

theorem exists_follow_of_succ (h : follow next (n + 1) a = some c) :
    ∃ b, follow next n a = some b ∧ next b = some c := by
  rw [follow_succ] at h
  exact Option.bind_eq_some_iff.mp h

theorem exists_follow_of_le (h : follow next n a = some c) (hmn : m ≤ n) :
    ∃ b, follow next m a = some b := by
  obtain ⟨k, rfl⟩ := Nat.exists_eq_add_of_le hmn
  rw [follow_add] at h
  obtain ⟨b, hb, -⟩ := Option.bind_eq_some_iff.mp h
  exact ⟨b, hb⟩

/-- Links that agree on the way lead the same way. -/
theorem follow_congr (h : ∀ n b, follow next n a = some b → next b = next' b) :
    follow next n a = follow next' n a := by
  induction n with
  | zero => rfl
  | succ n ih =>
      rw [follow_succ, follow_succ, ← ih]
      cases hn : follow next n a with
      | none => rfl
      | some b => exact h n b hn

/-- The last place on a way that ends. -/
theorem exists_last (h : follow next n a = none) :
    ∃ m b, follow next m a = some b ∧ next b = none := by
  induction n with
  | zero => cases h
  | succ n ih =>
      cases hn : follow next n a with
      | none => exact ih hn
      | some b =>
          rw [follow_succ, hn] at h
          exact ⟨n, b, hn, h⟩

/-- There is only one place to stop at. -/
theorem follow_last_unique (hb : follow next m a = some b) (hb' : next b = none)
    (hc : follow next n a = some c) (hc' : next c = none) : b = c := by
  have hle : ∀ {i j x y}, follow next i a = some x → follow next j a = some y → next x = none →
      j ≤ i := by
    intro i j x y hx hy hx'
    by_contra hlt
    obtain ⟨z, hz⟩ := exists_follow_of_le hy (not_le.mp hlt)
    rw [follow_succ, hx, Option.bind_some, hx'] at hz
    cases hz
  have hmn : m = n := le_antisymm (hle hc hb hc') (hle hb hc hb')
  rw [hmn, hc] at hb
  exact (Option.some.inj hb).symm

/-- A round trip can be repeated as often as one likes. -/
theorem follow_mul_of_loop (h : follow next n b = some b) (k : ℕ) :
    follow next (k * n) b = some b := by
  induction k with
  | zero => rw [Nat.zero_mul, follow]
  | succ k ih => rw [Nat.succ_mul, follow_add, ih, Option.bind_some, h]

/-- By repeating the round trip, the way is longer than any number. -/
theorem NoRepetition.of_ends (h : follow next n a = none) : NoRepetition next a := by
  have hlt : ∀ i j b, follow next i a = some b → follow next j a = some b → ¬ i < j := by
    intro i j b hi hj hij
    obtain ⟨d, rfl⟩ := Nat.exists_eq_add_of_lt hij
    have hloop : follow next (d + 1) b = some b := by
      rw [Nat.add_assoc, follow_add, hi] at hj
      exact hj
    have hlong : follow next (i + n * (d + 1)) a = some b := by
      rw [follow_add, hi]
      exact follow_mul_of_loop hloop n
    have hle : n ≤ i + n * (d + 1) := by nlinarith
    obtain ⟨c, hc⟩ := exists_follow_of_le hlong hle
    rw [h] at hc
    cases hc
  intro i j b hi hj
  exact le_antisymm (not_lt.mp (hlt j i b hj hi)) (not_lt.mp (hlt i j b hi hj))

/-- There are too few places with a link for a way without end. -/
theorem NoRepetition.ends (h : NoRepetition next a) (hfinite : {b | next b ≠ none}.Finite) :
    ∃ n, follow next n a = none := by
  by_contra hnot
  have hvisit : ∀ n, ∃ b, follow next n a = some b := fun n ↦
    Option.ne_none_iff_exists'.mp fun hn ↦ hnot ⟨n, hn⟩
  choose place hplace using hvisit
  have hinjective : Function.Injective place := by
    intro m n hmn
    exact h m n (place m) (hplace m) (hmn ▸ hplace n)
  have hlink : ∀ n, place n ∈ {b | next b ≠ none} := by
    intro n hnone
    have hsucc := hplace (n + 1)
    rw [follow_succ, hplace n, Option.bind_some, hnone] at hsucc
    cases hsucc
  exact Set.infinite_of_injective_forall_mem hinjective hlink hfinite

end SystemProgramming
