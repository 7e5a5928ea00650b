import SystemProgramming.Shell.Outcome

/-!
# More depth

A command that is run with a larger bound on the depth of the recursion comes out the same, unless
it has met the bound before.
-/

namespace SystemProgramming.Shell

variable {α β W : Type} {E : System W} {rerun rerun' : State W → ℕ → Result (State W)}
  {s : State W} {ref : Option ℕ} {cmd : Str} {m n : ℕ}

/-- The second result is the first one, unless the first one hangs. -/
def Deepens (x y : Result α) : Prop := x = .error .hang ∨ x = y

namespace Deepens

variable {x y : Result α} {f g : α → Result β}

theorem refl (x : Result α) : Deepens x x := .inr rfl

theorem bind (h : Deepens x y) (hfg : ∀ a, Deepens (f a) (g a)) :
    Deepens (x >>= f) (y >>= g) := by
  rcases h with rfl | rfl
  · exact .inl rfl
  · cases x with
    | error stop => exact .inr rfl
    | ok a => exact hfg a

theorem bind_right (h : Deepens x y) : Deepens (x >>= f) (y >>= f) := h.bind fun a ↦ .refl (f a)

theorem eq_of_ne (h : Deepens x y) (hne : x ≠ .error .hang) : y = x := (h.resolve_left hne).symm

theorem ok (h : Deepens x y) {a : α} (hx : x = .ok a) : y = .ok a := by
  rw [← hx]
  exact h.eq_of_ne (by simp [hx])

theorem returns (h : Deepens x y) (hx : Returns x) : Returns y := by
  obtain ⟨a, ha⟩ := hx
  exact ⟨a, h.ok ha⟩

end Deepens

section Commands

variable (h : ∀ s i, Deepens (rerun s i) (rerun' s i))

include h

theorem deepens_dispatch {redirection : Option Redirection} :
    Deepens (dispatch E rerun s redirection cmd) (dispatch E rerun' s redirection cmd) := by
  unfold dispatch
  dsimp only
  cases kindOf (sstringSplit ' ' cmd) with
  | number =>
      refine (Deepens.refl _).bind fun action ↦ ?_
      cases action with
      | rerun num => exact (h s num).bind_right
      | invalid => exact .refl _
      | invalidIndex => exact .refl _
  | search =>
      refine (Deepens.refl _).bind fun found ↦ ?_
      cases found with
      | none => exact .refl _
      | some i => exact (h s i).bind_right
  | _ => exact .refl _

theorem deepens_classify : Deepens (classify E rerun s ref cmd) (classify E rerun' s ref cmd) := by
  unfold classify
  split
  · exact (deepens_dispatch h).bind_right
  · split
    · exact (deepens_dispatch h).bind_right
    · exact .refl _

theorem deepens_single : Deepens (single E rerun s ref cmd) (single E rerun' s ref cmd) :=
  (deepens_classify h).bind_right

theorem deepens_commandLine :
    Deepens (commandLine E rerun s ref cmd) (commandLine E rerun' s ref cmd) := by
  unfold commandLine
  split
  · exact .refl _
  split
  · exact (deepens_single h).bind_right
  · split
    · exact .refl _
    · refine (deepens_single h).bind fun r ↦ ?_
      dsimp only
      split
      · exact .refl _
      · exact (deepens_single h).bind_right

theorem deepens_commandWith :
    Deepens (commandWith E rerun s ref cmd) (commandWith E rerun' s ref cmd) := by
  refine (Deepens.refl _).bind fun bg ↦ ?_
  dsimp only
  split <;> exact deepens_commandLine h

end Commands

theorem deepens_rerunWith {run run' : State W → Option ℕ → Str → Result (State W × List Str)}
    (h : ∀ s ref cmd, Deepens (run s ref cmd) (run' s ref cmd)) (s : State W) (i : ℕ) :
    Deepens (rerunWith run s i) (rerunWith run' s i) := by
  unfold rerunWith
  split
  · exact .refl _
  · exact (h _ _ _).bind_right

theorem deepens_command (hle : m ≤ n) (s : State W) (ref : Option ℕ) (cmd : Str) :
    Deepens (command E m s ref cmd) (command E n s ref cmd) := by
  induction m generalizing n s ref cmd with
  | zero => exact .inl rfl
  | succ m ih =>
      obtain ⟨n, rfl⟩ := Nat.exists_eq_add_of_le' (Nat.one_le_of_lt hle)
      exact deepens_commandWith (deepens_rerunWith (ih (Nat.le_of_succ_le_succ hle)))

/-- What is run again comes out the same as well. -/
theorem deepens_again (hle : m ≤ n) (s : State W) (i : ℕ) :
    Deepens (rerunWith (command E m) s i) (rerunWith (command E n) s i) :=
  deepens_rerunWith (deepens_command hle) s i

/-- If a command comes back at one level, then it does so at each level at which it does not
hang. -/
theorem single_functional {r : State W × ℤ}
    (h : single E (rerunWith (command E m)) s ref cmd = .ok r)
    (hne : single E (rerunWith (command E n)) s ref cmd ≠ .error .hang) :
    single E (rerunWith (command E n)) s ref cmd = .ok r := by
  have hm := (deepens_single (deepens_again (le_max_left m n))).ok h
  have hn := (deepens_single (deepens_again (le_max_right m n))).eq_of_ne hne
  exact hn.symm.trans hm

end SystemProgramming.Shell
