import SystemProgramming.Shell.Outcome
import SystemProgramming.Shell.History

/-!
# Which redirection is read

The operators are searched for in a fixed order, and each of them in the whole command.
-/

namespace SystemProgramming.Shell

/-- What `classify` finds in the record, and what is left of the command.  The field `type` is only
set with an operator. -/
def redirectionOf (zeroed : Bool) (cmd : Str) : Result (Option Redirection × Str) :=
  match redirect cmd with
  | some info => .ok (some info, info.cmd)
  | none => if zeroed then .ok (none, cmd) else .error .undefined

/-! ## The first operator -/

def isOperator (c : Char) : Bool := c = '>' ∨ c = '<'

/-- The text in front of the first operator, and the text from there on. -/
def front (cmd : Str) : Str := cmd.takeWhile fun c ↦ !isOperator c

def behind (cmd : Str) : Str := cmd.dropWhile fun c ↦ !isOperator c

/-- The redirection that begins where the first operator stands. -/
def firstRedirection (cmd : Str) : Option Redirection :=
  match behind cmd with
  | [] => none
  | '<' :: rest => some ⟨['<'], front cmd, rest.dropWhile isspace⟩
  | _ :: '>' :: rest => some ⟨['>', '>'], front cmd, rest.dropWhile isspace⟩
  | _ :: rest => some ⟨['>'], front cmd, rest.dropWhile isspace⟩

/-- The first operator is the one that is found, or there is none and the record is known. -/
def Found (zeroed : Bool) (cmd : Str) : Prop :=
  match firstRedirection cmd with
  | none => zeroed
  | some info => info.type = ['>'] ∨ info.type = ['<'] ∧ '>' ∉ cmd

variable {W : Type} {E : System W} {rerun : State W → ℕ → Result (State W)} {s : State W}
  {ref : Option ℕ} {cmd before rest : Str} {c : Char} {zeroed : Bool}

/-- `classify` works with what has been read. -/
theorem classify_eq_redirectionOf :
    classify E rerun s ref cmd = redirectionOf (E.blank s.world) cmd >>= fun r ↦
      dispatch E rerun (s.prepared ref cmd) r.1 (trim r.2) >>= fun t ↦
        pure (t.1, trim r.2, t.2) := by
  unfold classify redirectionOf State.prepared
  cases redirect cmd with
  | some info => rfl
  | none =>
      dsimp only
      split <;> rfl

/-! ## What is found -/

theorem front_append_behind (cmd : Str) : front cmd ++ behind cmd = cmd :=
  List.takeWhile_append_dropWhile

theorem not_mem_front (h : isOperator c) : c ∉ front cmd := by
  intro hmem
  have hnot := List.mem_takeWhile_imp hmem
  rw [h] at hnot
  cases hnot

theorem isOperator_of_behind (h : behind cmd = c :: rest) : c = '>' ∨ c = '<' := by
  have hne : behind cmd ≠ [] := h ▸ List.cons_ne_nil c rest
  have hhead : (!isOperator ((behind cmd).head hne)) = false :=
    List.head_dropWhile_not (fun c ↦ !isOperator c) hne
  simp only [h, List.head_cons, Bool.not_eq_false'] at hhead
  exact of_decide_eq_true hhead

theorem strstr_singleton (h : c ∉ before) : strstr [c] (before ++ c :: rest) = some (before, rest) := by
  have hword : ¬ List.replicate (0 + 1) c <:+: before := by
    intro hin
    exact h (hin.subset List.mem_cons_self)
  have hlast : before.getLast? ≠ some c := fun hlast ↦ h (List.mem_of_getLast? hlast)
  have hfound := @strstr_replicate _ before rest c _ 0 hword hlast
  rwa [List.append_assoc] at hfound

theorem isSome_strstr_singleton : (strstr [c] cmd).isSome ↔ c ∈ cmd := by
  rw [isSome_strstr_iff, List.singleton_infix_iff]

theorem redirector_of_greater (h : '>' ∈ cmd) : redirector cmd = some ['>'] := by
  rw [redirector, if_pos (isSome_strstr_singleton.mpr h)]

/-- Where there is no `>`, there is no `>>`. -/
theorem redirector_of_not_greater (h : '>' ∉ cmd) :
    redirector cmd = if '<' ∈ cmd then some ['<'] else none := by
  have hdouble : ¬ (strstr ['>', '>'] cmd).isSome := by
    rw [isSome_strstr_iff]
    intro hin
    exact h (hin.subset List.mem_cons_self)
  rw [redirector, if_neg (fun hsome ↦ h (isSome_strstr_singleton.mp hsome)), if_neg hdouble]
  simp only [isSome_strstr_singleton]

/-- The redirection at the first `>`, wherever a `<` stands. -/
theorem redirect_greater (h : '>' ∉ before) :
    redirect (before ++ '>' :: rest) = some ⟨['>'], before, rest.dropWhile isspace⟩ := by
  have hmem : '>' ∈ before ++ '>' :: rest := List.mem_append_right _ List.mem_cons_self
  rw [redirect, redirector_of_greater hmem, Option.bind_eq_bind, Option.bind_some,
    strstr_singleton h]
  rfl

theorem redirect_less (h : '<' ∉ before) (hgreater : '>' ∉ before ++ '<' :: rest) :
    redirect (before ++ '<' :: rest) = some ⟨['<'], before, rest.dropWhile isspace⟩ := by
  have hmem : '<' ∈ before ++ '<' :: rest := List.mem_append_right _ List.mem_cons_self
  rw [redirect, redirector_of_not_greater hgreater, if_pos hmem, Option.bind_eq_bind,
    Option.bind_some, strstr_singleton h]
  rfl

/-! ## The redirection that is read -/

theorem type_of_greater {info : Redirection} (h : '>' ∈ cmd) (hinfo : redirect cmd = some info) :
    info.type = ['>'] := by
  rw [redirect, redirector_of_greater h, Option.bind_eq_bind, Option.bind_some] at hinfo
  obtain ⟨⟨first, second⟩, -, heq⟩ := Option.bind_eq_some_iff.mp hinfo
  cases heq
  rfl

theorem redirectionOf_eq {info : Redirection} (h : redirect cmd = some info) :
    redirectionOf zeroed cmd = .ok (some info, info.cmd) := by
  rw [redirectionOf, h]

theorem redirectionOf_ne {info : Redirection} (h : redirect cmd = some info)
    {expected : Redirection} (hne : info.type ≠ expected.type) {left : Str} :
    redirectionOf zeroed cmd ≠ .ok (some expected, left) := by
  rw [redirectionOf_eq h]
  intro heq
  cases heq
  exact hne rfl

theorem firstRedirection_of_nil (h : behind cmd = []) : firstRedirection cmd = none := by
  rw [firstRedirection, h]

theorem firstRedirection_of_less (h : behind cmd = '<' :: rest) :
    firstRedirection cmd = some ⟨['<'], front cmd, rest.dropWhile isspace⟩ := by
  rw [firstRedirection, h]
  rfl

theorem firstRedirection_of_double (h : behind cmd = '>' :: '>' :: rest) :
    firstRedirection cmd = some ⟨['>', '>'], front cmd, rest.dropWhile isspace⟩ := by
  rw [firstRedirection, h]
  rfl

theorem firstRedirection_of_single (h : behind cmd = '>' :: rest) (hrest : rest.head? ≠ some '>') :
    firstRedirection cmd = some ⟨['>'], front cmd, rest.dropWhile isspace⟩ := by
  rw [firstRedirection, h]
  split
  · next heq => cases heq
  · next heq => cases heq
  · next heq =>
    cases heq
    exact absurd rfl hrest
  · next heq =>
    cases heq
    rfl

/-- The redirection at the first operator is read exactly if that is `>`, or it is `<` without any
`>` behind it, or there is no operator and the record holds zeros. -/
theorem redirectionOf_iff :
    redirectionOf zeroed cmd =
      .ok (firstRedirection cmd, (firstRedirection cmd).elim cmd Redirection.cmd) ↔
      Found zeroed cmd := by
  have hcmd := front_append_behind cmd
  have hgreater : '>' ∉ front cmd := not_mem_front rfl
  have hless : '<' ∉ front cmd := not_mem_front rfl
  rw [Found]
  rcases hbehind : behind cmd with _ | ⟨c, rest⟩
  · rw [hbehind, List.append_nil] at hcmd
    rw [hcmd] at hgreater hless
    have hnone : redirect cmd = none := by
      rw [redirect_eq_none_iff, redirector_of_not_greater hgreater, if_neg hless]
    rw [firstRedirection_of_nil hbehind, redirectionOf, hnone]
    cases zeroed <;> simp
  rw [hbehind] at hcmd
  rcases isOperator_of_behind hbehind with rfl | rfl
  · have hinfo : redirect cmd = some ⟨['>'], front cmd, rest.dropWhile isspace⟩ := by
      rw [← redirect_greater hgreater, hcmd]
    by_cases hrest : rest.head? = some '>'
    · obtain ⟨rest', rfl⟩ := List.head?_eq_some_iff.mp hrest
      rw [firstRedirection_of_double hbehind]
      exact iff_of_false (redirectionOf_ne hinfo (by simp)) (by simp)
    · rw [firstRedirection_of_single hbehind hrest]
      exact iff_of_true (redirectionOf_eq hinfo) (.inl rfl)
  · rw [firstRedirection_of_less hbehind]
    by_cases hmem : '>' ∈ cmd
    · obtain ⟨info, hinfo⟩ : ∃ info, redirect cmd = some info := by
        rw [← Option.ne_none_iff_exists', Ne, redirect_eq_none_iff, redirector_of_greater hmem]
        exact Option.some_ne_none _
      have htype := type_of_greater hmem hinfo
      refine iff_of_false (redirectionOf_ne hinfo ?_) (by simp [hmem])
      simp [htype]
    · have hinfo : redirect cmd = some ⟨['<'], front cmd, rest.dropWhile isspace⟩ := by
        rw [← redirect_less hless (hcmd.symm ▸ hmem), hcmd]
      exact iff_of_true (redirectionOf_eq hinfo) (.inr ⟨rfl, hmem⟩)

/-- `sort < in > out` is cut at its second operator. -/
theorem second_operator_is_found : ¬ ∀ (zeroed : Bool) (cmd : Str), redirectionOf zeroed cmd =
    .ok (firstRedirection cmd, (firstRedirection cmd).elim cmd Redirection.cmd) := by
  intro h
  have hread := h true ['s', 'o', 'r', 't', ' ', '<', ' ', 'i', ' ', '>', ' ', 'o']
  have hfound : redirect ['s', 'o', 'r', 't', ' ', '<', ' ', 'i', ' ', '>', ' ', 'o'] =
      some ⟨['>'], ['s', 'o', 'r', 't', ' ', '<', ' ', 'i', ' '], ['o']⟩ := rfl
  have hfirst : firstRedirection ['s', 'o', 'r', 't', ' ', '<', ' ', 'i', ' ', '>', ' ', 'o'] =
      some ⟨['<'], ['s', 'o', 'r', 't', ' '], ['i', ' ', '>', ' ', 'o']⟩ := rfl
  rw [hfirst] at hread
  exact redirectionOf_ne hfound (by decide) hread

end SystemProgramming.Shell
