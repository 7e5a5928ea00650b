import SystemProgramming.Shell.Depth
import SystemProgramming.Shell.History

/-!
# The logical operators

A line with two commands is cut at its operator.  The second command is run as the operator
says exactly if the first one does not end the shell, an external command that decides about
the second one exits with 0, and the second one does not end the shell.
-/

namespace SystemProgramming.Shell

variable {W : Type} {E : System W} {rerun : State W → ℕ → Result (State W)}
  {s t : State W} {ref : Option ℕ} {cmd A B : Str} {ran : List Str} {fuel : ℕ} {k : ℤ}
  {op : Operator}

/-! ## Where a line is cut -/

namespace Operator

/-- The character that the operator consists of. -/
def sign : Operator → Char
  | and => '&'
  | or => '|'
  | seq => ';'

theorem exists_text_eq (op : Operator) : ∃ n, op.text = List.replicate (n + 1) op.sign := by
  cases op with
  | and => exact ⟨1, rfl⟩
  | or => exact ⟨1, rfl⟩
  | seq => exact ⟨0, rfl⟩

theorem text_ne_nil (op : Operator) : op.text ≠ [] := by
  cases op <;> decide

/-- Whether the second command is to be run. -/
def Runs : Operator → Prop → Prop
  | and, done => done
  | or, done => ¬ done
  | seq, _ => True

/-- The second command is run exactly if it is to be run. -/
def Obeyed (op : Operator) (done : Prop) (B : Str) (ran : List Str) : Prop :=
  op.Runs done ∧ ran = [B] ∨ ¬ op.Runs done ∧ ran = []

/-- The result 0 stands for a built-in command that failed. -/
theorem skips_iff {external done : Prop} (hk : k = 0 ↔ ¬ external ∧ ¬ done) :
    (op = .and ∧ k = 0 ∨ op = .or ∧ k ≠ 0 ↔ ¬ op.Runs done) ↔ (op ≠ .seq → external → done) := by
  cases op with
  | and => simp [Runs, hk]; tauto
  | or => simp [Runs, hk]; tauto
  | seq => simp [Runs]

end Operator

theorem logical_eq_none_iff : logical cmd = none ↔ ∀ op : Operator, ¬ op.text <:+: cmd := by
  unfold logical
  simp only [isSome_strstr_iff]
  constructor
  · intro h
    split_ifs at h with hand hor hseq
    rintro (_ | _ | _)
    · exact hand
    · exact hor
    · exact hseq
  · intro h
    rw [if_neg (h .and), if_neg (h .or), if_neg (h .seq)]

theorem infix_line_iff {op' : Operator} (hne : op' ≠ op) :
    op'.text <:+: A ++ op.text ++ B ↔ op'.text <:+: A ∨ op'.text <:+: B := by
  refine infix_append_append_iff op.text_ne_nil ?_
  cases op <;> cases op' <;> first | exact absurd rfl hne | simp [Operator.text]

section Cut

variable (hA : logical A = none) (hlast : A.getLast? ≠ some op.sign)

include hA in
theorem logical_line (hB : logical B = none) : logical (A ++ op.text ++ B) = some op := by
  have hself : op.text <:+: A ++ op.text ++ B := ⟨A, B, rfl⟩
  have hother (op' : Operator) (hne : op' ≠ op) : ¬ op'.text <:+: A ++ op.text ++ B := by
    rw [infix_line_iff hne]
    exact not_or.mpr ⟨logical_eq_none_iff.mp hA op', logical_eq_none_iff.mp hB op'⟩
  unfold logical
  simp only [isSome_strstr_iff]
  cases op with
  | and => rw [if_pos hself]
  | or => rw [if_neg (hother .and (by decide)), if_pos hself]
  | seq => rw [if_neg (hother .and (by decide)), if_neg (hother .or (by decide)), if_pos hself]

include hA hlast in
theorem strstr_line : strstr op.text (A ++ op.text ++ B) = some (A, B) := by
  obtain ⟨n, hn⟩ := op.exists_text_eq
  have hnot := logical_eq_none_iff.mp hA op
  rw [hn] at hnot ⊢
  exact strstr_replicate hnot hlast

end Cut

/-- The first of the commands that are run is what stands in front of an operator. -/
theorem commandLine_head (h : commandLine E rerun s ref cmd = .ok (t, A :: ran)) :
    cmd = A ∨ ∃ op : Operator, ∃ rest, cmd = A ++ op.text ++ rest := by
  unfold commandLine at h
  split at h
  · cases h
  split at h
  · obtain ⟨⟨u, k⟩, -, h⟩ := bind_eq_ok_iff.mp h
    cases h
    exact Or.inl rfl
  · rename_i op _
    split at h
    · cases h
    · rename_i cmd₁ cmd₂ hcut
      obtain ⟨⟨u, k⟩, -, h⟩ := bind_eq_ok_iff.mp h
      dsimp only at h
      have hhead : cmd₁ = A := by
        split at h
        · cases h
          rfl
        · obtain ⟨⟨v, k'⟩, -, h⟩ := bind_eq_ok_iff.mp h
          cases h
          rfl
      exact Or.inr ⟨op, cmd₂, hhead ▸ strstr_eq_some hcut⟩

/-! ## The two commands -/

/-- The condition on the two commands, where `s` is the state in which the first one is
dispatched, `again` tells which lines can be run again and `after` is the state behind the first
command. -/
structure Orderly (E : System W) (again : State W → ℕ → Prop) (after : State W → Prop)
    (op : Operator) (s : State W) (A B : Str) : Prop where
  first : Continues E again s A
  status : op ≠ .seq → kindOf (words A) = .external → Succeeds E s A
  second : op.Runs (Succeeds E s A) → ∀ t, after t → Continues E again t B

theorem State.prepared_none (s : State W) (cmd : Str) : s.prepared none cmd = s := by
  unfold prepared
  split
  · rfl
  · rfl

section Core

variable (hA : logical A = none) (hB : logical B = none) (hlast : A.getLast? ≠ some op.sign)

include hA hB hlast

theorem commandLine_line_ok_iff : commandLine E rerun s ref (A ++ op.text ++ B) = .ok (t, ran) ↔
    ∃ v k, single E rerun (s.edit ref (List.take A.length)) ref A = .ok (v, k) ∧
      if op = .and ∧ k = 0 ∨ op = .or ∧ k ≠ 0 then t = v ∧ ran = [A]
      else ran = [A, B] ∧ ∃ k', single E rerun v none B = .ok (t, k') := by
  have hnewline : A ++ op.text ++ B ≠ ['\n'] := by
    intro h
    have hmem : op.sign ∈ A ++ op.text ++ B := by
      obtain ⟨n, hn⟩ := op.exists_text_eq
      simp [hn]
    rw [h, List.mem_singleton] at hmem
    cases op <;> cases hmem
  unfold commandLine
  rw [if_neg hnewline, logical_line hA hB]
  dsimp only
  rw [strstr_line hA hlast]
  dsimp only
  rw [bind_eq_ok_iff, Prod.exists]
  refine exists_congr fun v ↦ exists_congr fun k ↦ and_congr_right fun _ ↦ ?_
  dsimp only
  split
  · simp [pure, Except.pure, eq_comm]
  · rw [bind_eq_ok_iff, Prod.exists]
    constructor
    · rintro ⟨t', k', hsecond, hpure⟩
      cases hpure
      exact ⟨rfl, k', hsecond⟩
    · rintro ⟨rfl, k', hsecond⟩
      exact ⟨t, k', hsecond, rfl⟩

/-- At a fixed depth of the recursion. -/
theorem commandLine_obeyed_iff {u : State W} (hu : s.edit ref (List.take A.length) = u) :
    (∃ t ran, commandLine E rerun s ref (A ++ op.text ++ B) = .ok (t, A :: ran) ∧
      op.Obeyed (Succeeds E (u.prepared ref A) A) B ran) ↔
      Orderly E (fun s i ↦ Returns (rerun s i))
        (fun t ↦ ∃ k, single E rerun u ref A = .ok (t, k)) op (u.prepared ref A) A B := by
  simp only [commandLine_line_ok_iff hA hB hlast, hu]
  set done := Succeeds E (u.prepared ref A) A with hdone
  by_cases hfirst : Returns (single E rerun u ref A)
  · obtain ⟨⟨v, k⟩, hrun⟩ := hfirst
    have hskip : _ ↔ (op ≠ .seq → _ → done) := Operator.skips_iff (single_result hrun)
    have hsecond : Returns (single E rerun v none B) ↔
        Continues E (fun s i ↦ Returns (rerun s i)) v B := by
      rw [returns_single_iff, State.prepared_none]
    constructor
    · rintro ⟨t, ran, ⟨v', k', hsingle, hcase⟩, hanswer⟩
      cases hrun.symm.trans hsingle
      have hcontinues := returns_single_iff.mp ⟨(v, k), hrun⟩
      split at hcase
      · rename_i hgo
        have hnot : ¬ op.Runs done := by
          rcases hanswer with ⟨-, rfl⟩ | ⟨hnot, -⟩
          · cases hcase.2
          · exact hnot
        exact ⟨hcontinues, hskip.mp (iff_of_true hgo hnot), fun hruns ↦ absurd hruns hnot⟩
      · rename_i hgo
        obtain ⟨hran, k', hrest⟩ := hcase
        have hruns : op.Runs done := by
          rcases hanswer with ⟨hruns, -⟩ | ⟨-, rfl⟩
          · exact hruns
          · cases hran
        refine ⟨hcontinues, hskip.mp (iff_of_false hgo (not_not_intro hruns)), ?_⟩
        rintro - v' ⟨k', hagain⟩
        cases hrun.symm.trans hagain
        exact hsecond.mp ⟨_, hrest⟩
    · intro h
      have hiff := hskip.mpr h.status
      by_cases hgo : op = .and ∧ k = 0 ∨ op = .or ∧ k ≠ 0
      · refine ⟨v, [], ⟨v, k, hrun, ?_⟩, Or.inr ⟨hiff.mp hgo, rfl⟩⟩
        rw [if_pos hgo]
        exact ⟨rfl, rfl⟩
      · have hruns : op.Runs done := not_not.mp (mt hiff.mpr hgo)
        obtain ⟨⟨t, k'⟩, hrest⟩ := hsecond.mpr (h.second hruns v ⟨k, hrun⟩)
        refine ⟨t, [B], ⟨v, k, hrun, ?_⟩, Or.inl ⟨hruns, rfl⟩⟩
        rw [if_neg hgo]
        exact ⟨rfl, k', hrest⟩
  · refine iff_of_false ?_ fun h ↦ hfirst (returns_single_iff.mpr h.first)
    rintro ⟨t, ran, ⟨v, k, hsingle, -⟩, -⟩
    exact hfirst ⟨(v, k), hsingle⟩

end Core

/-! ## The background sign at the end of a line -/

def signed (B : Str) : Bool := 2 ≤ B.length ∧ B[B.length - 2]? = some '&'

def unsigned (B : Str) : Str := if signed B then B.take (B.length - 2) else B

/-- The state in which the first command of a line is classified. -/
def State.begun (s : State W) (ref : Option ℕ) (A B : Str) : State W :=
  { s with bg := signed B }.edit ref (List.take A.length)

theorem logical_unsigned (hB : logical B = none) : logical (unsigned B) = none := by
  rw [logical_eq_none_iff] at hB ⊢
  intro op hin
  refine hB op (hin.trans ?_)
  unfold unsigned
  split
  · exact (List.take_prefix _ _).isInfix
  · exact List.infix_rfl

theorem State.edit_take_take {m n : ℕ} (s : State W) (hle : m ≤ n) :
    (s.edit ref (List.take n)).edit ref (List.take m) = s.edit ref (List.take m) := by
  cases ref with
  | none => rfl
  | some i =>
      have hcomp : List.take m ∘ List.take (α := Char) n = List.take m := by
        funext line
        rw [Function.comp_apply, List.take_take, min_eq_left hle]
      simp only [edit, List.modify_modify_eq, hcomp]

theorem getElem?_line (hne : B ≠ []) :
    (A ++ op.text ++ B)[(A ++ op.text ++ B).length - 2]? =
      if 2 ≤ B.length then B[B.length - 2]? else some op.sign := by
  have hpos := List.length_pos_iff.mpr hne
  split
  · have hindex : (A ++ op.text ++ B).length - 2 = (A ++ op.text).length + (B.length - 2) := by
      rw [List.length_append]
      omega
    rw [hindex, List.getElem?_append_right (Nat.le_add_right _ _), Nat.add_sub_cancel_left]
  · have hindex : (A ++ op.text ++ B).length - 2 = (A ++ op.text).length - 1 := by
      rw [List.length_append]
      omega
    have hlt : (A ++ op.text).length - 1 < (A ++ op.text).length := by
      have htext := List.length_pos_iff.mpr op.text_ne_nil
      rw [List.length_append]
      omega
    rw [hindex, List.getElem?_append_left hlt, ← List.getLast?_eq_getElem?,
      List.getLast?_append_of_ne_nil A op.text_ne_nil]
    cases op <;> rfl

theorem background_line (hne : B ≠ []) : background E.front (A ++ op.text ++ B) =
    .ok (if 2 ≤ B.length then B[B.length - 2]? = some '&' else op.sign = '&') := by
  have hlength : 2 ≤ (A ++ op.text ++ B).length := by
    have hpos := List.length_pos_iff.mpr hne
    have htext := List.length_pos_iff.mpr op.text_ne_nil
    rw [List.length_append, List.length_append]
    omega
  unfold background
  rw [if_pos hlength, getElem?_line hne]
  split <;> simp

/-- Behind `&&` one character is not enough. -/
theorem commandWith_line (rerun : State W → ℕ → Result (State W)) (s : State W) (ref : Option ℕ)
    (hne : B ≠ []) (hone : op = .and → B.length ≠ 1) :
    ∃ u : State W, u.edit ref (List.take A.length) = s.begun ref A B ∧
      commandWith E rerun s ref (A ++ op.text ++ B) =
        commandLine E rerun u ref (A ++ op.text ++ unsigned B) := by
  have hpos := List.length_pos_iff.mpr hne
  have hbg : background E.front (A ++ op.text ++ B) = .ok (signed B) := by
    rw [background_line hne]
    by_cases hlength : 2 ≤ B.length
    · simp [signed, hlength]
    · have hsign : op.sign ≠ '&' := by
        cases op with
        | and => exact absurd (by omega) (hone rfl)
        | or => decide
        | seq => decide
      simp [signed, hlength, hsign]
  unfold commandWith
  rw [hbg]
  by_cases hsigned : signed B = true
  · have hlength : 2 ≤ B.length := by
      simp only [signed, Bool.decide_and, Bool.and_eq_true, decide_eq_true_eq] at hsigned
      exact hsigned.1
    have hline : 2 ≤ (A ++ op.text ++ B).length := by
      rw [List.length_append]
      omega
    have hcut : (A ++ op.text ++ B).length - 2 = (A ++ op.text).length + (B.length - 2) := by
      rw [List.length_append]
      omega
    refine ⟨({ s with bg := signed B } : State W).edit ref (List.take ((A ++ op.text ++ B).length - 2)),
      State.edit_take_take _ ?_, ?_⟩
    · rw [hcut, List.length_append]
      omega
    · change (if signed B = true ∧ 2 ≤ (A ++ op.text ++ B).length then _ else _) = _
      rw [if_pos ⟨hsigned, hline⟩, hcut, List.take_length_add_append, unsigned, if_pos hsigned]
  · refine ⟨{ s with bg := signed B }, rfl, ?_⟩
    change (if signed B = true ∧ 2 ≤ (A ++ op.text ++ B).length then _ else _) = _
    rw [if_neg fun h ↦ hsigned h.1, unsigned, if_neg hsigned]

/-- The sign of `&&` is taken for the background sign. -/
theorem not_commandWith_line (hlength : B.length = 1) :
    commandWith E rerun s ref (A ++ Operator.and.text ++ B) ≠ .ok (t, A :: ran) := by
  intro h
  have hne : B ≠ [] := List.length_pos_iff.mp (by omega)
  obtain ⟨bg, hbg, h⟩ := bind_eq_ok_iff.mp h
  rw [background_line hne, if_neg (by omega)] at hbg
  obtain rfl : true = bg := by simpa [Operator.sign] using hbg
  have hline : 2 ≤ (A ++ Operator.and.text ++ B).length := by
    rw [List.length_append, List.length_append]
    exact (Nat.le_add_left 2 A.length).trans (Nat.le_add_right _ _)
  have hcut : (A ++ Operator.and.text ++ B).take ((A ++ Operator.and.text ++ B).length - 2) =
      A ++ ['&'] := by
    simp [Operator.text, hlength, List.take_append]
  dsimp only at h
  rw [if_pos ⟨rfl, hline⟩, hcut] at h
  rcases commandLine_head h with heq | ⟨op, rest, heq⟩
  · simp at heq
  · rw [List.append_assoc, List.append_cancel_left_eq] at heq
    cases op <;> cases heq

/-! ## The whole line -/

/-- The line `i` of the history can be run again. -/
def Again (E : System W) (s : State W) (i : ℕ) : Prop :=
  ∃ fuel, Returns (rerunWith (command E fuel) s i)

/-- The shell comes to the state `t` behind the command. -/
def After (E : System W) (s : State W) (ref : Option ℕ) (cmd : Str) (t : State W) : Prop :=
  ∃ fuel k, single E (rerunWith (command E fuel)) s ref cmd = .ok (t, k)

theorem After.functional {u : State W} (h : After E s ref cmd t) (h' : After E s ref cmd u) :
    t = u := by
  obtain ⟨m, k, hm⟩ := h
  obtain ⟨n, k', hn⟩ := h'
  cases (single_functional hm (by simp [hn])).symm.trans hn
  rfl

/-- A command runs at most one line again. -/
theorem Continues.exists_fuel (h : Continues E (Again E) s cmd) : ∃ fuel,
    Continues E (fun s i ↦ Returns (rerunWith (command E fuel) s i)) s cmd := by
  unfold Continues at h ⊢
  obtain ⟨hblank, h⟩ := h
  cases hkind : kindOf (words cmd) <;> simp only [hkind] at h ⊢
  case number =>
    obtain ⟨action, haction, hagain⟩ := h
    cases action with
    | invalid => exact ⟨0, hblank, .invalid, haction, by simp⟩
    | rerun num =>
        obtain ⟨fuel, hreturns⟩ := hagain num rfl
        refine ⟨fuel, hblank, .rerun num, haction, ?_⟩
        rintro _ ⟨⟩
        exact hreturns
    | invalidIndex => exact ⟨0, hblank, .invalidIndex, haction, by simp⟩
  case search =>
    obtain ⟨found, hfound, hagain⟩ := h
    cases found with
    | none => exact ⟨0, hblank, none, hfound, by simp⟩
    | some i =>
        obtain ⟨fuel, hreturns⟩ := hagain i rfl
        refine ⟨fuel, hblank, some i, hfound, ?_⟩
        rintro _ ⟨⟩
        exact hreturns
  all_goals exact ⟨0, hblank, h⟩

/-- The line `A op B` is run as its operator says, and the shell comes back, exactly if `&&` is
followed by more than one character and the two commands are orderly. -/
theorem operator_obeyed_iff (hA : logical A = none) (hB : logical B = none)
    (hlast : A.getLast? ≠ some op.sign) (hne : B ≠ []) :
    (∃ fuel t ran, command E fuel s ref (A ++ op.text ++ B) = .ok (t, A :: ran) ∧
      op.Obeyed (Succeeds E ((s.begun ref A B).prepared ref A) A) (unsigned B) ran) ↔
      (op = .and → B.length ≠ 1) ∧
      Orderly E (Again E) (After E (s.begun ref A B) ref A) op
        ((s.begun ref A B).prepared ref A) A (unsigned B) := by
  have hB' := logical_unsigned hB
  constructor
  · rintro ⟨fuel, t, ran, hrun, hobeyed⟩
    cases fuel with
    | zero => cases hrun
    | succ fuel =>
        have hone : op = .and → B.length ≠ 1 := by
          rintro rfl hlength
          exact not_commandWith_line hlength hrun
        obtain ⟨u, hu, hline⟩ :=
          commandWith_line (E := E) (A := A) (rerunWith (command E fuel)) s ref hne hone
        have horderly := (commandLine_obeyed_iff hA hB' hlast hu).mp
          ⟨t, ran, hline.symm.trans hrun, hobeyed⟩
        refine ⟨hone, horderly.first.mono fun s i hi ↦ ⟨fuel, hi⟩, horderly.status, ?_⟩
        intro hruns v hv
        obtain ⟨⟨v', k⟩, hsingle⟩ := returns_single_iff.mpr horderly.first
        obtain rfl := hv.functional ⟨fuel, k, hsingle⟩
        exact (horderly.second hruns v ⟨k, hsingle⟩).mono fun s i hi ↦ ⟨fuel, hi⟩
  · rintro ⟨hone, horderly⟩
    obtain ⟨m, hfirst⟩ := horderly.first.exists_fuel
    obtain ⟨⟨v, k⟩, hsingle⟩ := returns_single_iff.mpr hfirst
    obtain ⟨n, hsecond⟩ : ∃ n, op.Runs (Succeeds E ((s.begun ref A B).prepared ref A) A) →
        Continues E (fun s i ↦ Returns (rerunWith (command E n) s i)) v (unsigned B) := by
      by_cases hruns : op.Runs (Succeeds E ((s.begun ref A B).prepared ref A) A)
      · obtain ⟨n, hn⟩ := (horderly.second hruns v ⟨m, k, hsingle⟩).exists_fuel
        exact ⟨n, fun _ ↦ hn⟩
      · exact ⟨0, fun h ↦ absurd h hruns⟩
    obtain ⟨u, hu, hline⟩ :=
      commandWith_line (E := E) (A := A) (rerunWith (command E (max m n))) s ref hne hone
    have hsingle' := (deepens_single (deepens_again (le_max_left m n))).ok hsingle
    have hdeep : Orderly E (fun s i ↦ Returns (rerunWith (command E (max m n)) s i))
        (fun t ↦ ∃ k, single E (rerunWith (command E (max m n))) (s.begun ref A B) ref A =
          .ok (t, k)) op ((s.begun ref A B).prepared ref A) A (unsigned B) := by
      refine ⟨?_, horderly.status, ?_⟩
      · exact hfirst.mono fun s i hi ↦ (deepens_again (le_max_left m n) s i).returns hi
      · rintro hruns v' ⟨k', hv'⟩
        cases hsingle'.symm.trans hv'
        exact (hsecond hruns).mono fun s i hi ↦ (deepens_again (le_max_right m n) s i).returns hi
    obtain ⟨t, ran, hrun, hobeyed⟩ := (commandLine_obeyed_iff hA hB' hlast hu).mpr hdeep
    exact ⟨max m n + 1, t, ran, hline.trans hrun, hobeyed⟩

/-- Behind `cd d` that works, `ls` is run. -/
theorem operator_obeyed_iff_cd : ∃ fuel t ran,
    command quietSystem fuel (started []) none
      (['c', 'd', ' ', 'd'] ++ Operator.and.text ++ ['l', 's', '\n']) =
      .ok (t, ['c', 'd', ' ', 'd'] :: ran) ∧
    Operator.and.Obeyed (Succeeds quietSystem (((started []).begun none ['c', 'd', ' ', 'd']
      ['l', 's', '\n']).prepared none ['c', 'd', ' ', 'd']) ['c', 'd', ' ', 'd'])
      (unsigned ['l', 's', '\n']) ran := by
  refine (operator_obeyed_iff (by decide) (by decide) (by decide) (by decide)).mpr
    ⟨by decide, ⟨fun _ ↦ rfl, trivial⟩, ?_, ?_⟩
  · intro _ hkind
    cases hkind
  · intro _ t _
    exact ⟨fun _ ↦ rfl, .exited 0, ⟨2, (), rfl, rfl⟩, Or.inr (Or.inl rfl)⟩

/-- A system whose children all come to one status. -/
def childSystem (status : Status) : System Unit :=
  { quietSystem with run := fun _ _ _ ↦ (some status, ()) }

/-- Behind `false;` nothing is run and the shell ends, and behind a command that was killed `&&`
runs `ls`. -/
theorem status_is_not_told :
    (∀ fuel r, command (childSystem (.exited 1)) fuel (started []) none
      (['f', 'a', 'l', 's', 'e'] ++ Operator.seq.text ++ ['l', 's', '\n']) ≠ .ok r) ∧
    (¬ Succeeds (childSystem .signaled) (started []) ['s', 'h'] ∧
      ∃ t, command (childSystem .signaled) 1 (started []) none
        (['s', 'h'] ++ Operator.and.text ++ ['l', 's', '\n']) =
        .ok (t, [['s', 'h'], ['l', 's', '\n']])) := by
  refine ⟨fun fuel r h ↦ ?_, ?_, _, rfl⟩
  · cases fuel with
    | zero => cases h
    | succ fuel => cases h
  · rintro ⟨pid, world, hfork, hends⟩
    cases hfork
    cases hends

end SystemProgramming.Shell
