import SystemProgramming.Shell.Model

/-!
# What happens to the history

A command adds lines to the history and, when it runs a stored line again, writes into that
line.  A stored line survives exactly if none of the functions finds something to cut off.
-/

namespace SystemProgramming.Shell

variable {W : Type} {E : System W} {rerun : State W → ℕ → Result (State W)}
  {s s' t t' : State W} {ref : Option ℕ} {cmd line : Str} {ran : List Str} {i fuel : ℕ} {k : ℤ}

/-! ## Writes into a string -/

/-- A write into a string does not make it longer. -/
def Shrinks (f : Str → Str) : Prop := ∀ text, (f text).length ≤ text.length

theorem shrinks_take (n : ℕ) : Shrinks (List.take n) := fun text ↦ by
  rw [List.length_take]
  exact min_le_right _ _

theorem trim_sublist (cmd : Str) : (trim cmd).Sublist cmd :=
  (List.rdropWhile_prefix _ _).sublist.trans (List.dropWhile_suffix _).sublist

theorem shrinks_trim : Shrinks trim := fun text ↦ (trim_sublist text).length_le

theorem length_trim_lt (h : trim cmd ≠ cmd) : (trim cmd).length < cmd.length :=
  lt_of_le_of_ne (shrinks_trim cmd) fun heq ↦ h ((trim_sublist cmd).eq_of_length heq)

theorem redirect_eq_none_iff : redirect cmd = none ↔ redirector cmd = none := by
  unfold redirect redirector
  split_ifs with h₁ h₂ h₃
  all_goals simp_all [Option.isSome_iff_exists]

theorem length_redirect_lt {info : Redirection} (h : redirect cmd = some info) :
    info.cmd.length < cmd.length := by
  simp only [redirect, Option.bind_eq_bind, Option.bind_eq_some_iff] at h
  obtain ⟨operator, hoperator, ⟨front, behind⟩, hfound, hinfo⟩ := h
  cases hinfo
  refine length_lt_of_strstr ?_ hfound
  unfold redirector at hoperator
  split_ifs at hoperator <;> cases hoperator <;> simp

/-! ## What is kept by the commands -/

/-- A property of the state that depends on the history and on what has been run again, and
that is kept when a line is added or run again. -/
structure Closed (rerun : State W → ℕ → Result (State W)) (I : State W → Prop) : Prop where
  quiet : ∀ s s', s'.cmdHis = s.cmdHis → s'.recalled = s.recalled → I s → I s'
  push : ∀ s cmd, I s → I (s.push cmd)
  rerun : ∀ s i s', I s → rerun s i = .ok s' → I s'

section Closed

variable {I : State W → Prop}

theorem Closed.signalProcess (h : Closed rerun I) {redirection : Option Redirection} {sig : Signal}
    {args : List Str} (hs : I s) (hrun : signalProcess E s redirection sig cmd args = .ok (s', k)) :
    I s' := by
  unfold Shell.signalProcess at hrun
  obtain ⟨t, ht, hrun⟩ := bind_eq_ok_iff.mp hrun
  have hI : I t := by
    unfold setupRedirection at ht
    split at ht
    · cases ht
      exact hs
    · split at ht
      · cases ht
      · cases ht
        exact h.quiet s _ rfl rfl hs
  split at hrun
  · cases hrun
  · split at hrun
    · cases hrun
      exact hI
    · split at hrun
      · cases hrun
      · split at hrun
        · cases hrun
        · cases hrun
          refine h.push _ _ (h.quiet t _ ?_ ?_ hI)
          · split <;> rfl
          · split <;> rfl
  · cases hrun
    exact hI

theorem Closed.dispatch (h : Closed rerun I) {redirection : Option Redirection} (hs : I s)
    (hrun : dispatch E rerun s redirection cmd = .ok (s', k)) : I s' := by
  unfold Shell.dispatch at hrun
  cases hkind : kindOf (sstringSplit ' ' cmd) <;> simp only [hkind] at hrun
  case blank => cases hrun
  case cd =>
    split at hrun
    · split at hrun
      · cases hrun
        exact hs
      · cases hrun
        exact h.push _ _ (h.quiet s _ rfl rfl hs)
    · cases hrun
      exact hs
  case history =>
    split at hrun
    · cases hrun
      exact hs
    · cases hrun
      exact hs
  case number =>
    obtain ⟨action, -, hrun⟩ := bind_eq_ok_iff.mp hrun
    split at hrun
    · cases hrun
      exact hs
    · obtain ⟨t, hagain, hrun⟩ := bind_eq_ok_iff.mp hrun
      cases hrun
      exact h.rerun _ _ _ hs hagain
    · cases hrun
      exact hs
  case search =>
    obtain ⟨found, -, hrun⟩ := bind_eq_ok_iff.mp hrun
    split at hrun
    · cases hrun
      exact hs
    · obtain ⟨t, hagain, hrun⟩ := bind_eq_ok_iff.mp hrun
      cases hrun
      exact h.rerun _ _ _ hs hagain
  case exit =>
    split at hrun
    · cases hrun
    · cases hrun
      exact hs
  case signal sig => exact h.signalProcess hs hrun
  case ps =>
    split at hrun
    · split at hrun
      · cases hrun
        exact h.push _ _ hs
      · cases hrun
    · cases hrun
      exact hs
  case external =>
    cases hrun
    exact hs

theorem State.addProcess_frame (s : State W) (text : Str) (pid : ℕ) :
    (s.addProcess text pid).cmdHis = s.cmdHis ∧ (s.addProcess text pid).recalled = s.recalled := by
  unfold addProcess
  split
  · exact ⟨rfl, rfl⟩
  · exact ⟨rfl, rfl⟩

theorem Closed.external (h : Closed rerun I) (htrim : ∀ s, I s → I (s.edit ref trim)) (hs : I s)
    (hrun : external E s ref cmd = .ok (s', k)) : I s' := by
  unfold Shell.external at hrun
  simp only at hrun
  split at hrun
  · cases hrun
  · rename_i pid world hfork
    set u : State W := { s.edit ref trim with world := world }.addProcess (trim cmd) pid with hu
    have hframe := State.addProcess_frame { s.edit ref trim with world := world } (trim cmd) pid
    have hI {v : State W} (hhis : v.cmdHis = u.cmdHis) (hagain : v.recalled = u.recalled) :
        I (v.push (trim cmd)) :=
      h.push _ _ (h.quiet (s.edit ref trim) v (hhis.trans hframe.1) (hagain.trans hframe.2) (htrim s hs))
    split at hrun
    · cases hrun
      exact hI rfl rfl
    · split at hrun
      · cases hrun
      · split at hrun
        · cases hrun
        · cases hrun
          exact hI rfl rfl
      · cases hrun
        exact hI rfl rfl

theorem Closed.classify (h : Closed rerun I) (htrim : ∀ s, I s → I (s.edit ref trim))
    (hcut : redirector cmd ≠ none → ∀ s n, I s → I (s.edit ref (List.take n))) (hs : I s)
    {rest : Str} (hrun : classify E rerun s ref cmd = .ok (s', rest, k)) : I s' := by
  unfold Shell.classify at hrun
  split at hrun
  · rename_i info hinfo
    obtain ⟨⟨t, class_⟩, hdispatch, hrun⟩ := bind_eq_ok_iff.mp hrun
    cases hrun
    have hne : redirector cmd ≠ none := fun hnone ↦ by
      rw [redirect_eq_none_iff.mpr hnone] at hinfo
      cases hinfo
    exact h.dispatch (htrim _ (hcut hne s _ hs)) hdispatch
  · split at hrun
    · obtain ⟨⟨t, class_⟩, hdispatch, hrun⟩ := bind_eq_ok_iff.mp hrun
      cases hrun
      exact h.dispatch (htrim s hs) hdispatch
    · cases hrun

theorem Closed.single (h : Closed rerun I) (htrim : ∀ s, I s → I (s.edit ref trim))
    (hcut : redirector cmd ≠ none → ∀ s n, I s → I (s.edit ref (List.take n))) (hs : I s)
    (hrun : single E rerun s ref cmd = .ok (s', k)) : I s' := by
  obtain ⟨⟨t, rest, class_⟩, hclassify, hrun⟩ := bind_eq_ok_iff.mp hrun
  have hI : I t := h.classify htrim hcut hs hclassify
  dsimp only at hrun
  split at hrun
  · cases hrun
    exact hI
  · split at hrun
    · exact h.external htrim hI hrun
    · cases hrun
      exact hI

/-- The text behind an operator is no part of the string any more. -/
theorem Closed.single_none (h : Closed rerun I) (hs : I s)
    (hrun : Shell.single E rerun s none cmd = .ok (s', k)) : I s' := by
  have hedit (f : Str → Str) (t : State W) (ht : I t) : I (t.edit none f) := ht
  exact h.single (hedit trim) (fun _ t n ↦ hedit (List.take n) t) hs hrun

theorem Closed.commandLine (h : Closed rerun I) (htrim : cmd ≠ ['\n'] → ∀ s, I s → I (s.edit ref trim))
    (hcut : logical cmd ≠ none ∨ redirector cmd ≠ none →
      ∀ s n, I s → I (s.edit ref (List.take n))) (hs : I s)
    (hrun : commandLine E rerun s ref cmd = .ok (s', ran)) : I s' := by
  unfold Shell.commandLine at hrun
  split at hrun
  · cases hrun
    exact hs
  rename_i hne
  split at hrun
  · obtain ⟨⟨t, result⟩, hsingle, hrun⟩ := bind_eq_ok_iff.mp hrun
    cases hrun
    exact h.single (htrim hne) (fun hr ↦ hcut (Or.inr hr)) hs hsingle
  · rename_i operator hoperator
    have hcut' := hcut (Or.inl (by simp [hoperator]))
    split at hrun
    · cases hrun
    · obtain ⟨⟨t, result⟩, hfirst, hrun⟩ := bind_eq_ok_iff.mp hrun
      have hI : I t := h.single (htrim hne) (fun _ ↦ hcut') (hcut' _ _ hs) hfirst
      dsimp only at hrun
      split at hrun
      · cases hrun
        exact hI
      · obtain ⟨⟨u, result'⟩, hsecond, hrun⟩ := bind_eq_ok_iff.mp hrun
        cases hrun
        exact h.single_none hI hsecond

/-- Nothing is cut off at a background sign, an operator or a redirection. -/
structure Uncut (cmd : Str) : Prop where
  sign : 2 ≤ cmd.length → cmd[cmd.length - 2]? ≠ some '&'
  operator : logical cmd = none
  redirection : redirector cmd = none

theorem Closed.commandWith (h : Closed rerun I)
    (htrim : ¬ Uncut cmd ∨ cmd ≠ ['\n'] → ∀ s, I s → I (s.edit ref trim))
    (hcut : ¬ Uncut cmd → ∀ s n, I s → I (s.edit ref (List.take n))) (hs : I s)
    (hrun : commandWith E rerun s ref cmd = .ok (s', ran)) : I s' := by
  obtain ⟨bg, hbg, hrun⟩ := bind_eq_ok_iff.mp hrun
  have hI : I { s with bg := bg } := h.quiet s _ rfl rfl hs
  dsimp only at hrun
  split at hrun
  · rename_i hsign
    have hnot : ¬ Uncut cmd := fun huncut ↦ by
      obtain ⟨hbg', hlength⟩ := hsign
      unfold background at hbg
      rw [hbg', if_pos hlength, Except.ok.injEq, decide_eq_true_eq] at hbg
      exact huncut.sign hlength hbg
    exact h.commandLine (fun _ ↦ htrim (Or.inl hnot)) (fun _ ↦ hcut hnot) (hcut hnot _ _ hI) hrun
  · refine h.commandLine (fun hne ↦ htrim (Or.inr hne)) (fun hop ↦ hcut fun huncut ↦ ?_) hI hrun
    rcases hop with hoperator | hredirection
    · exact hoperator huncut.operator
    · exact hredirection huncut.redirection

/-- A property that every write keeps is kept by `command`. -/
theorem Closed.command
    (hquiet : ∀ s s' : State W, s'.cmdHis = s.cmdHis → s'.recalled = s.recalled → I s → I s')
    (hpush : ∀ s cmd, I s → I (s.push cmd))
    (hagain : ∀ s p, I s → I { s with recalled := s.recalled ++ [p] })
    (hedit : ∀ s ref f, Shrinks f → I s → I (s.edit ref f)) (hs : I s)
    (hrun : command E fuel s ref cmd = .ok (s', ran)) : I s' := by
  induction fuel generalizing s ref cmd s' ran with
  | zero => cases hrun
  | succ fuel ih =>
      have hclosed : Closed (rerunWith (Shell.command E fuel)) I := by
        refine ⟨hquiet, hpush, fun s i s' hs hrerun ↦ ?_⟩
        unfold rerunWith at hrerun
        split at hrerun
        · cases hrerun
        · rename_i line hline
          obtain ⟨⟨u, ran'⟩, hcommand, hrerun⟩ := bind_eq_ok_iff.mp hrerun
          cases hrerun
          exact ih (hagain s (i, line) hs) hcommand
      exact hclosed.commandWith (fun _ s ↦ hedit s ref trim shrinks_trim)
        (fun _ s n ↦ hedit s ref (List.take n) (shrinks_take n)) hs hrun

end Closed

/-! ## The two directions -/

theorem edit_recalled (s : State W) (ref : Option ℕ) (f : Str → Str) :
    (s.edit ref f).recalled = s.recalled := by
  cases ref with
  | none => rfl
  | some i => rfl

theorem recalled_prefix (h : command E fuel s ref cmd = .ok (s', ran)) :
    s.recalled <+: s'.recalled := by
  refine Closed.command (I := fun t ↦ s.recalled <+: t.recalled) ?_ ?_ ?_ ?_ List.prefix_rfl h
  · intro t t' _ hagain ht
    rwa [hagain]
  · intro t _ ht
    exact ht
  · intro t p ht
    exact ht.trans (List.prefix_append _ _)
  · intro t ref f _ ht
    rwa [edit_recalled]

/-- The line `i` is stored and has at most `m` characters. -/
def Short (i m : ℕ) (s : State W) : Prop := ∃ line, s.cmdHis[i]? = some line ∧ line.length ≤ m

theorem Short.congr {m : ℕ} (h : Short i m s) (hhis : s'.cmdHis = s.cmdHis) : Short i m s' := by
  rwa [Short, hhis]

theorem Short.mono {m n : ℕ} (h : Short i m s) (hle : m ≤ n) : Short i n s := by
  obtain ⟨line, hline, hlength⟩ := h
  exact ⟨line, hline, hlength.trans hle⟩

theorem Short.push {m : ℕ} (h : Short i m s) (cmd : Str) : Short i m (s.push cmd) := by
  obtain ⟨line, hline, hlength⟩ := h
  refine ⟨line, ?_, hlength⟩
  rw [State.push, List.getElem?_append_left (List.getElem?_eq_some_iff.mp hline).1]
  exact hline

theorem Short.edit {m : ℕ} (h : Short i m s) (ref : Option ℕ) {f : Str → Str} (hf : Shrinks f) :
    Short i m (s.edit ref f) := by
  cases ref with
  | none => exact h
  | some j =>
      obtain ⟨line, hline, hlength⟩ := h
      rw [Short, State.edit]
      simp only [List.getElem?_modify, hline]
      by_cases hij : j = i
      · exact ⟨f line, by simp [hij], (hf line).trans hlength⟩
      · exact ⟨line, by simp [hij], hlength⟩

theorem Closed.short {m : ℕ} (fuel : ℕ) : Closed (rerunWith (Shell.command E fuel)) (Short i m) := by
  refine ⟨fun s s' hhis _ h ↦ h.congr hhis, fun s cmd h ↦ h.push cmd, fun s j s' h hrerun ↦ ?_⟩
  unfold rerunWith at hrerun
  split at hrerun
  · cases hrerun
  · rename_i line hline
    obtain ⟨⟨u, ran⟩, hcommand, hrerun⟩ := bind_eq_ok_iff.mp hrerun
    cases hrerun
    have hI : Short i m { s with recalled := s.recalled ++ [(j, line)] } := h.congr rfl
    refine Closed.command ?_ ?_ ?_ ?_ hI hcommand
    · exact fun s s' hhis _ h ↦ h.congr hhis
    · exact fun s cmd h ↦ h.push cmd
    · exact fun s p h ↦ h.congr rfl
    · exact fun s ref f hf h ↦ h.edit ref hf

/-- A line that a command run again leaves as it is. -/
structure Clean (cmd : Str) : Prop extends Uncut cmd where
  trimmed : cmd = ['\n'] ∨ trim cmd = cmd

theorem short_take {n : ℕ} (hline : s.cmdHis[i]? = some line) (hn : n < line.length) :
    Short i (line.length - 1) (s.edit (some i) (List.take n)) := by
  refine ⟨line.take n, ?_, ?_⟩
  · simp [State.edit, hline]
  · rw [List.length_take]
    omega

theorem short_trim (hline : s.cmdHis[i]? = some line) (hne : trim line ≠ line) :
    Short i (line.length - 1) (s.edit (some i) trim) := by
  refine ⟨trim line, ?_, ?_⟩
  · simp [State.edit, hline]
  · have hlt := length_trim_lt hne
    omega

section Short

variable (hclosed : Closed rerun (Short (W := W) i (line.length - 1)))
  (hline : s.cmdHis[i]? = some line)

include hclosed hline

/-- A redirection or a space at an end is cut off when the line is classified. -/
theorem short_single (hdirty : redirector line ≠ none ∨ trim line ≠ line)
    (hrun : single E rerun s (some i) line = .ok (s', k)) : Short i (line.length - 1) s' := by
  have htrim (t : State W) (h : Short i (line.length - 1) t) :
      Short i (line.length - 1) (t.edit (some i) trim) := h.edit _ shrinks_trim
  obtain ⟨⟨t, rest, class_⟩, hclassify, hrun⟩ := bind_eq_ok_iff.mp hrun
  have ht : Short i (line.length - 1) t := by
    unfold classify at hclassify
    split at hclassify
    · rename_i info hinfo
      obtain ⟨⟨u, class'⟩, hdispatch, hclassify⟩ := bind_eq_ok_iff.mp hclassify
      cases hclassify
      have hcut := short_take hline (length_redirect_lt hinfo)
      exact hclosed.dispatch (htrim _ hcut) hdispatch
    · rename_i hnone
      have hne := hdirty.resolve_left fun h ↦ h (redirect_eq_none_iff.mp hnone)
      split at hclassify
      · obtain ⟨⟨u, class'⟩, hdispatch, hclassify⟩ := bind_eq_ok_iff.mp hclassify
        cases hclassify
        exact hclosed.dispatch (short_trim hline hne) hdispatch
      · cases hclassify
  dsimp only at hrun
  split at hrun
  · cases hrun
    exact ht
  · split at hrun
    · exact hclosed.external htrim ht hrun
    · cases hrun
      exact ht

/-- So is everything from an operator on. -/
theorem short_commandLine (hnewline : line ≠ ['\n'])
    (hdirty : logical line ≠ none ∨ redirector line ≠ none ∨ trim line ≠ line)
    (hrun : commandLine E rerun s (some i) line = .ok (s', ran)) : Short i (line.length - 1) s' := by
  unfold commandLine at hrun
  rw [if_neg hnewline] at hrun
  split at hrun
  · rename_i hnone
    obtain ⟨⟨t, result⟩, hsingle, hrun⟩ := bind_eq_ok_iff.mp hrun
    cases hrun
    exact short_single hclosed hline (hdirty.resolve_left fun h ↦ h hnone) hsingle
  · rename_i operator hoperator
    split at hrun
    · cases hrun
    · rename_i cmd1 cmd2 hfound
      have hword : operator.text ≠ [] := by cases operator <;> simp [Operator.text]
      have hcut := short_take hline (length_lt_of_strstr hword hfound)
      obtain ⟨⟨t, result⟩, hfirst, hrun⟩ := bind_eq_ok_iff.mp hrun
      have ht : Short i (line.length - 1) t :=
        hclosed.single (fun _ h ↦ h.edit _ shrinks_trim) (fun _ _ n h ↦ h.edit _ (shrinks_take n))
          hcut hfirst
      dsimp only at hrun
      split at hrun
      · cases hrun
        exact ht
      · obtain ⟨⟨u, result'⟩, hsecond, hrun⟩ := bind_eq_ok_iff.mp hrun
        cases hrun
        exact hclosed.single_none ht hsecond

end Short

/-- A line that is not clean is shorter after it has been run again. -/
theorem short_of_not_clean (hline : s.cmdHis[i]? = some line) (hdirty : ¬ Clean line)
    (hrun : command E fuel s (some i) line = .ok (s', ran)) : Short i (line.length - 1) s' := by
  cases fuel with
  | zero => cases hrun
  | succ fuel =>
      have hclosed : Closed (rerunWith (command E fuel)) (Short (W := W) i (line.length - 1)) :=
        Closed.short fuel
      obtain ⟨bg, hbg, hrun⟩ := bind_eq_ok_iff.mp hrun
      have hline' : ({ s with bg := bg } : State W).cmdHis[i]? = some line := hline
      dsimp only at hrun
      split at hrun
      · rename_i hsign
        have hcut := short_take hline' (show line.length - 2 < line.length by omega)
        exact hclosed.commandLine (fun _ _ h ↦ h.edit _ shrinks_trim)
          (fun _ _ n h ↦ h.edit _ (shrinks_take n)) hcut hrun
      · rename_i hsign
        have huncut (hlength : 2 ≤ line.length) : (line)[line.length - 2]? ≠ some '&' := fun heq ↦ by
          unfold background at hbg
          rw [if_pos hlength, heq] at hbg
          cases hbg
          exact hsign ⟨rfl, hlength⟩
        have hnewline : line ≠ ['\n'] := by
          rintro rfl
          exact hdirty ⟨⟨by simp, by decide, by decide⟩, Or.inl rfl⟩
        refine short_commandLine hclosed hline' hnewline ?_ hrun
        by_contra hall
        push Not at hall
        exact hdirty ⟨⟨huncut, hall.1, hall.2.1⟩, Or.inr hall.2.2⟩

/-- Of the lines that have been run again since the log had length `seen`, those that belong
to the history `his` were clean. -/
def AllClean (his : List Str) (seen : ℕ) (s : State W) : Prop :=
  ∀ p ∈ s.recalled.drop seen, p.1 < his.length → Clean p.2

section Runs

variable {his : List Str} {seen : ℕ}

theorem AllClean.of_prefix (h : AllClean his seen s') (hpre : s.recalled <+: s'.recalled) :
    AllClean his seen s :=
  fun p hp ↦ h p ((hpre.drop seen).subset hp)

theorem AllClean.again (h : AllClean his seen s) (hclean : i < his.length → Clean line) :
    AllClean his seen { s with recalled := s.recalled ++ [(i, line)] } := by
  intro p hp
  rcases List.mem_append.mp (List.drop_append ▸ hp) with hp | hp
  · exact h p hp
  · obtain rfl := List.mem_singleton.mp (List.mem_of_mem_drop hp)
    exact hclean

theorem AllClean.congr (h : AllClean his seen s) (hagain : s'.recalled = s.recalled) :
    AllClean his seen s' := by
  rwa [AllClean, hagain]

/-- The string of a line of `his` is clean. -/
def Harmless (his : List Str) (ref : Option ℕ) (cmd : Str) : Prop :=
  ∀ i, ref = some i → i < his.length → Clean cmd ∧ his[i]? = some cmd

/-- The history is kept unless a line that is not clean has been run again. -/
structure Kept (his : List Str) (seen : ℕ) (s : State W) : Prop where
  log : seen ≤ s.recalled.length
  kept : AllClean his seen s → his <+: s.cmdHis

theorem prefix_modify {his l : List Str} {f : Str → Str} (h : his <+: l)
    (hf : ∀ line, his[i]? = some line → f line = line) : his <+: l.modify i f := by
  obtain ⟨rest, rfl⟩ := h
  refine List.prefix_iff_getElem?.mpr fun j hj ↦ ?_
  rw [List.getElem?_modify, List.getElem?_append_left hj, List.getElem?_eq_getElem hj]
  by_cases hij : i = j
  · subst hij
    simp [hf _ (List.getElem?_eq_getElem hj)]
  · simp [hij]

theorem Kept.edit (h : Kept his seen s) {f : Str → Str}
    (hf : ∀ i line, ref = some i → his[i]? = some line → f line = line) :
    Kept his seen (s.edit ref f) := by
  refine ⟨by rw [edit_recalled]; exact h.log, fun hclean ↦ ?_⟩
  have hpre := h.kept (hclean.congr (edit_recalled s ref f).symm)
  cases ref with
  | none => exact hpre
  | some i => exact prefix_modify hpre fun line ↦ hf i line rfl

theorem Kept.again {run : State W → Option ℕ → Str → Result (State W × List Str)} (h : Kept his seen t)
    (hpre : ∀ {s ref cmd s' ran}, run s ref cmd = .ok (s', ran) → s.recalled <+: s'.recalled)
    (hrun : ∀ {s ref cmd s' ran}, Kept his seen s → Harmless his ref cmd →
      run s ref cmd = .ok (s', ran) → Kept his seen s')
    (hrerun : rerunWith run t i = .ok t') : Kept his seen t' := by
  unfold rerunWith at hrerun
  split at hrerun
  · cases hrerun
  · rename_i line hline
    obtain ⟨⟨u, ran⟩, hcommand, hrerun⟩ := bind_eq_ok_iff.mp hrerun
    cases hrerun
    have hlog : seen ≤ (t.recalled ++ [(i, line)]).length := h.log.trans (by simp)
    by_cases hclean : AllClean his seen { t with recalled := t.recalled ++ [(i, line)] }
    · have hbefore : AllClean his seen t := hclean.of_prefix (List.prefix_append _ _)
      have hkept : Kept his seen { t with recalled := t.recalled ++ [(i, line)] } :=
        ⟨hlog, fun _ ↦ h.kept hbefore⟩
      refine hrun hkept ?_ hcommand
      rintro j ⟨⟩ hi
      refine ⟨hclean (i, line) ?_ hi, ?_⟩
      · rw [List.drop_append_of_le_length h.log]
        exact List.mem_append_right _ (List.mem_singleton_self _)
      · rw [List.getElem?_eq_getElem hi, ← hline]
        exact (List.prefix_iff_getElem?.mp (h.kept hbefore) _ hi).symm
    · exact ⟨hlog.trans (hpre hcommand).length_le,
        fun hafter ↦ absurd (hafter.of_prefix (hpre hcommand)) hclean⟩

/-- Induction on the depth of the recursion. -/
theorem Kept.command (h : Kept his seen s) (hharmless : Harmless his ref cmd)
    (hrun : command E fuel s ref cmd = .ok (s', ran)) : Kept his seen s' := by
  induction fuel generalizing s ref cmd s' ran with
  | zero => cases hrun
  | succ fuel ih =>
      have hsame (i : ℕ) (line : Str) (href : ref = some i) (hline : his[i]? = some line) :
          Clean cmd ∧ line = cmd := by
        obtain ⟨hclean, heq⟩ := hharmless i href (List.getElem?_eq_some_iff.mp hline).1
        exact ⟨hclean, Option.some.inj (hline.symm.trans heq)⟩
      have hclosed : Closed (rerunWith (Shell.command E fuel)) (Kept his seen) := by
        refine ⟨fun t t' hhis hagain ht ↦ ?_, fun t cmd ht ↦ ?_, fun t i t' ht hrerun ↦ ?_⟩
        · refine ⟨by rw [hagain]; exact ht.log, fun hclean ↦ ?_⟩
          rw [hhis]
          exact ht.kept (hclean.congr hagain.symm)
        · exact ⟨ht.log, fun hclean ↦ (ht.kept hclean).trans (List.prefix_append _ _)⟩
        · exact ht.again recalled_prefix ih hrerun
      refine hclosed.commandWith (fun hor t ht ↦ ?_) (fun hcut t n ht ↦ ?_) h hrun
      · refine ht.edit fun i line href hline ↦ ?_
        obtain ⟨hclean, rfl⟩ := hsame i line href hline
        rcases hclean.trimmed with hnewline | htrimmed
        · exact absurd hnewline (hor.resolve_left (not_not_intro hclean.toUncut))
        · exact htrimmed
      · refine ht.edit fun i line href hline ↦ ?_
        exact absurd (hsame i line href hline).1.toUncut hcut

/-- No line of `his` has become longer, and if one that is not clean has been run again, then
one has become shorter. -/
structure Damaged (his : List Str) (seen : ℕ) (s : State W) : Prop where
  log : seen ≤ s.recalled.length
  short : ∀ i line, his[i]? = some line → Short i line.length s
  shorter : ¬ AllClean his seen s →
    ∃ i line, his[i]? = some line ∧ 0 < line.length ∧ Short i (line.length - 1) s

theorem Damaged.congr (h : Damaged his seen s) (hagain : s'.recalled = s.recalled)
    (hshort : ∀ i m, Short i m s → Short i m s') : Damaged his seen s' := by
  refine ⟨by rw [hagain]; exact h.log, fun i line hline ↦ hshort _ _ (h.short i line hline), ?_⟩
  intro hdirty
  obtain ⟨i, line, hline, hpos, hlt⟩ := h.shorter fun hclean ↦ hdirty (hclean.congr hagain)
  exact ⟨i, line, hline, hpos, hshort _ _ hlt⟩

theorem clean_nil : Clean [] :=
  ⟨⟨by simp, by decide, by decide⟩, Or.inr rfl⟩

theorem Damaged.command (h : Damaged his seen s)
    (hrun : command E fuel s ref cmd = .ok (s', ran)) : Damaged his seen s' := by
  induction fuel generalizing s ref cmd s' ran with
  | zero => cases hrun
  | succ fuel ih =>
      have hclosed : Closed (rerunWith (Shell.command E fuel)) (Damaged his seen) := by
        refine ⟨fun t t' hhis hagain ht ↦ ?_, fun t cmd ht ↦ ?_, fun t i t' ht hrerun ↦ ?_⟩
        · exact ht.congr hagain fun i m hm ↦ hm.congr hhis
        · exact ht.congr rfl fun i m hm ↦ hm.push cmd
        · have hshort (j m : ℕ) (hm : Short j m t) : Short j m t' :=
            (Closed.short fuel).rerun t i t' hm hrerun
          unfold rerunWith at hrerun
          split at hrerun
          · cases hrerun
          · rename_i line hline
            obtain ⟨⟨u, ran'⟩, hcommand, hrerun⟩ := bind_eq_ok_iff.mp hrerun
            cases hrerun
            have hpre := recalled_prefix hcommand
            have hlog : seen ≤ (t.recalled ++ [(i, line)]).length := ht.log.trans (by simp)
            by_cases hbefore : AllClean his seen t
            · by_cases hclean : i < his.length → Clean line
              · refine ih ⟨hlog, ?_, fun hdirty ↦ absurd (hbefore.again hclean) hdirty⟩ hcommand
                exact fun j line' hline' ↦ (ht.short j line' hline').congr rfl
              · -- this line is cut now
                push Not at hclean
                obtain ⟨hi, hdirty⟩ := hclean
                have hstored : ({ t with recalled := t.recalled ++ [(i, line)] } : State W).cmdHis[i]? =
                    some line := hline
                have hnew : Short i (line.length - 1) t' :=
                  short_of_not_clean hstored hdirty hcommand
                have hbase := List.getElem?_eq_getElem hi
                obtain ⟨line', hline', hle⟩ := ht.short i _ hbase
                obtain rfl := Option.some.inj (hline.symm.trans hline')
                have hpos : 0 < line.length :=
                  List.length_pos_iff.mpr fun hnil ↦ hdirty (hnil ▸ clean_nil)
                refine ⟨hlog.trans hpre.length_le,
                  fun j line hj ↦ hshort _ _ (ht.short j line hj),
                  fun _ ↦ ⟨i, _, hbase, hpos.trans_le hle, hnew.mono ?_⟩⟩
                omega
            · obtain ⟨j, line', hline', hpos, hlt⟩ := ht.shorter hbefore
              exact ⟨hlog.trans hpre.length_le, fun j line hj ↦ hshort _ _ (ht.short j line hj),
                fun _ ↦ ⟨j, line', hline', hpos, hshort _ _ hlt⟩⟩
      refine hclosed.commandWith (fun _ t ht ↦ ?_) (fun _ t n ht ↦ ?_) h hrun
      · exact ht.congr (edit_recalled _ _ _) fun i m hm ↦ hm.edit _ shrinks_trim
      · exact ht.congr (edit_recalled _ _ _) fun i m hm ↦ hm.edit _ (shrinks_take n)

end Runs

/-- After a command line the history begins with the old one exactly if every old line that has
been run again was clean: nothing stands in it that is cut off at a background sign, an
operator or a redirection, and no space at its ends. -/
theorem history_kept_iff (hrun : command E fuel s none cmd = .ok (s', ran)) :
    s.cmdHis <+: s'.cmdHis ↔
      ∀ p ∈ s'.recalled.drop s.recalled.length, p.1 < s.cmdHis.length → Clean p.2 := by
  have hnew : AllClean s.cmdHis s.recalled.length s := by
    intro p hp
    simp at hp
  constructor
  · intro hpre
    by_contra hdirty
    have hdamaged : Damaged s.cmdHis s.recalled.length s :=
      ⟨le_rfl, fun i line hline ↦ ⟨line, hline, le_rfl⟩, fun h ↦ absurd hnew h⟩
    obtain ⟨i, line, hline, hpos, line', hline', hlt⟩ := (hdamaged.command hrun).shorter hdirty
    obtain ⟨hi, heq⟩ := List.getElem?_eq_some_iff.mp hline
    rw [List.prefix_iff_getElem?.mp hpre i hi, heq] at hline'
    obtain rfl := Option.some.inj hline'
    omega
  · intro hclean
    have hkept : Kept s.cmdHis s.recalled.length s := ⟨le_rfl, fun _ ↦ List.prefix_rfl⟩
    have hharmless : Harmless s.cmdHis none cmd := fun i href ↦ by cases href
    exact (hkept.command hharmless hrun).kept hclean

/-! ## Two lines that are run again -/

/-- A system on which every child exits with 0. -/
def quietSystem : System Unit where
  self := 1
  front := some '\x00'
  blank _ := true
  chdir _ _ := some ()
  setupRedirection _ _ _ := some ()
  kill _ _ _ := ()
  readable _ _ := true
  fork _ := some (2, ())
  run _ _ _ := (some (.exited 0), ())

/-- The shell after its start, with a history. -/
def started (cmdHis : List Str) : State Unit := ⟨cmdHis, [⟨['s', 'h'], 1, false⟩], false, (), []⟩

/-- The line `ls` is run again and kept. -/
theorem history_kept_iff_ls : ∃ s ran,
    command quietSystem 2 (started [['l', 's']]) none ['#', '0', '\n'] = .ok (s, ran) ∧
      [['l', 's']] <+: s.cmdHis := by
  have hrun : command quietSystem 2 (started [['l', 's']]) none ['#', '0', '\n'] =
      .ok (⟨[['l', 's'], ['l', 's']], [⟨['s', 'h'], 1, false⟩, ⟨['l', 's'], 2, true⟩], false, (),
        [(0, ['l', 's'])]⟩, [['#', '0', '\n']]) := rfl
  refine ⟨_, _, hrun, (history_kept_iff hrun).mpr ?_⟩
  have hclean : Clean ['l', 's'] := ⟨⟨by decide, by decide, by decide⟩, by decide⟩
  intro p hp _
  obtain rfl := List.mem_singleton.mp hp
  exact hclean

/-- After `echo a&b` the line `#0` leaves `echo a` in the place of the old line. -/
theorem stored_line_is_cut : ∃ s t ran ran',
    command quietSystem 2 (started []) none ['e', 'c', 'h', 'o', ' ', 'a', '&', 'b', '\n'] =
      .ok (s, ran) ∧
    command quietSystem 2 s none ['#', '0', '\n'] = .ok (t, ran') ∧ ¬ s.cmdHis <+: t.cmdHis := by
  refine ⟨⟨[['e', 'c', 'h', 'o', ' ', 'a', '&', 'b']], _, _, _, _⟩,
    ⟨[['e', 'c', 'h', 'o', ' ', 'a'], ['e', 'c', 'h', 'o', ' ', 'a']], _, _, _, _⟩, _, _, rfl, rfl, ?_⟩
  decide

end SystemProgramming.Shell
