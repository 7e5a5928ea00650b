import SystemProgramming.Shell.Model

/-!
# What a single command comes to

Whether a command succeeds, and whether the shell goes on behind it, can be read off the words of
the command, the state in which it is dispatched and the answers of the system.  The result of
`single` agrees with success, except that it is 1 for every external command.
-/

namespace SystemProgramming.Shell

variable {W : Type} {E : System W} {rerun : State W → ℕ → Result (State W)}
  {s t : State W} {ref : Option ℕ} {cmd rest : Str} {k : ℤ}

/-! ## The text of a command -/

/-- What is left in front of a redirection, without the spaces at its ends. -/
def text (cmd : Str) : Str := trim ((redirect cmd).elim cmd Redirection.cmd)

def words (cmd : Str) : List Str := sstringSplit ' ' (text cmd)

theorem trim_trim (cmd : Str) : trim (trim cmd) = trim cmd := by
  have hself : (trim cmd).dropWhile isspace = trim cmd := by
    rw [List.dropWhile_eq_self_iff]
    intro hpos
    have hstart : trim cmd <+: cmd.dropWhile isspace := List.rdropWhile_prefix _ _
    rw [hstart.getElem hpos]
    exact List.dropWhile_get_zero_not _ _ _
  rw [trim, hself, trim, List.rdropWhile_idempotent]

theorem trim_text (cmd : Str) : trim (text cmd) = text cmd := trim_trim _

/-- The state in which `classify` dispatches a command. -/
def State.prepared (s : State W) (ref : Option ℕ) (cmd : Str) : State W :=
  match redirect cmd with
  | some info => (s.edit ref (List.take info.cmd.length)).edit ref trim
  | none => s.edit ref trim

theorem State.edit_frame (s : State W) (ref : Option ℕ) (f : Str → Str) :
    (s.edit ref f).world = s.world ∧ (s.edit ref f).bg = s.bg := by
  cases ref with
  | none => exact ⟨rfl, rfl⟩
  | some i => exact ⟨rfl, rfl⟩

theorem State.prepared_frame (s : State W) (ref : Option ℕ) (cmd : Str) :
    (s.prepared ref cmd).world = s.world ∧ (s.prepared ref cmd).bg = s.bg := by
  unfold prepared
  split <;> simp [State.edit_frame]

theorem classify_ok_iff : classify E rerun s ref cmd = .ok (t, rest, k) ↔
    (redirect cmd = none → E.blank s.world = true) ∧ rest = text cmd ∧
      dispatch E rerun (s.prepared ref cmd) (redirect cmd) (text cmd) = .ok (t, k) := by
  have hpair {x : Result (State W × ℤ)} {cmd' : Str} :
      (x >>= fun r ↦ pure (r.1, cmd', r.2) : Result (State W × Str × ℤ)) = .ok (t, rest, k) ↔
        rest = cmd' ∧ x = .ok (t, k) := by
    constructor
    · intro h
      obtain ⟨⟨t', k'⟩, hdispatch, h⟩ := bind_eq_ok_iff.mp h
      cases h
      exact ⟨rfl, hdispatch⟩
    · rintro ⟨rfl, hdispatch⟩
      exact bind_eq_ok_iff.mpr ⟨(t, k), hdispatch, rfl⟩
  unfold classify text State.prepared
  cases redirect cmd with
  | none =>
      dsimp only [Option.elim_none]
      split_ifs with hblank
      · refine hpair.trans ?_
        simp [hblank]
      · simp [hblank]
  | some info =>
      dsimp only [Option.elim_some]
      refine hpair.trans ?_
      simp

/-! ## Success and survival -/

/-- What the child of an external command comes to.  Where `execvp` fails the child exits with 0. -/
def System.Ends (E : System W) (s : State W) (cmd : Str) (status : Status) : Prop :=
  ∃ pid world, E.fork s.world = some (pid, world) ∧
    (E.run world pid (words cmd)).1.getD (.exited 0) = status

theorem System.ends_iff {pid : ℕ} {world : W} (hfork : E.fork s.world = some (pid, world))
    {status : Status} :
    E.Ends s cmd status ↔ (E.run world pid (words cmd)).1.getD (.exited 0) = status := by
  simp [Ends, hfork]

/-- A built-in command works, or an external one exits with 0. -/
def Succeeds (E : System W) (s : State W) (cmd : Str) : Prop :=
  match kindOf (words cmd) with
  | .blank | .exit => False
  | .cd => ∃ dir, (words cmd).tail = [dir] ∧ (E.chdir s.world dir).isSome
  | .history | .ps => (words cmd).tail = []
  | .number => ∃ num, indexingOf s.cmdHis (words cmd) = .ok (.rerun num)
  | .search => ∃ i, searchOf s.cmdHis (text cmd) (words cmd) = .ok (some i)
  | .signal _ => ∃ arg p, (words cmd).tail = [arg] ∧
      s.processes.find? (fun p ↦ p.pid = atoi arg) = some p
  | .external => E.Ends s cmd (.exited 0)

/-- The shell reads on behind a command.  `again` tells which lines of the history can be run
again. -/
def Continues (E : System W) (again : State W → ℕ → Prop) (s : State W) (cmd : Str) : Prop :=
  (redirect cmd = none → E.blank s.world = true) ∧
  match kindOf (words cmd) with
  | .blank => False
  | .cd | .history => True
  | .number => ∃ action, indexingOf s.cmdHis (words cmd) = .ok action ∧
      ∀ num, action = .rerun num → again s num
  | .search => ∃ found, searchOf s.cmdHis (text cmd) (words cmd) = .ok found ∧
      ∀ i, found = some i → again s i
  | .exit => (words cmd).tail ≠ []
  | .signal sig =>
      (∀ info, redirect cmd = some info →
        (E.setupRedirection s.world info.type info.filename).isSome) ∧
      (words cmd).tail ≠ [] ∧
      ∀ arg, (words cmd).tail = [arg] →
        ∀ p, s.processes.find? (fun p ↦ p.pid = atoi arg) = some p → p.pid = E.self → sig = .cont
  | .ps => (words cmd).tail = [] → ∀ p ∈ s.processes, p.killed ∨ E.readable s.world p.pid
  | .external => ∃ status, E.Ends s cmd status ∧
      (s.bg ∨ status = .exited 0 ∨ status = .signaled)

theorem Continues.mono {again again' : State W → ℕ → Prop} (h : Continues E again s cmd)
    (hmono : ∀ s i, again s i → again' s i) : Continues E again' s cmd := by
  unfold Continues at h ⊢
  refine ⟨h.1, ?_⟩
  have hkind := h.2
  split at hkind
  case h_4 =>
      obtain ⟨action, haction, hagain⟩ := hkind
      simp only [*]
      exact ⟨action, rfl, fun num hnum ↦ hmono s num (hagain num hnum)⟩
  case h_5 =>
      obtain ⟨found, hfound, hagain⟩ := hkind
      simp only [*]
      exact ⟨found, rfl, fun i hi ↦ hmono s i (hagain i hi)⟩
  all_goals simp_all

theorem setupRedirection_processes {redirection : Option Redirection}
    (h : setupRedirection E s redirection = .ok t) : t.processes = s.processes := by
  unfold setupRedirection at h
  split at h
  · cases h
    rfl
  · split at h
    · cases h
    · cases h
      rfl

theorem signalProcess_class {redirection : Option Redirection} {sig : Signal} {args : List Str}
    (h : signalProcess E s redirection sig cmd args = .ok (t, k)) :
    k ≠ 6 ∧ (k = -1 ∨ k = 0 ↔ ¬ ∃ arg p, args = [arg] ∧
      s.processes.find? (fun p ↦ p.pid = atoi arg) = some p) := by
  obtain ⟨u, hu, hrun⟩ := bind_eq_ok_iff.mp h
  clear h
  rw [← setupRedirection_processes hu]
  rcases args with _ | ⟨arg, _ | ⟨arg', args⟩⟩
  · cases hrun
  · cases hfind : u.processes.find? (fun p ↦ p.pid = atoi arg) with
    | none =>
        simp only [hfind] at hrun
        cases hrun
        simp [hfind]
    | some p =>
        simp only [hfind] at hrun
        split at hrun
        · cases hrun
        · split at hrun
          · cases hrun
          · have hcode : sig.code ≠ 6 ∧ sig.code ≠ -1 ∧ sig.code ≠ 0 := by cases sig <;> decide
            cases hrun
            simp [hcode, hfind]
  · cases hrun
    simp

/-- The result code tells whether a command worked, and 6 stands for an external one. -/
theorem dispatch_class (h : dispatch E rerun s (redirect cmd) (text cmd) = .ok (t, k)) :
    (k = 6 ↔ kindOf (words cmd) = .external) ∧
      (kindOf (words cmd) ≠ .external → (k = -1 ∨ k = 0 ↔ ¬ Succeeds E s cmd)) := by
  unfold dispatch at h
  rw [← words] at h
  cases hkind : kindOf (words cmd) <;> simp only [hkind, Succeeds] at h ⊢
  case blank => cases h
  case cd =>
    split at h
    · split at h
      · cases h
        simp [*]
      · cases h
        simp [*]
    · rename_i hone
      cases h
      refine ⟨by simp, fun _ ↦ iff_of_true (by simp) ?_⟩
      rintro ⟨dir, hdir, -⟩
      exact hone dir hdir
  case history =>
    split at h
    · cases h
      simp [*]
    · cases h
      simp [*]
  case number =>
    obtain ⟨action, haction, h⟩ := bind_eq_ok_iff.mp h
    cases action with
    | invalid =>
        cases h
        simp [haction]
    | rerun num =>
        obtain ⟨u, -, h⟩ := bind_eq_ok_iff.mp h
        cases h
        simp [haction]
    | invalidIndex =>
        cases h
        simp [haction]
  case search =>
    obtain ⟨found, hfound, h⟩ := bind_eq_ok_iff.mp h
    cases found with
    | none =>
        cases h
        simp [hfound]
    | some i =>
        obtain ⟨u, -, h⟩ := bind_eq_ok_iff.mp h
        cases h
        simp [hfound]
  case exit =>
    split at h
    · cases h
    · cases h
      simp
  case signal sig =>
    have hclass := signalProcess_class h
    simp [hclass]
  case ps =>
    split at h
    · split at h
      · cases h
        simp [*]
      · cases h
    · cases h
      simp [*]
  case external =>
    cases h
    simp

/-- The shell comes back. -/
def Returns {α : Type} (x : Result α) : Prop := ∃ a, x = .ok a

section Returns

variable {α β : Type}

@[simp] theorem returns_ok (a : α) : Returns (.ok a) := ⟨a, rfl⟩

@[simp] theorem returns_pure (a : α) : Returns (pure a : Result α) := ⟨a, rfl⟩

@[simp] theorem not_returns_error (stop : Stop) : ¬ Returns (.error stop : Result α) :=
  fun ⟨_, h⟩ ↦ by cases h

theorem returns_bind_iff {x : Result α} {f : α → Result β} :
    Returns (x >>= f) ↔ ∃ a, x = .ok a ∧ Returns (f a) := by
  unfold Returns
  simp only [bind_eq_ok_iff]
  rw [exists_comm]
  simp only [exists_and_left]

theorem returns_bind_pure_iff {x : Result α} {g : α → β} :
    Returns (x >>= fun a ↦ pure (g a)) ↔ Returns x := by
  rw [returns_bind_iff, Returns]
  simp

end Returns

theorem returns_setupRedirection_iff {redirection : Option Redirection} :
    Returns (setupRedirection E s redirection) ↔ ∀ info, redirection = some info →
      (E.setupRedirection s.world info.type info.filename).isSome := by
  unfold setupRedirection
  cases redirection with
  | none => simp
  | some info => cases hinfo : E.setupRedirection s.world info.type info.filename <;> simp [hinfo]

theorem returns_signalProcess_iff {redirection : Option Redirection} {sig : Signal}
    {args : List Str} :
    Returns (signalProcess E s redirection sig cmd args) ↔
      (∀ info, redirection = some info →
        (E.setupRedirection s.world info.type info.filename).isSome) ∧
      args ≠ [] ∧
      ∀ arg, args = [arg] →
        ∀ p, s.processes.find? (fun p ↦ p.pid = atoi arg) = some p → p.pid = E.self → sig = .cont := by
  rw [← returns_setupRedirection_iff, signalProcess, returns_bind_iff]
  refine Iff.trans (exists_congr fun u ↦ and_congr_right fun hu ↦ ?_) exists_and_right
  rw [← setupRedirection_processes hu]
  rcases args with _ | ⟨arg, _ | ⟨arg', args⟩⟩
  · simp
  · cases hfind : u.processes.find? (fun p ↦ p.pid = atoi arg) with
    | none => simp [hfind]
    | some p =>
        by_cases hself : p.pid = E.self
        · cases sig <;> simp [hfind, hself]
        · simp [hfind, hself]
  · simp

/-- A built-in command comes back exactly if the shell continues. -/
theorem returns_dispatch_iff (hblank : redirect cmd = none → E.blank s.world = true)
    (hkind : kindOf (words cmd) ≠ .external) :
    Returns (dispatch E rerun s (redirect cmd) (text cmd)) ↔
      Continues E (fun s i ↦ Returns (rerun s i)) s cmd := by
  unfold dispatch Continues
  rw [← words, and_iff_right hblank]
  cases hcases : kindOf (words cmd) <;> simp only [hcases]
  case blank => simp
  case cd =>
    split
    · split <;> simp
    · simp
  case history => split <;> simp
  case number =>
    rw [returns_bind_iff]
    refine exists_congr fun action ↦ and_congr_right fun _ ↦ ?_
    cases action with
    | invalid => simp
    | rerun num =>
        dsimp only
        rw [returns_bind_pure_iff]
        simp
    | invalidIndex => simp
  case search =>
    rw [returns_bind_iff]
    refine exists_congr fun found ↦ and_congr_right fun _ ↦ ?_
    cases found with
    | none => simp
    | some i =>
        dsimp only
        rw [returns_bind_pure_iff]
        simp
  case exit => split <;> simp [*]
  case signal sig => exact returns_signalProcess_iff
  case ps =>
    split
    · split
      · simp_all
      · simp_all
    · simp [*]
  case external => exact absurd hcases hkind

/-! ## The result of a single command -/

theorem dispatch_external (hkind : kindOf (words cmd) = .external) :
    dispatch E rerun s (redirect cmd) (text cmd) = .ok (s, 6) := by
  unfold dispatch
  rw [← words]
  simp only [hkind]

theorem State.addProcess_bg_world (s : State W) (cmd : Str) (pid : ℕ) :
    (s.addProcess cmd pid).bg = s.bg ∧ (s.addProcess cmd pid).world = s.world := by
  unfold addProcess
  split
  · exact ⟨rfl, rfl⟩
  · exact ⟨rfl, rfl⟩

theorem returns_external_iff : Returns (external E s ref (text cmd)) ↔
    ∃ status, E.Ends s cmd status ∧ (s.bg ∨ status = .exited 0 ∨ status = .signaled) := by
  obtain ⟨hworld, hbg⟩ := s.edit_frame ref trim
  have hwords : sstringSplit ' ' (trim (text cmd)) = words cmd := by rw [trim_text, words]
  unfold external
  dsimp only
  rw [hworld, hwords]
  cases hfork : E.fork s.world with
  | none => simp [System.Ends, hfork]
  | some child =>
      obtain ⟨pid, world⟩ := child
      simp only [State.addProcess_bg_world, hbg, System.ends_iff hfork, exists_eq_left']
      split
      · simp [*]
      · split
        · simp [*]
        · split <;> simp_all
        · simp [*]

theorem external_result (h : external E s ref cmd = .ok (t, k)) : k = 1 := by
  unfold external at h
  dsimp only at h
  split at h
  · cases h
  · split at h
    · cases h
      rfl
    · split at h
      · cases h
      · split at h
        · cases h
        · cases h
          rfl
      · cases h
        rfl

theorem single_ok_iff : single E rerun s ref cmd = .ok (t, k) ↔
    (redirect cmd = none → E.blank s.world = true) ∧
      ∃ u class_, dispatch E rerun (s.prepared ref cmd) (redirect cmd) (text cmd) = .ok (u, class_) ∧
        if class_ = 6 then external E u ref (text cmd) = .ok (t, k)
        else t = u ∧ k = if class_ = -1 ∨ class_ = 0 then 0 else 1 := by
  have hswitch (u : State W) (class_ : ℤ) :
      (if class_ = -1 ∨ class_ = 0 then pure (u, 0)
        else if class_ = 6 then external E u ref (text cmd)
        else pure (u, 1) : Result (State W × ℤ)) = .ok (t, k) ↔
      if class_ = 6 then external E u ref (text cmd) = .ok (t, k)
        else t = u ∧ k = if class_ = -1 ∨ class_ = 0 then 0 else 1 := by
    by_cases hsix : class_ = 6
    · simp [hsix]
    · rw [if_neg hsix, if_neg hsix]
      split
      · simp [pure, Except.pure, eq_comm]
      · simp [pure, Except.pure, eq_comm]
  constructor
  · intro h
    obtain ⟨⟨u, rest, class_⟩, hclassify, hrun⟩ := bind_eq_ok_iff.mp h
    obtain ⟨hblank, rfl, hdispatch⟩ := classify_ok_iff.mp hclassify
    exact ⟨hblank, u, class_, hdispatch, (hswitch u class_).mp hrun⟩
  · rintro ⟨hblank, u, class_, hdispatch, hrun⟩
    have hclassify := classify_ok_iff.mpr ⟨hblank, rfl, hdispatch⟩
    exact bind_eq_ok_iff.mpr ⟨(u, text cmd, class_), hclassify, (hswitch u class_).mpr hrun⟩

/-- The shell comes back from a command exactly if it continues behind it. -/
theorem returns_single_iff : Returns (single E rerun s ref cmd) ↔
    Continues E (fun s i ↦ Returns (rerun s i)) (s.prepared ref cmd) cmd := by
  obtain ⟨hworld, hbg⟩ := s.prepared_frame ref cmd
  by_cases hblank : redirect cmd = none → E.blank s.world = true
  · by_cases hkind : kindOf (words cmd) = .external
    · rw [Continues, hworld, and_iff_right hblank, hkind]
      dsimp only
      have hexternal : Returns (external E (s.prepared ref cmd) ref (text cmd)) ↔ _ :=
        returns_external_iff
      rw [← hexternal]
      have hdispatch : dispatch E rerun (s.prepared ref cmd) (redirect cmd) (text cmd) =
          .ok (s.prepared ref cmd, 6) := dispatch_external hkind
      constructor
      · rintro ⟨⟨t, k⟩, h⟩
        obtain ⟨-, u, class_, hrun, hexternal⟩ := single_ok_iff.mp h
        cases hdispatch.symm.trans hrun
        exact ⟨(t, k), hexternal⟩
      · rintro ⟨⟨t, k⟩, hexternal⟩
        exact ⟨(t, k), single_ok_iff.mpr ⟨hblank, _, _, hdispatch, hexternal⟩⟩
    · have hbuiltin : Returns (dispatch E rerun (s.prepared ref cmd) (redirect cmd) (text cmd)) ↔ _ :=
        returns_dispatch_iff (by rwa [hworld]) hkind
      rw [← hbuiltin]
      constructor
      · rintro ⟨⟨t, k⟩, h⟩
        obtain ⟨-, u, class_, hrun, -⟩ := single_ok_iff.mp h
        exact ⟨(u, class_), hrun⟩
      · rintro ⟨⟨u, class_⟩, hrun⟩
        have hne : class_ ≠ 6 := fun h ↦ hkind ((dispatch_class hrun).1.mp h)
        refine ⟨(u, if class_ = -1 ∨ class_ = 0 then 0 else 1),
          single_ok_iff.mpr ⟨hblank, u, class_, hrun, ?_⟩⟩
        rw [if_neg hne]
        exact ⟨rfl, rfl⟩
  · refine iff_of_false ?_ ?_
    · rintro ⟨⟨t, k⟩, h⟩
      exact hblank (single_ok_iff.mp h).1
    · intro h
      rw [Continues, hworld] at h
      exact hblank h.1

/-- An external command counts as a success whatever its status is. -/
theorem single_result (h : single E rerun s ref cmd = .ok (t, k)) :
    k = 0 ↔ kindOf (words cmd) ≠ .external ∧ ¬ Succeeds E (s.prepared ref cmd) cmd := by
  obtain ⟨-, u, class_, hdispatch, hrun⟩ := single_ok_iff.mp h
  obtain ⟨hsix, hclass⟩ := dispatch_class hdispatch
  split at hrun
  · rename_i heq
    rw [external_result hrun]
    simp [hsix.mp heq]
  · rename_i hne
    have hkind : kindOf (words cmd) ≠ .external := fun h ↦ hne (hsix.mpr h)
    rw [hrun.2]
    split
    · rename_i hor
      exact iff_of_true rfl ⟨hkind, (hclass hkind).mp hor⟩
    · rename_i hor
      exact iff_of_false one_ne_zero fun h ↦ hor ((hclass hkind).mpr h.2)

end SystemProgramming.Shell
