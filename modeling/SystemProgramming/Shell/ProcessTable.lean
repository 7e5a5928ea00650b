import SystemProgramming.Shell.History
import SystemProgramming.Lib.Runs

/-!
# The table of the processes

The shell enters itself and then every child that it has forked.  An entry is marked when the
child has been waited for, has been killed or is reported by SIGCHLD, and it is never taken
out.
-/

namespace SystemProgramming.Shell

variable {W : Type} {E : System W} {rerun : State W → ℕ → Result (State W)}
  {s s' t : State W} {ref : Option ℕ} {cmd : Str} {ran : List Str} {fuel pid : ℕ} {k : ℤ}
  {b : Bool} {own : ℕ} {ps ps' ps'' : List Process}

/-! ## Tables -/

/-- The shell stands in front, no pid stands twice, and an entry behind the shell that is not
marked needs the background sign. -/
structure Listed (own : ℕ) (b : Bool) (ps : List Process) : Prop where
  shell : ∃ cmd rest, ps = ⟨cmd, own, false⟩ :: rest
  nodup : (ps.map Process.pid).Nodup
  killed : b = false → ∀ p ∈ ps, p.pid ≠ own → p.killed = true

/-- The entries keep their places, and a table in order stays in order. -/
structure Evolves (own : ℕ) (b : Bool) (ps ps' : List Process) : Prop where
  grows : ps.map Process.pid <+: ps'.map Process.pid
  listed : Listed own b ps → Listed own b ps'

theorem Evolves.refl (ps : List Process) : Evolves own b ps ps :=
  ⟨List.prefix_rfl, id⟩

theorem Evolves.trans (h : Evolves own b ps ps') (h' : Evolves own b ps' ps'') :
    Evolves own b ps ps'' :=
  ⟨h.grows.trans h'.grows, h'.listed ∘ h.listed⟩

/-- What `f` makes of the entries of `pid`. -/
def replaceEntry (pid : ℕ) (f : Process → Process) (ps : List Process) : List Process :=
  ps.map fun p ↦ if p.pid = pid then f p else p

theorem map_pid_replaceEntry {f : Process → Process} (hf : ∀ p, p.pid = pid → (f p).pid = pid) :
    (replaceEntry pid f ps).map Process.pid = ps.map Process.pid := by
  rw [replaceEntry, List.map_map]
  refine List.map_congr_left fun p _ ↦ ?_
  simp only [Function.comp_apply]
  split_ifs with h
  · rw [hf p h, h]
  · rfl

theorem evolves_replaceEntry {f : Process → Process} (hpid : pid ≠ own)
    (hf : ∀ p, p.pid = pid → (f p).pid = pid) (hkilled : b = false → ∀ p, (f p).killed = true) :
    Evolves own b ps (replaceEntry pid f ps) := by
  have hmap : (replaceEntry pid f ps).map Process.pid = ps.map Process.pid :=
    map_pid_replaceEntry hf
  refine ⟨by rw [hmap], fun h ↦ ⟨?_, by rw [hmap]; exact h.nodup, fun hb p hp hne ↦ ?_⟩⟩
  · obtain ⟨cmd, rest, hps⟩ := h.shell
    refine ⟨cmd, replaceEntry pid f rest, ?_⟩
    rw [hps, replaceEntry, List.map_cons, if_neg hpid.symm, replaceEntry]
  · obtain ⟨q, hq, hp⟩ := List.mem_map.mp hp
    split_ifs at hp with hqpid
    · rw [← hp]
      exact hkilled hb q
    · rw [← hp] at hne ⊢
      exact h.killed hb q hq hne

theorem evolves_append {p : Process}
    (hnew : p.pid ∉ ps.map Process.pid) (hkilled : b = false → p.killed = true) :
    Evolves own b ps (ps ++ [p]) := by
  refine ⟨by simp, fun h ↦ ⟨?_, ?_, fun hb q hq hne ↦ ?_⟩⟩
  · obtain ⟨cmd, rest, hps⟩ := h.shell
    exact ⟨cmd, rest ++ [p], by rw [hps, List.cons_append]⟩
  · rw [List.map_append, List.map_singleton, List.nodup_append_comm]
    exact List.nodup_cons.mpr ⟨hnew, h.nodup⟩
  · rcases List.mem_append.mp hq with hq | hq
    · exact h.killed hb q hq hne
    · rw [List.mem_singleton.mp hq]
      exact hkilled hb

/-! ## What a command does to the table -/

theorem evolves_setKilled (hpid : pid ≠ own) :
    Evolves own b s.processes (s.setKilled pid).processes :=
  evolves_replaceEntry hpid (fun _ h ↦ h) fun _ _ ↦ rfl

theorem notMem_pids (hnew : ¬ ps.any (fun p ↦ p.pid = pid) = true) : pid ∉ ps.map Process.pid := by
  intro hmem
  obtain ⟨p, hp, hpid⟩ := List.mem_map.mp hmem
  exact hnew (List.any_eq_true.mpr ⟨p, hp, decide_eq_true hpid⟩)

theorem evolves_addProcess (hpid : pid ≠ own) :
    Evolves own true s.processes (s.addProcess cmd pid).processes := by
  unfold State.addProcess
  split
  · exact evolves_replaceEntry hpid (fun _ _ ↦ rfl) nofun
  · rename_i hnew
    exact evolves_append (notMem_pids hnew) nofun

/-- A child that has been waited for is entered with its mark. -/
theorem setKilled_addProcess : ((s.addProcess cmd pid).setKilled pid).processes =
    if s.processes.any fun p ↦ p.pid = pid then replaceEntry pid (fun _ ↦ ⟨cmd, pid, true⟩) s.processes
    else s.processes ++ [⟨cmd, pid, true⟩] := by
  unfold State.addProcess
  split
  · simp only [State.setKilled, replaceEntry, List.map_map]
    refine List.map_congr_left fun p _ ↦ ?_
    simp only [Function.comp_apply]
    split_ifs <;> simp_all
  · rename_i hnew
    simp only [State.setKilled, List.map_append, List.map_singleton, if_true]
    congr 1
    rw [List.map_congr_left fun p hp ↦ if_neg fun hpid ↦ notMem_pids hnew ?_, List.map_id']
    exact List.mem_map.mpr ⟨p, hp, hpid⟩

theorem evolves_setKilled_addProcess (hpid : pid ≠ own) :
    Evolves own b s.processes ((s.addProcess cmd pid).setKilled pid).processes := by
  rw [setKilled_addProcess]
  split
  · exact evolves_replaceEntry hpid (fun _ _ ↦ rfl) fun _ _ ↦ rfl
  · rename_i hnew
    exact evolves_append (notMem_pids hnew) fun _ ↦ rfl

/-- Without `b` the line has no background sign. -/
def Unsigned (E : System W) (b : Bool) (cmd : Str) : Prop :=
  b = false → background E.front cmd = .ok false

/-- What `b` allows for the lines that are run again is passed on to the table. -/
structure Keeps (E : System W) (b : Bool) (s s' : State W) : Prop where
  recalled : s.recalled <+: s'.recalled
  table : (∀ p ∈ s'.recalled, Unsigned E b p.2) → (s.bg = true → b = true) →
    (s'.bg = true → b = true) ∧ Evolves E.self b s.processes s'.processes

theorem Keeps.of_eq (hrecalled : s'.recalled = s.recalled) (hbg : s'.bg = s.bg)
    (hprocesses : s'.processes = s.processes) : Keeps E b s s' := by
  refine ⟨by rw [hrecalled], fun _ h ↦ ⟨by rwa [hbg], ?_⟩⟩
  rw [hprocesses]
  exact Evolves.refl _

theorem Keeps.trans (h : Keeps E b s t) (h' : Keeps E b t s') : Keeps E b s s' := by
  refine ⟨h.recalled.trans h'.recalled, fun hall hbg ↦ ?_⟩
  obtain ⟨hbg', hfirst⟩ := h.table (fun p hp ↦ hall p (h'.recalled.subset hp)) hbg
  obtain ⟨hbg'', hsecond⟩ := h'.table hall hbg'
  exact ⟨hbg'', hfirst.trans hsecond⟩

theorem keeps_edit (s : State W) (ref : Option ℕ) (f : Str → Str) : Keeps E b s (s.edit ref f) := by
  cases ref with
  | none => exact Keeps.of_eq rfl rfl rfl
  | some i => exact Keeps.of_eq rfl rfl rfl

theorem keeps_setupRedirection {redirection : Option Redirection}
    (h : setupRedirection E s redirection = .ok s') : Keeps E b s s' := by
  unfold setupRedirection at h
  split at h
  · cases h
    exact Keeps.of_eq rfl rfl rfl
  · split at h
    · cases h
    · cases h
      exact Keeps.of_eq rfl rfl rfl

theorem keeps_signalProcess {redirection : Option Redirection} {sig : Signal} {args : List Str}
    (h : signalProcess E s redirection sig cmd args = .ok (s', k)) : Keeps E b s s' := by
  obtain ⟨t, ht, h⟩ := bind_eq_ok_iff.mp h
  apply (keeps_setupRedirection ht).trans
  split at h
  · cases h
  · split at h
    · cases h
      exact Keeps.of_eq rfl rfl rfl
    · rename_i p hp
      split_ifs at h with hkill hstop hsig
      -- only another process than the shell is marked
      · cases h
        have hpid : p.pid ≠ E.self := fun hpid ↦ hkill ⟨hpid, hsig⟩
        exact ⟨List.prefix_rfl, fun _ hbg ↦ ⟨hbg, evolves_setKilled (s := t) hpid⟩⟩
      · cases h
        exact Keeps.of_eq rfl rfl rfl
  · cases h
    exact Keeps.of_eq rfl rfl rfl

theorem keeps_dispatch {redirection : Option Redirection}
    (hrerun : ∀ s i s', rerun s i = .ok s' → Keeps E b s s')
    (h : dispatch E rerun s redirection cmd = .ok (s', k)) : Keeps E b s s' := by
  unfold dispatch at h
  cases hkind : kindOf (sstringSplit ' ' cmd) <;> simp only [hkind] at h
  case blank => cases h
  case cd =>
    split at h
    · split at h
      · cases h
        exact Keeps.of_eq rfl rfl rfl
      · cases h
        exact Keeps.of_eq rfl rfl rfl
    · cases h
      exact Keeps.of_eq rfl rfl rfl
  case history =>
    split at h
    · cases h
      exact Keeps.of_eq rfl rfl rfl
    · cases h
      exact Keeps.of_eq rfl rfl rfl
  case number =>
    obtain ⟨action, -, h⟩ := bind_eq_ok_iff.mp h
    split at h
    · cases h
      exact Keeps.of_eq rfl rfl rfl
    · obtain ⟨t, hagain, h⟩ := bind_eq_ok_iff.mp h
      cases h
      exact hrerun _ _ _ hagain
    · cases h
      exact Keeps.of_eq rfl rfl rfl
  case search =>
    obtain ⟨found, -, h⟩ := bind_eq_ok_iff.mp h
    split at h
    · cases h
      exact Keeps.of_eq rfl rfl rfl
    · obtain ⟨t, hagain, h⟩ := bind_eq_ok_iff.mp h
      cases h
      exact hrerun _ _ _ hagain
  case exit =>
    split at h
    · cases h
    · cases h
      exact Keeps.of_eq rfl rfl rfl
  case signal sig => exact keeps_signalProcess h
  case ps =>
    split at h
    · split at h
      · cases h
        exact Keeps.of_eq rfl rfl rfl
      · cases h
    · cases h
      exact Keeps.of_eq rfl rfl rfl
  case external =>
    cases h
    exact Keeps.of_eq rfl rfl rfl

/-- The system does not give the shell's own pid to a child. -/
def ForksOthers (E : System W) : Prop := ∀ w pid w', E.fork w = some (pid, w') → pid ≠ E.self

theorem State.addProcess_bg (s : State W) (cmd : Str) (pid : ℕ) :
    (s.addProcess cmd pid).bg = s.bg := by
  unfold addProcess
  split <;> rfl

theorem keeps_external (hfork : ForksOthers E) (h : external E s ref cmd = .ok (s', k)) :
    Keeps E b s s' := by
  apply (keeps_edit s ref trim).trans
  unfold external at h
  simp only at h
  split at h
  · cases h
  · rename_i pid world hpid
    have hne := hfork _ _ _ hpid
    set u : State W := { s.edit ref trim with world := world } with hu
    have hbg : (u.addProcess (trim cmd) pid).bg = u.bg := u.addProcess_bg _ _
    have hrecalled : (u.addProcess (trim cmd) pid).recalled = u.recalled :=
      (u.addProcess_frame _ _).2
    have hmarked {v : State W} (hv : v.recalled = u.recalled) (hvbg : v.bg = u.bg)
        (hps : v.processes = ((u.addProcess (trim cmd) pid).setKilled pid).processes) :
        Keeps E b (s.edit ref trim) v := by
      refine ⟨by rw [hv], fun _ hsign ↦ ⟨by rwa [hvbg], ?_⟩⟩
      rw [hps]
      exact evolves_setKilled_addProcess (s := u) hne
    split at h
    · rename_i hsigned
      cases h
      refine ⟨by rw [State.push, hrecalled], fun _ hsign ↦ ?_⟩
      have hb : b = true := hsign (by rwa [hbg] at hsigned)
      subst hb
      exact ⟨fun _ ↦ rfl, evolves_addProcess (s := u) hne⟩
    · split at h
      · cases h
      · split_ifs at h
        cases h
        exact hmarked hrecalled hbg rfl
      · cases h
        exact hmarked hrecalled hbg rfl

theorem keeps_classify (hrerun : ∀ s i s', rerun s i = .ok s' → Keeps E b s s') {rest : Str}
    (h : classify E rerun s ref cmd = .ok (s', rest, k)) : Keeps E b s s' := by
  unfold classify at h
  split at h
  · obtain ⟨⟨t, class_⟩, hdispatch, h⟩ := bind_eq_ok_iff.mp h
    cases h
    apply (keeps_edit _ _ _).trans
    exact (keeps_edit _ _ _).trans (keeps_dispatch hrerun hdispatch)
  · split at h
    · obtain ⟨⟨t, class_⟩, hdispatch, h⟩ := bind_eq_ok_iff.mp h
      cases h
      exact (keeps_edit _ _ _).trans (keeps_dispatch hrerun hdispatch)
    · cases h

theorem keeps_single (hfork : ForksOthers E) (hrerun : ∀ s i s', rerun s i = .ok s' → Keeps E b s s')
    (h : single E rerun s ref cmd = .ok (s', k)) : Keeps E b s s' := by
  obtain ⟨⟨t, rest, class_⟩, hclassify, h⟩ := bind_eq_ok_iff.mp h
  apply (keeps_classify hrerun hclassify).trans
  dsimp only at h
  split at h
  · cases h
    exact Keeps.of_eq rfl rfl rfl
  · split at h
    · exact keeps_external hfork h
    · cases h
      exact Keeps.of_eq rfl rfl rfl

theorem keeps_commandLine (hfork : ForksOthers E)
    (hrerun : ∀ s i s', rerun s i = .ok s' → Keeps E b s s')
    (h : commandLine E rerun s ref cmd = .ok (s', ran)) : Keeps E b s s' := by
  unfold commandLine at h
  split at h
  · cases h
    exact Keeps.of_eq rfl rfl rfl
  split at h
  · obtain ⟨⟨t, result⟩, hsingle, h⟩ := bind_eq_ok_iff.mp h
    cases h
    exact keeps_single hfork hrerun hsingle
  · split at h
    · cases h
    · obtain ⟨⟨t, result⟩, hfirst, h⟩ := bind_eq_ok_iff.mp h
      apply (keeps_edit _ _ _).trans
      apply (keeps_single hfork hrerun hfirst).trans
      dsimp only at h
      split at h
      · cases h
        exact Keeps.of_eq rfl rfl rfl
      · obtain ⟨⟨u, result'⟩, hsecond, h⟩ := bind_eq_ok_iff.mp h
        cases h
        exact keeps_single hfork hrerun hsecond

/-- The sign of the line is what `bg` is set to. -/
theorem keeps_commandWith (hfork : ForksOthers E)
    (hrerun : ∀ s i s', rerun s i = .ok s' → Keeps E b s s') (hsign : Unsigned E b cmd)
    (h : commandWith E rerun s ref cmd = .ok (s', ran)) : Keeps E b s s' := by
  obtain ⟨bg, hbg, h⟩ := bind_eq_ok_iff.mp h
  have hset : Keeps E b s { s with bg := bg } := by
    refine ⟨List.prefix_rfl, fun _ _ ↦ ⟨fun hon ↦ ?_, Evolves.refl _⟩⟩
    cases b with
    | true => rfl
    | false =>
        rw [hsign rfl, Except.ok.injEq] at hbg
        rw [hbg]
        exact hon
  apply hset.trans
  dsimp only at h
  split at h
  · exact (keeps_edit _ _ _).trans (keeps_commandLine hfork hrerun h)
  · exact keeps_commandLine hfork hrerun h

/-- By induction on the depth of the commands that are run again. -/
theorem keeps_command (hfork : ForksOthers E) (hsign : Unsigned E b cmd)
    (h : command E fuel s ref cmd = .ok (s', ran)) : Keeps E b s s' := by
  induction fuel generalizing s ref cmd s' ran with
  | zero => cases h
  | succ fuel ih =>
      refine keeps_commandWith hfork (fun s i s' hrerun ↦ ?_) hsign h
      unfold rerunWith at hrerun
      split at hrerun
      · cases hrerun
      · rename_i line hline
        obtain ⟨⟨u, ran'⟩, hcommand, hrerun⟩ := bind_eq_ok_iff.mp hrerun
        cases hrerun
        have hpre := recalled_prefix hcommand
        refine ⟨(List.prefix_append _ _).trans hpre, fun hall hbg ↦ ?_⟩
        have hline : Unsigned E b line := hall (i, line) (hpre.subset (by simp))
        exact (ih hline hcommand).table hall hbg

/-! ## Sessions -/

def argsPreprocessor (argv : List Str) : Str := [' '].intercalate argv

/-- The state in front of the first line, with the lines of the history file. -/
def start (E : System W) (argv cmdHis : List Str) (world : W) : State W where
  cmdHis := cmdHis
  processes := [⟨argsPreprocessor argv, E.self, false⟩]
  bg := false
  world := world
  recalled := []

inductive Event
  | line (cmd : Str)
  | child (pid : ℕ)

/-- A line returns to the prompt, or the handler of SIGCHLD, which stands between two lines here,
has waited for a child. -/
def Step (E : System W) (s : State W) : Event → State W → Prop
  | .line cmd, s' => ∃ fuel ran, command E fuel s none cmd = .ok (s', ran)
  | .child pid, s' => pid ≠ E.self ∧ s' = s.setKilled pid

/-- The processes that `shell_exit` kills, those not marked that lead no group of their own. -/
def shellExit (getpgid : ℕ → Option ℕ) (ps : List Process) : List ℕ :=
  (ps.filter fun p ↦ !p.killed && getpgid p.pid ≠ some p.pid).map Process.pid

variable {argv cmdHis : List Str} {world : W} {es fs : List Event}

theorem listed_start : Listed E.self b (start E argv cmdHis world).processes := by
  refine ⟨⟨_, [], rfl⟩, List.nodup_singleton _, fun _ p hp hne ↦ ?_⟩
  rw [List.mem_singleton.mp hp] at hne
  exact absurd rfl hne

theorem keeps_of_run (hfork : ForksOthers E) (hrun : Run (Step E) s es s')
    (hsign : ∀ cmd, .line cmd ∈ es → Unsigned E b cmd) : Keeps E b s s' := by
  induction hrun with
  | nil => exact Keeps.of_eq rfl rfl rfl
  | snoc _ hlast ih =>
      rename_i t u es e _
      apply (ih fun cmd hcmd ↦ hsign cmd (List.mem_append_left _ hcmd)).trans
      cases e with
      | line cmd =>
          obtain ⟨fuel, ran, hcommand⟩ := hlast
          exact keeps_command hfork (hsign cmd (by simp)) hcommand
      | child pid =>
          obtain ⟨hne, rfl⟩ := hlast
          exact ⟨List.prefix_rfl, fun _ hbg ↦ ⟨hbg, evolves_setKilled hne⟩⟩

theorem unsigned_true : Unsigned E true cmd := nofun

theorem evolves_of_run (hfork : ForksOthers E) (hrun : Run (Step E) s es s') :
    Evolves E.self true s.processes s'.processes := by
  have hkeeps := keeps_of_run hfork hrun fun _ _ ↦ unsigned_true
  exact (hkeeps.table (fun _ _ ↦ unsigned_true) fun _ ↦ rfl).2

/-- In every session the shell stands in front of the table and is not marked, no pid stands twice
and the entries keep their places.  If no line that has been run, again or for the first time, had
the background sign, every other entry is marked, and the end of the input kills no process but the
shell. -/
theorem table_of_session (hfork : ForksOthers E)
    (hrun : Run (Step E) (start E argv cmdHis world) es s) :
    (∃ cmd rest, s.processes = ⟨cmd, E.self, false⟩ :: rest) ∧
      (s.processes.map Process.pid).Nodup ∧
      (∀ fs s', Run (Step E) s fs s' →
        s.processes.map Process.pid <+: s'.processes.map Process.pid) ∧
      ((∀ cmd, .line cmd ∈ es → background E.front cmd = .ok false) →
        (∀ p ∈ s.recalled, background E.front p.2 = .ok false) →
        (∀ p ∈ s.processes, p.pid ≠ E.self → p.killed = true) ∧
          ∀ getpgid, ∀ pid ∈ shellExit getpgid s.processes, pid = E.self) := by
  have hlisted := (evolves_of_run hfork hrun).listed listed_start
  refine ⟨hlisted.shell, hlisted.nodup, fun fs s' h ↦ (evolves_of_run hfork h).grows, ?_⟩
  intro hlines hrecalled
  have hkeeps := keeps_of_run (b := false) hfork hrun fun cmd hcmd _ ↦ hlines cmd hcmd
  have hkilled := ((hkeeps.table (fun p hp _ ↦ hrecalled p hp) nofun).2.listed listed_start).killed rfl
  refine ⟨hkilled, fun getpgid pid hpid ↦ ?_⟩
  obtain ⟨p, hp, rfl⟩ := List.mem_map.mp hpid
  obtain ⟨hp, hleft⟩ := List.mem_filter.mp hp
  by_contra hne
  rw [hkilled p hp hne] at hleft
  cases hleft

/-- `ls` is run, and the list is shown. -/
theorem table_of_session_ls : ∃ s, Run (Step quietSystem) (start quietSystem [['s', 'h']] [] ())
      [.line ['l', 's', '\n'], .line ['p', 's', '\n']] s ∧
    ∀ p ∈ s.processes, p.pid ≠ 1 → p.killed = true := by
  have hls : Step quietSystem (start quietSystem [['s', 'h']] [] ()) (.line ['l', 's', '\n'])
      ⟨[['l', 's']], [⟨['s', 'h'], 1, false⟩, ⟨['l', 's'], 2, true⟩], false, (), []⟩ :=
    ⟨1, _, rfl⟩
  have hps : Step quietSystem
      ⟨[['l', 's']], [⟨['s', 'h'], 1, false⟩, ⟨['l', 's'], 2, true⟩], false, (), []⟩
      (.line ['p', 's', '\n'])
      ⟨[['l', 's'], ['p', 's']], [⟨['s', 'h'], 1, false⟩, ⟨['l', 's'], 2, true⟩], false, (), []⟩ :=
    ⟨1, _, rfl⟩
  have hrun := Run.cons hls (Run.single hps)
  have hfork : ForksOthers quietSystem := by
    rintro _ _ _ ⟨⟩
    decide
  obtain ⟨-, -, -, hunsigned⟩ := table_of_session hfork hrun
  refine ⟨_, hrun, (hunsigned (fun cmd hcmd ↦ ?_) nofun).1⟩
  rcases List.mem_pair.mp hcmd with h | h
  · cases h
    rfl
  · cases h
    rfl

end SystemProgramming.Shell
