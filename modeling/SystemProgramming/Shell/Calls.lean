import SystemProgramming.Lib.Termination
import SystemProgramming.Shell.Indexing
import SystemProgramming.Shell.Logical

/-!
# Lines that bring the shell down

`command` and `classify` call each other.  The shell goes on behind a line exactly if every call
that comes about through it finds the words and characters it asks for and is answered by the
system as the shell expects, and the calls come to an end.
-/

namespace SystemProgramming.Shell

variable {α β W : Type} {E : System W} {rerun : State W → ℕ → Result (State W)}
  {s t : State W} {ref : Option ℕ} {cmd A B line : Str} {op : Operator} {i n : ℕ} {k : ℤ}

/-- The shell comes back, or the command `exit` was given. -/
def Settled (x : Result α) : Prop := Returns x ∨ x = .error .quit

/-- A read in front of a buffer faults. -/
def System.strict (E : System W) : System W := { E with front := none }

/-! ## Single calls -/

/-- The line of the history that a command runs again. -/
def Recalls (s : State W) (cmd : Str) (i : ℕ) : Prop :=
  kindOf (words cmd) = .number ∧ indexingOf s.cmdHis (words cmd) = .ok (.rerun i) ∨
    kindOf (words cmd) = .search ∧ searchOf s.cmdHis (text cmd) (words cmd) = .ok (some i)

/-- What a command reads is there: a first word, a number that is an `int`, a last line of the
history for a bare `!`, an argument of `kill`, `stop` and `cont`.  The system does what the shell
relies on: it opens the redirection, shows the processes of `ps`, and its child is in the
background, exits with 0 or is killed by a signal.  The shell does not kill or stop itself. -/
def Sound (E : System W) (s : State W) (cmd : Str) : Prop :=
  (redirect cmd = none → E.blank s.world = true) ∧
  match kindOf (words cmd) with
  | .blank => False
  | .number => ∀ hash digits, words cmd = [hash :: digits] →
      numeral (digits.takeWhile Char.isDigit) < 2 ^ 31
  | .search => (words cmd).head?.map List.length = some 1 → 0 < historySize s.cmdHis
  | .signal sig =>
      (∀ info, redirect cmd = some info →
        (E.setupRedirection s.world info.type info.filename).isSome) ∧
      (words cmd).tail ≠ [] ∧
      ∀ arg, (words cmd).tail = [arg] →
        ∀ p, s.processes.find? (fun p ↦ p.pid = atoi arg) = some p → p.pid = E.self → sig = .cont
  | .ps => (words cmd).tail = [] → ∀ p ∈ s.processes, p.killed ∨ E.readable s.world p.pid
  | .external => ∃ status, E.Ends s cmd status ∧
      (s.bg ∨ status = .exited 0 ∨ status = .signaled)
  | _ => True

/-- The state behind the test for the background sign. -/
def State.tested (s : State W) (ref : Option ℕ) (cmd : Str) : State W :=
  if signed cmd then { s with bg := true }.edit ref (List.take (cmd.length - 2))
  else { s with bg := false }

inductive Call (W : Type)
  | command (s : State W) (ref : Option ℕ) (cmd : Str)
  | classify (s : State W) (ref : Option ℕ) (cmd : Str)

/-- The calls that a call makes.  The second command of a line is classified in the state behind the
first one. -/
inductive Calls (E : System W) : Call W → Call W → Prop
  | whole {s : State W} {ref : Option ℕ} {cmd : Str} : unsigned cmd ≠ ['\n'] →
      logical (unsigned cmd) = none →
      Calls E (.command s ref cmd) (.classify (s.tested ref cmd) ref (unsigned cmd))
  | first {s : State W} {ref : Option ℕ} {cmd A B : Str} {op : Operator} :
      unsigned cmd ≠ ['\n'] → logical (unsigned cmd) = some op →
      strstr op.text (unsigned cmd) = some (A, B) →
      Calls E (.command s ref cmd)
        (.classify ((s.tested ref cmd).edit ref (List.take A.length)) ref A)
  | second {s t : State W} {ref : Option ℕ} {cmd A B : Str} {op : Operator} {fuel : ℕ} {k : ℤ} :
      unsigned cmd ≠ ['\n'] → logical (unsigned cmd) = some op →
      strstr op.text (unsigned cmd) = some (A, B) →
      single E (rerunWith (command E fuel)) ((s.tested ref cmd).edit ref (List.take A.length)) ref
        A = .ok (t, k) →
      ¬ (op = .and ∧ k = 0 ∨ op = .or ∧ k ≠ 0) →
      Calls E (.command s ref cmd) (.classify t none B)
  | again {s : State W} {ref : Option ℕ} {cmd line : Str} {i : ℕ} :
      Recalls (s.prepared ref cmd) cmd i → (s.prepared ref cmd).cmdHis[i]? = some line →
      Calls E (.classify s ref cmd) (.command { s.prepared ref cmd with
        recalled := (s.prepared ref cmd).recalled ++ [(i, line)] } (some i) line)

namespace Call

/-- `command` reads the last character but one. -/
def Sound (E : System W) : Call W → Prop
  | command _ _ cmd => 2 ≤ cmd.length
  | classify s ref cmd => Shell.Sound E (s.prepared ref cmd) cmd

def Settles (E : System W) (fuel : ℕ) : Call W → Prop
  | command s ref cmd => Settled (Shell.command E fuel s ref cmd)
  | classify s ref cmd => Settled (single E (rerunWith (Shell.command E fuel)) s ref cmd)

end Call

/-! ## Results -/

@[simp] theorem settled_ok (a : α) : Settled (.ok a : Result α) := .inl ⟨a, rfl⟩

@[simp] theorem settled_pure (a : α) : Settled (pure a : Result α) := .inl ⟨a, rfl⟩

@[simp] theorem settled_error_iff {stop : Stop} :
    Settled (.error stop : Result α) ↔ stop = .quit := by
  simp [Settled]

theorem settled_iff_returns {x : Result α} (h : x ≠ .error .quit) : Settled x ↔ Returns x :=
  or_iff_left h

theorem Settled.ne_hang {x : Result α} (h : Settled x) : x ≠ .error .hang := by
  rintro rfl
  simp at h

theorem settled_bind_iff {x : Result α} {f : α → Result β} :
    Settled (x >>= f) ↔ Settled x ∧ ∀ a, x = .ok a → Settled (f a) := by
  cases x with
  | ok a =>
      rw [and_iff_right (settled_ok a)]
      constructor
      · rintro h _ ⟨⟩
        exact h
      · exact fun h ↦ h a rfl
  | error stop =>
      have hbind : (Except.error stop >>= f : Result β) = .error stop := rfl
      simp [hbind]

theorem settled_bind_pure_iff {x : Result α} {g : α → β} :
    Settled (x >>= fun a ↦ pure (g a)) ↔ Settled x := by
  rw [settled_bind_iff]
  simp

theorem Deepens.settled {x y : Result α} (h : Deepens x y) (hx : Settled x) : Settled y := by
  rcases hx with hok | hquit
  · exact .inl (h.returns hok)
  · refine .inr ((h.eq_of_ne ?_).trans hquit)
    simp [hquit]

theorem external_ne_quit : external E s ref cmd ≠ .error .quit := by
  unfold external
  dsimp only
  split
  · simp
  · split
    · simp
    · split
      · simp
      · split <;> simp
      · simp

theorem setupRedirection_ne_quit {redirection : Option Redirection} :
    setupRedirection E s redirection ≠ .error .quit := by
  unfold setupRedirection
  split
  · simp
  · split <;> simp

theorem pure_ne_quit (a : α) : (pure a : Result α) ≠ .error .quit := by
  intro h
  cases h

theorem bind_ne_quit {x : Result α} {f : α → Result β} (hx : x ≠ .error .quit)
    (hf : ∀ a, f a ≠ .error .quit) : (x >>= f) ≠ .error .quit := by
  cases x with
  | error stop => exact fun h ↦ hx (Except.error.inj h ▸ rfl)
  | ok a => exact hf a

theorem signalProcess_ne_quit {redirection : Option Redirection} {sig : Signal} {args : List Str} :
    signalProcess E s redirection sig cmd args ≠ .error .quit := by
  refine bind_ne_quit setupRedirection_ne_quit fun u ↦ ?_
  rcases args with _ | ⟨arg, _ | ⟨arg', args⟩⟩
  · simp
  · dsimp only
    split
    · exact pure_ne_quit _
    · split
      · simp
      · split
        · simp
        · exact pure_ne_quit _
  · exact pure_ne_quit _

/-- The digits in front are read before anything else is looked at. -/
theorem settled_numberOf_iff {ws : List Str} : Settled (numberOf ws) ↔
    ∀ hash digits, ws = [hash :: digits] → numeral (digits.takeWhile Char.isDigit) < 2 ^ 31 := by
  unfold numberOf
  split
  · next hash c text =>
    have hzero : (0 : ℕ) < 2 ^ 31 := by decide
    rw [parseNumber_eq hzero, Nat.zero_mul, Nat.zero_add]
    constructor
    · rintro h _ _ ⟨⟩
      by_contra hover
      rw [if_neg hover] at h
      simp at h
    · intro h
      rw [if_pos (h hash (c :: text) rfl)]
      simp
  · next hne =>
    refine iff_of_true (by simp) ?_
    rintro hash (_ | ⟨c, text⟩) rfl
    · decide
    · exact absurd rfl (hne hash c text)

theorem settled_indexingOf_iff {cmdHis ws : List Str} : Settled (indexingOf cmdHis ws) ↔
    ∀ hash digits, ws = [hash :: digits] → numeral (digits.takeWhile Char.isDigit) < 2 ^ 31 := by
  rw [← settled_numberOf_iff]
  unfold indexingOf
  rw [settled_bind_iff]
  refine and_iff_left fun found _ ↦ ?_
  cases found with
  | none => simp
  | some num =>
      dsimp only
      split <;> simp

theorem settled_searchOf_iff {cmdHis ws : List Str} : Settled (searchOf cmdHis cmd ws) ↔
    (ws.head?.map List.length = some 1 → 0 < historySize cmdHis) := by
  unfold searchOf
  generalize historySize cmdHis = size
  split
  · next hbare =>
    rw [imp_iff_right hbare]
    split
    · next hsize => simp [hsize]
    · split
      · next hle => simp [not_lt.mpr hle]
      · next hle => simpa using hle
  · next hbare => simp [hbare]

theorem settled_dispatch_iff (hblank : redirect cmd = none → E.blank s.world = true)
    (hkind : kindOf (words cmd) ≠ .external) :
    Settled (dispatch E rerun s (redirect cmd) (text cmd)) ↔
      Sound E s cmd ∧ ∀ i, Recalls s cmd i → Settled (rerun s i) := by
  unfold dispatch Sound Recalls
  rw [← words, and_iff_right hblank]
  cases hcases : kindOf (words cmd) <;> simp only [hcases]
  case blank => simp
  case cd =>
    split
    · split <;> simp
    · simp
  case history => split <;> simp
  case number =>
    rw [settled_bind_iff, settled_indexingOf_iff]
    refine and_congr_right fun _ ↦ ?_
    constructor
    · rintro h i (⟨-, hi⟩ | ⟨hno, -⟩)
      · exact settled_bind_pure_iff.mp (h _ hi)
      · cases hno
    · intro h action haction
      cases action with
      | invalid => simp
      | rerun num => exact settled_bind_pure_iff.mpr (h num (.inl ⟨trivial, haction⟩))
      | invalidIndex => simp
  case search =>
    rw [settled_bind_iff, settled_searchOf_iff]
    refine and_congr_right fun _ ↦ ?_
    constructor
    · rintro h i (⟨hno, -⟩ | ⟨-, hi⟩)
      · cases hno
      · exact settled_bind_pure_iff.mp (h _ hi)
    · intro h found hfound
      cases found with
      | none => simp
      | some i => exact settled_bind_pure_iff.mpr (h i (.inr ⟨trivial, hfound⟩))
  case exit => split <;> simp
  case signal sig =>
    rw [settled_iff_returns signalProcess_ne_quit, returns_signalProcess_iff]
    simp
  case ps =>
    split
    · split
      · simp_all
      · simp_all
    · simp [*]
  case external => exact absurd hcases hkind

/-- An external command ends the shell with a failure of its own. -/
theorem settled_single_external (hblank : redirect cmd = none → E.blank s.world = true)
    (hkind : kindOf (words cmd) = .external) :
    Settled (single E rerun s ref cmd) ↔ Sound E (s.prepared ref cmd) cmd := by
  have hworld := (s.prepared_frame ref cmd).1
  have hrun : single E rerun s ref cmd = external E (s.prepared ref cmd) ref (text cmd) := by
    rw [single, classify_eq_dispatch hblank, dispatch_external hkind]
    rfl
  rw [hrun, settled_iff_returns external_ne_quit, returns_external_iff, Sound, hworld,
    and_iff_right hblank, hkind]

theorem settled_single_iff : Settled (single E rerun s ref cmd) ↔
    Sound E (s.prepared ref cmd) cmd ∧
      ∀ i, Recalls (s.prepared ref cmd) cmd i → Settled (rerun (s.prepared ref cmd) i) := by
  have hworld := (s.prepared_frame ref cmd).1
  by_cases hblank : redirect cmd = none → E.blank s.world = true
  · by_cases hkind : kindOf (words cmd) = .external
    · have hnone : ∀ i, ¬ Recalls (s.prepared ref cmd) cmd i := by
        rintro i (⟨hnumber, -⟩ | ⟨hsearch, -⟩)
        · cases hkind.symm.trans hnumber
        · cases hkind.symm.trans hsearch
      rw [settled_single_external hblank hkind]
      exact (and_iff_left fun i hi ↦ absurd hi (hnone i)).symm
    · rw [← settled_dispatch_iff (by rwa [hworld]) hkind, single, classify_eq_dispatch hblank,
        settled_bind_iff, settled_bind_pure_iff]
      refine and_iff_left fun r hr ↦ ?_
      obtain ⟨⟨t, class_⟩, hclass, hpure⟩ := bind_eq_ok_iff.mp hr
      cases hpure
      have hne : class_ ≠ 6 := fun h ↦ hkind ((dispatch_class hclass).1.mp h)
      dsimp only
      split
      · simp
      · simp
  · refine iff_of_false (fun hsettled ↦ ?_) fun h ↦ hblank (hworld ▸ h.1.1)
    have hclassify : Settled (classify E rerun s ref cmd) := (settled_bind_iff.mp hsettled).1
    rw [Classical.not_imp] at hblank
    rw [classify, hblank.1] at hclassify
    simp [hblank.2] at hclassify

/-! ## Whole lines -/

theorem settled_commandLine_none (hnewline : cmd ≠ ['\n']) (h : logical cmd = none) :
    Settled (commandLine E rerun s ref cmd) ↔ Settled (single E rerun s ref cmd) := by
  rw [commandLine, if_neg hnewline, h]
  exact settled_bind_pure_iff

theorem settled_commandLine_some (hnewline : cmd ≠ ['\n']) (h : logical cmd = some op)
    (hcut : strstr op.text cmd = some (A, B)) :
    Settled (commandLine E rerun s ref cmd) ↔
      Settled (single E rerun (s.edit ref (List.take A.length)) ref A) ∧
      ∀ t k, single E rerun (s.edit ref (List.take A.length)) ref A = .ok (t, k) →
        ¬ (op = .and ∧ k = 0 ∨ op = .or ∧ k ≠ 0) → Settled (single E rerun t none B) := by
  rw [commandLine, if_neg hnewline, h]
  simp only [hcut]
  rw [settled_bind_iff, Prod.forall]
  refine and_congr_right fun _ ↦ forall_congr' fun t ↦ forall_congr' fun k ↦
    imp_congr_right fun _ ↦ ?_
  split
  · next hskip => simp [hskip]
  · next hgo =>
    rw [settled_bind_pure_iff]
    exact (imp_iff_right hgo).symm

theorem exists_cut (h : logical cmd = some op) : ∃ A B, strstr op.text cmd = some (A, B) := by
  unfold logical at h
  split_ifs at h with hand hor hseq
  all_goals
    cases h
    obtain ⟨⟨A, B⟩, hcut⟩ := Option.isSome_iff_exists.mp ‹_›
    exact ⟨A, B, hcut⟩

theorem commandWith_eq (hlength : 2 ≤ cmd.length) :
    commandWith E rerun s ref cmd = commandLine E rerun (s.tested ref cmd) ref (unsigned cmd) := by
  have hbg : background E.front cmd = .ok (signed cmd) := by
    unfold background
    rw [if_pos hlength]
    simp [signed, hlength]
  unfold commandWith State.tested unsigned
  rw [hbg]
  by_cases hsigned : signed cmd = true
  · rw [if_pos hsigned, if_pos hsigned]
    change (if signed cmd = true ∧ 2 ≤ cmd.length then _ else _) = _
    rw [if_pos ⟨hsigned, hlength⟩, hsigned]
  · rw [if_neg hsigned, if_neg hsigned]
    change (if signed cmd = true ∧ 2 ≤ cmd.length then _ else _) = _
    rw [if_neg fun h ↦ hsigned h.1, Bool.eq_false_iff.mpr hsigned]

theorem not_settled_commandWith (hfront : E.front = none) (hlength : ¬ 2 ≤ cmd.length) :
    ¬ Settled (commandWith E rerun s ref cmd) := by
  have hbg : background E.front cmd = .error .undefined := by
    unfold background
    rw [if_neg hlength, hfront]
  unfold commandWith
  rw [settled_bind_iff, hbg]
  simp

/-! ## All calls -/

theorem Call.Settles.mono {m : ℕ} {call : Call W} (h : call.Settles E m) (hle : m ≤ n) :
    call.Settles E n := by
  cases call with
  | command s ref cmd => exact (deepens_command hle s ref cmd).settled h
  | classify s ref cmd => exact (deepens_single (deepens_again hle)).settled h

theorem lt_length_of_indexingOf {cmdHis ws : List Str}
    (h : indexingOf cmdHis ws = .ok (.rerun i)) : i < cmdHis.length := by
  unfold indexingOf at h
  obtain ⟨found, -, h⟩ := bind_eq_ok_iff.mp h
  cases found with
  | none => cases h
  | some num =>
      dsimp only at h
      split at h
      · next hlt =>
        cases h
        exact Int.ofNat_lt.mp (hlt.trans_le (historySize_le cmdHis))
      · cases h

theorem lt_length_of_searchOf {cmdHis ws : List Str}
    (h : searchOf cmdHis cmd ws = .ok (some i)) : i < cmdHis.length := by
  have hsize := historySize_le cmdHis
  unfold searchOf at h
  generalize historySize cmdHis = size at h hsize
  split at h
  · split at h
    · cases h
    · split at h
      · cases h
      · cases h
        omega
  · obtain ⟨k, hk, rfl⟩ := Option.map_eq_some_iff.mp (Except.ok.inj h)
    have hlt := (List.findIdx?_eq_some_iff_findIdx_eq.mp hk).1
    rw [List.length_reverse] at hlt
    omega

/-- Only lines that are there are run again. -/
theorem Recalls.exists_line (h : Recalls s cmd i) : ∃ line, s.cmdHis[i]? = some line := by
  have hlt : i < s.cmdHis.length := by
    rcases h with ⟨-, hnumber⟩ | ⟨-, hsearch⟩
    · exact lt_length_of_indexingOf hnumber
    · exact lt_length_of_searchOf hsearch
  exact ⟨_, List.getElem?_eq_getElem hlt⟩

theorem settled_rerunWith_iff {run : State W → Option ℕ → Str → Result (State W × List Str)}
    (hline : s.cmdHis[i]? = some line) : Settled (rerunWith run s i) ↔
      Settled (run { s with recalled := s.recalled ++ [(i, line)] } (some i) line) := by
  unfold rerunWith
  rw [hline]
  exact settled_bind_pure_iff

/-- A command is settled exactly if it is sound and the line that it runs again is settled. -/
theorem settles_classify_iff : (Call.classify s ref cmd).Settles E n ↔
    (Call.classify s ref cmd).Sound E ∧
      ∀ call, Calls E (.classify s ref cmd) call → call.Settles E n := by
  rw [Call.Settles, settled_single_iff, Call.Sound]
  refine and_congr_right fun _ ↦ ?_
  constructor
  · intro h call hcall
    cases hcall with
    | again hrecalls hline => exact (settled_rerunWith_iff hline).mp (h _ hrecalls)
  · intro h i hrecalls
    obtain ⟨line, hline⟩ := hrecalls.exists_line
    exact (settled_rerunWith_iff hline).mpr (h _ (.again hrecalls hline))

/-- With one more level, a line is settled exactly if the test for the sign reads a character and
all of its commands are settled. -/
theorem settles_command_iff (hfront : E.front = none) :
    (Call.command s ref cmd).Settles E (n + 1) ↔
      (Call.command s ref cmd).Sound E ∧
      ∀ call, Calls E (.command s ref cmd) call → call.Settles E n := by
  rw [Call.Settles, command, Call.Sound]
  by_cases hlength : 2 ≤ cmd.length
  · rw [commandWith_eq hlength, and_iff_right hlength]
    constructor
    · intro h call hcall
      cases hcall with
      | whole hnewline hlogical => exact (settled_commandLine_none hnewline hlogical).mp h
      | first hnewline hlogical hcut =>
          exact ((settled_commandLine_some hnewline hlogical hcut).mp h).1
      | second hnewline hlogical hcut hsingle hgo =>
          obtain ⟨hfirst, hsecond⟩ := (settled_commandLine_some hnewline hlogical hcut).mp h
          exact hsecond _ _ (single_functional hsingle hfirst.ne_hang) hgo
    · intro h
      by_cases hnewline : unsigned cmd = ['\n']
      · rw [commandLine, if_pos hnewline]
        simp
      cases hlogical : logical (unsigned cmd) with
      | none =>
          rw [settled_commandLine_none hnewline hlogical]
          exact h _ (.whole hnewline hlogical)
      | some op =>
          obtain ⟨A, B, hcut⟩ := exists_cut hlogical
          rw [settled_commandLine_some hnewline hlogical hcut]
          exact ⟨h _ (.first hnewline hlogical hcut), fun t k hsingle hgo ↦
            h _ (.second hnewline hlogical hcut hsingle hgo)⟩
  · exact iff_of_false (not_settled_commandWith hfront hlength) fun h ↦ hlength h.1

/-- By induction on the levels. -/
theorem Call.Settles.everywhere (hfront : E.front = none) {call : Call W} (h : call.Settles E n) :
    Everywhere (Calls E) (Call.Sound E) call := by
  have hcommand (s : State W) (ref : Option ℕ) (cmd : Str) (n : ℕ)
      (h : (Call.command s ref cmd).Settles E n) :
      Everywhere (Calls E) (Call.Sound E) (.command s ref cmd) := by
    induction n generalizing s ref cmd with
    | zero => exact absurd h (by simp [Call.Settles, Shell.command])
    | succ n ih =>
        obtain ⟨hsound, hcalls⟩ := (settles_command_iff hfront).mp h
        refine .intro hsound fun inner hinner ↦ ?_
        have hsettles := hcalls inner hinner
        cases inner with
        | command s ref cmd => exact ih s ref cmd hsettles
        | classify s ref cmd =>
            obtain ⟨hsound', hcalls'⟩ := settles_classify_iff.mp hsettles
            refine .intro hsound' fun again hagain ↦ ?_
            cases hagain with
            | again hrecalls hline =>
                exact ih _ _ _ (hcalls' _ (.again hrecalls hline))
  cases call with
  | command s ref cmd => exact hcommand s ref cmd n h
  | classify s ref cmd =>
      obtain ⟨hsound, hcalls⟩ := settles_classify_iff.mp h
      refine .intro hsound fun again hagain ↦ ?_
      cases hagain with
      | again hrecalls hline => exact hcommand _ _ _ n (hcalls _ (.again hrecalls hline))

theorem Recalls.eq {j : ℕ} (hi : Recalls s cmd i) (hj : Recalls s cmd j) : i = j := by
  rcases hi with ⟨hkind, hi⟩ | ⟨hkind, hi⟩ <;> rcases hj with ⟨hkind', hj⟩ | ⟨hkind', hj⟩
  · have h := hi.symm.trans hj
    simpa using h
  · cases hkind.symm.trans hkind'
  · cases hkind.symm.trans hkind'
  · have h := hi.symm.trans hj
    simpa using h

/-- A command runs at most one line again. -/
theorem calls_classify_unique {call call' : Call W} (h : Calls E (.classify s ref cmd) call)
    (h' : Calls E (.classify s ref cmd) call') : call = call' := by
  cases h with
  | again hrecalls hline =>
      cases h' with
      | again hrecalls' hline' =>
          obtain rfl := hrecalls.eq hrecalls'
          obtain rfl := Option.some.inj (hline.symm.trans hline')
          rfl

/-- At a level at which the first command is settled, it comes back in the state in which the second
one is classified. -/
theorem calls_command_some (hlogical : logical (unsigned cmd) = some op)
    (hcut : strstr op.text (unsigned cmd) = some (A, B))
    (hfirst : (Call.classify ((s.tested ref cmd).edit ref (List.take A.length)) ref A).Settles E n)
    {call : Call W} (h : Calls E (.command s ref cmd) call) :
    call = .classify ((s.tested ref cmd).edit ref (List.take A.length)) ref A ∨
      ∃ t k, single E (rerunWith (command E n)) ((s.tested ref cmd).edit ref (List.take A.length))
        ref A = .ok (t, k) ∧ call = .classify t none B := by
  cases h with
  | whole _ hnone => cases hnone.symm.trans hlogical
  | first _ hlogical' hcut' =>
      obtain rfl := Option.some.inj (hlogical.symm.trans hlogical')
      obtain ⟨rfl, rfl⟩ := Prod.mk.inj (Option.some.inj (hcut.symm.trans hcut'))
      exact .inl rfl
  | @second _ t _ _ _ _ _ _ k _ hlogical' hcut' hsingle _ =>
      obtain rfl := Option.some.inj (hlogical.symm.trans hlogical')
      obtain ⟨rfl, rfl⟩ := Prod.mk.inj (Option.some.inj (hcut.symm.trans hcut'))
      exact .inr ⟨t, k, single_functional hsingle hfirst.ne_hang, rfl⟩

/-- The two commands of a line need a level each, and both are settled at the larger one. -/
theorem exists_level_command
    (h : ∀ call, Calls E (.command s ref cmd) call → ∃ n, call.Settles E n) :
    ∃ n, ∀ call, Calls E (.command s ref cmd) call → call.Settles E n := by
  by_cases hnewline : unsigned cmd = ['\n']
  · refine ⟨0, fun call hcall ↦ ?_⟩
    cases hcall <;> contradiction
  cases hlogical : logical (unsigned cmd) with
  | none =>
      obtain ⟨n, hn⟩ := h _ (.whole hnewline hlogical)
      refine ⟨n, fun call hcall ↦ ?_⟩
      cases hcall with
      | whole => exact hn
      | first _ hsome => cases hlogical.symm.trans hsome
      | second _ hsome => cases hlogical.symm.trans hsome
  | some op =>
      obtain ⟨A, B, hcut⟩ := exists_cut hlogical
      obtain ⟨n, hn⟩ := h _ (.first hnewline hlogical hcut)
      by_cases hsecond : ∃ r, single E (rerunWith (command E n))
          ((s.tested ref cmd).edit ref (List.take A.length)) ref A = .ok r ∧
          Calls E (.command s ref cmd) (.classify r.1 none B)
      · obtain ⟨r, hr, hcallr⟩ := hsecond
        obtain ⟨m, hm⟩ := h _ hcallr
        refine ⟨max n m, fun call hcall ↦ ?_⟩
        obtain rfl | ⟨t, k, hsingle, rfl⟩ := calls_command_some hlogical hcut hn hcall
        · exact hn.mono (le_max_left n m)
        · obtain rfl := Except.ok.inj (hsingle.symm.trans hr)
          exact hm.mono (le_max_right n m)
      · refine ⟨n, fun call hcall ↦ ?_⟩
        obtain rfl | ⟨t, k, hsingle, rfl⟩ := calls_command_some hlogical hcut hn hcall
        · exact hn
        · exact absurd ⟨_, hsingle, hcall⟩ hsecond

theorem exists_level_classify
    (h : ∀ call, Calls E (.classify s ref cmd) call → ∃ n, call.Settles E n) :
    ∃ n, ∀ call, Calls E (.classify s ref cmd) call → call.Settles E n := by
  by_cases hagain : ∃ inner, Calls E (.classify s ref cmd) inner
  · obtain ⟨inner, hinner⟩ := hagain
    obtain ⟨n, hn⟩ := h inner hinner
    refine ⟨n, fun call hcall ↦ ?_⟩
    rwa [calls_classify_unique hcall hinner]
  · exact ⟨0, fun call hcall ↦ absurd ⟨call, hcall⟩ hagain⟩

/-- By induction on the calls. -/
theorem Call.Settles.of_everywhere (hfront : E.front = none) {call : Call W}
    (h : Everywhere (Calls E) (Call.Sound E) call) : ∃ n, call.Settles E n := by
  induction h with
  | @intro call hsound hcalls ih =>
      cases call with
      | command s ref cmd =>
          obtain ⟨n, hn⟩ := exists_level_command ih
          exact ⟨n + 1, (settles_command_iff hfront).mpr ⟨hsound, hn⟩⟩
      | classify s ref cmd =>
          obtain ⟨n, hn⟩ := exists_level_classify ih
          exact ⟨n, settles_classify_iff.mpr ⟨hsound, hn⟩⟩

/-- The shell goes on behind a line, or is told to exit by it, if and only if every call that comes
about through it is sound and there is no endless chain of calls. -/
theorem settled_iff (E : System W) (s : State W) (ref : Option ℕ) (cmd : Str) :
    (∃ fuel, Settled (command E.strict fuel s ref cmd)) ↔
      (∀ call, Relation.ReflTransGen (Calls E.strict) (.command s ref cmd) call →
        call.Sound E.strict) ∧ Acc (flip (Calls E.strict)) (.command s ref cmd) := by
  rw [← everywhere_iff]
  constructor
  · rintro ⟨fuel, hsettled⟩
    exact Call.Settles.everywhere rfl hsettled
  · exact Call.Settles.of_everywhere rfl

/-- `kill` without an argument reads the second word of a single one. -/
theorem kill_without_argument : ¬ ∃ fuel, Settled
    (command quietSystem.strict fuel (started []) none ['k', 'i', 'l', 'l', '\n']) := by
  rintro ⟨fuel, hsettled⟩
  cases fuel with
  | zero => exact hsettled.ne_hang rfl
  | succ fuel =>
      have hrun : command quietSystem.strict (fuel + 1) (started []) none
          ['k', 'i', 'l', 'l', '\n'] = .error .abort := rfl
      rw [hrun, settled_error_iff] at hsettled
      cases hsettled

end SystemProgramming.Shell
