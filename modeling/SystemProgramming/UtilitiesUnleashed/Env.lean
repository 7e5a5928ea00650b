import SystemProgramming.Lib.CBuffer

/-!
# The arguments of `env`

`parse_input` looks for the separator `--`, cuts the arguments in front of it at their first `=` and
copies the ones behind it.  The arrays that it fills are blocks of `malloc`, so their cells are not
initialised before.
-/

namespace SystemProgramming.UtilitiesUnleashed

abbrev Str := List Char

/-- A pointer in an array. -/
inductive Cell
  | unset
  | null
  | str (text : Str)
  deriving DecidableEq

/-- How the program ends before it starts a process: it calls `exit`, its assertion fails, or it
uses a variable that is not set or leaves its memory. -/
inductive Stop
  | exit
  | abort
  | undefined
  deriving DecidableEq

abbrev Result := Except Stop

/-- The blocks for which `parse_input` calls `malloc`. -/
inductive Block
  | key
  | value
  | keyAt (i : ℕ)
  | valueAt (i : ℕ)
  | cmd
  | cmdAt (j : ℕ)
  deriving DecidableEq

structure Parsed where
  index : ℕ
  cmd : List Cell
  key : List Cell
  value : List Cell
  deriving DecidableEq

def separator : Str := ['-', '-']

def name (arg : Str) : Str := arg.takeWhile (· ≠ '=')

def text (arg : Str) : Str := (arg.dropWhile (· ≠ '=')).tail

/-! ## The program -/

/-- The variable of the loop behind it, and `index`, if that has been set. -/
def separatorLoop : ℕ → List Str → ℕ × Option ℕ
  | i, [] => (i, none)
  | i, arg :: args => if arg = separator then (i, some i) else separatorLoop (i + 1) args

def store (cells : List Cell) (i : ℕ) (cell : Cell) : Result (List Cell) :=
  match storeAt cells i cell with
  | none => .error .undefined
  | some cells => .ok cells

section Program

variable (grants : Block → Bool)

/-- The argument is cut at its first `=`, if there is one. -/
def parseVariable (i : ℕ) (arg : Str) (key value : List Cell) : Result (List Cell × List Cell) :=
  if '=' ∈ arg then
    if grants (.keyAt i) = false then .error .exit
    else do
      let key ← store key i (.str (name arg))
      if grants (.valueAt i) = false then .error .exit
      else do
        let value ← store value i (.str (text arg))
        pure (key, value)
  else .ok (key, value)

/-- The loop over the arguments in front of the separator.  The terminators are written in each of
its rounds. -/
def parseLoop (index : ℕ) : ℕ → List Str → List Cell → List Cell → Result (List Cell × List Cell)
  | _, [], key, value => .ok (key, value)
  | i, arg :: args, key, value => do
      let (key, value) ← parseVariable grants i arg key value
      let key ← store key (index - 1) .null
      let value ← store value (index - 1) .null
      parseLoop index (i + 1) args key value

/-- A string is copied to the block of `malloc` without a test. -/
def cmdLoop : ℕ → List Str → List Cell → Result (List Cell)
  | j, [], cmd => store cmd j .null
  | j, arg :: args, cmd =>
      if grants (.cmdAt j) = false then .error .undefined
      else do
        let cmd ← store cmd j (.str arg)
        cmdLoop (j + 1) args cmd

def parseInput (argv : List Str) : Result Parsed :=
  let (i, index) := separatorLoop 1 argv.tail
  if i + 1 = argv.length then .error .abort
  else match index with
    | none => .error .undefined
    | some index =>
        if grants .key = false then .error .exit
        else if grants .value = false then .error .exit
        else do
          let (key, value) ← parseLoop grants index 0 (argv.tail.take (index - 1))
            (List.replicate index .unset) (List.replicate index .unset)
          if grants .cmd = false then .error .undefined
          else do
            let cmd ← cmdLoop grants 0 (argv.drop (index + 1))
              (List.replicate (argv.length - index) .unset)
            pure ⟨index, cmd, key, value⟩

/-- What `main` has when it starts the child.  Whether `print_time_usage` exits is a parameter. -/
def main (usageExits : Bool) (argv : List Str) : Result Parsed :=
  if argv.length < 3 ∧ usageExits then .error .exit else parseInput grants argv

end Program

/-- The strings are freed up to the first `NULL`. -/
def destroy : List Cell → Result (List Cell)
  | [] => .error .undefined
  | .unset :: _ => .error .undefined
  | .null :: cells => .ok (.null :: cells)
  | .str _ :: cells => do
      let cells ← destroy cells
      pure (.null :: cells)

def destroyAll (p : Parsed) : Result Unit := do
  let _ ← destroy p.cmd
  let _ ← destroy p.key
  let _ ← destroy p.value

/-- The parent after `waitpid`.  If the command has failed and `print_exec_failed` comes back, the
arrays are read once more that have been freed. -/
def parent (failed execExits : Bool) (p : Parsed) : Result Unit :=
  if failed then do
    destroyAll p
    if execExits then .error .exit else .error .undefined
  else destroyAll p

/-! ## What it should do -/

/-- The arguments in front of the first separator and behind it. -/
structure Separated (argv vars command : List Str) : Prop where
  tail_eq : argv.tail = vars ++ separator :: command
  not_mem : separator ∉ vars

structure Accepted (argv vars command : List Str) : Prop extends Separated argv vars command where
  command_ne : command ≠ []
  assigns : ∀ arg ∈ vars, '=' ∈ arg

def expected (vars command : List Str) : Parsed where
  index := vars.length + 1
  cmd := command.map .str ++ [.null]
  key := vars.map (fun arg ↦ .str (name arg)) ++ [.null]
  value := vars.map (fun arg ↦ .str (text arg)) ++ [.null]

/-- The program ends in good order, before a process is started. -/
def Rejected (x : Result Parsed) : Prop := x = .error .exit ∨ x = .error .abort

structure Correct (grants : Block → Bool) (usageExits : Bool) (argv : List Str) : Prop where
  accepts : ∀ vars command, Accepted argv vars command →
    main grants usageExits argv = .ok (expected vars command)
  rejects : (¬ ∃ vars command, Accepted argv vars command) →
    Rejected (main grants usageExits argv)

/-! ## When it does so -/

/-- The blocks for the variables that are set in the arguments from `i` on. -/
def GrantedFrom (grants : Block → Bool) (i : ℕ) (args : List Str) : Prop :=
  ∀ k arg, args[k]? = some arg → '=' ∈ arg →
    grants (.keyAt (i + k)) = true ∧ grants (.valueAt (i + k)) = true

/-- The blocks that are tested. -/
structure Granted (grants : Block → Bool) (vars : List Str) : Prop where
  key : grants .key = true
  value : grants .value = true
  strings : GrantedFrom grants 0 vars

/-- The blocks that are not tested. -/
structure CmdGranted (grants : Block → Bool) (command : List Str) : Prop where
  cmd : grants .cmd = true
  cmdAt : ∀ j < command.length, grants (.cmdAt j) = true

variable {grants : Block → Bool} {usageExits : Bool} {argv args vars command front : List Str}
  {index i j : ℕ} {arg : Str} {cells keys values : List Cell} {last last' cell : Cell}

/-! ## The loops -/

theorem separatorLoop_of_not_mem (h : separator ∉ args) :
    separatorLoop i args = (i + args.length, none) := by
  induction args generalizing i with
  | nil => rfl
  | cons arg args ih =>
      rw [List.mem_cons, not_or] at h
      rw [separatorLoop, if_neg (Ne.symm h.1), ih h.2, List.length_cons, Nat.add_right_comm,
        Nat.add_assoc]

theorem separatorLoop_append (h : separator ∉ vars) :
    separatorLoop i (vars ++ separator :: command) = (i + vars.length, some (i + vars.length)) := by
  induction vars generalizing i with
  | nil => exact if_pos rfl
  | cons arg args ih =>
      rw [List.mem_cons, not_or] at h
      rw [List.cons_append, separatorLoop, if_neg (Ne.symm h.1), ih h.2, List.length_cons,
        Nat.add_right_comm, Nat.add_assoc]

theorem store_eq (h : keys.length = i) :
    store (keys ++ last :: cells) i cell = .ok (keys ++ cell :: cells) := by
  subst h
  rw [store, storeAt_eq]

/-- What stands in the array for an argument, if there is an array cell for it at all. -/
def cellOf (f : Str → Str) (arg : Str) : Cell := if '=' ∈ arg then .str (f arg) else .unset

/-- The cells of an array during the loop: those that are done, those in front of the last one, and
the last one. -/
def during (done : List Cell) (left : ℕ) (last : Cell) : List Cell :=
  done ++ List.replicate left .unset ++ [last]

theorem store_during (h : keys.length = i) {left : ℕ} :
    store (during keys (left + 1) last) i cell = .ok (during (keys ++ [cell]) left last) := by
  unfold during
  rw [List.replicate_succ, List.append_assoc, List.cons_append, store_eq h]
  simp

theorem store_during_last {left : ℕ} (h : keys.length + left = i) :
    store (during keys left last) i cell = .ok (during keys left cell) :=
  store_eq (by simpa using h)

theorem skip_during {left : ℕ} :
    during keys (left + 1) last = during (keys ++ [.unset]) left last := by
  simp [during, List.replicate_succ]

theorem parseVariable_eq {left : ℕ} (hkeys : keys.length = i) (hvalues : values.length = i)
    (hgrants : '=' ∈ arg → grants (.keyAt i) = true ∧ grants (.valueAt i) = true) :
    parseVariable grants i arg (during keys (left + 1) last) (during values (left + 1) last') =
      .ok (during (keys ++ [cellOf name arg]) left last,
        during (values ++ [cellOf text arg]) left last') := by
  unfold parseVariable cellOf
  by_cases hmem : '=' ∈ arg
  · obtain ⟨hkey, hvalue⟩ := hgrants hmem
    simp only [if_pos hmem, hkey, hvalue, store_during hkeys, store_during hvalues,
      Bool.true_eq_false, if_false]
    rfl
  · simp only [if_neg hmem, skip_during]

theorem parseVariable_exit {left : ℕ} (hkeys : keys.length = i) (hmem : '=' ∈ arg)
    (hgrants : ¬ (grants (.keyAt i) = true ∧ grants (.valueAt i) = true)) :
    parseVariable grants i arg (during keys (left + 1) last) values = .error .exit := by
  unfold parseVariable
  rw [if_pos hmem]
  cases hkey : grants (.keyAt i) with
  | false => rfl
  | true =>
      rw [if_neg (by simp), store_during hkeys]
      have hvalue : grants (.valueAt i) = false := by simpa [hkey] using hgrants
      exact if_pos hvalue

theorem grantedFrom_cons : GrantedFrom grants i (arg :: args) ↔
    ('=' ∈ arg → grants (.keyAt i) = true ∧ grants (.valueAt i) = true) ∧
      GrantedFrom grants (i + 1) args := by
  constructor
  · refine fun h ↦ ⟨h 0 arg rfl, fun k arg hk ↦ ?_⟩
    rw [Nat.add_assoc, Nat.add_comm 1]
    exact h (k + 1) arg hk
  · rintro ⟨hfirst, hrest⟩ (_ | k) arg hk
    · cases hk
      exact hfirst
    · rw [← Nat.add_assoc, Nat.add_right_comm]
      exact hrest k arg hk

/-- A round of the loop. -/
theorem parseLoop_cons (hkeys : keys.length = i) (hvalues : values.length = i)
    (hindex : index = i + (args.length + 1) + 1)
    (hgrants : '=' ∈ arg → grants (.keyAt i) = true ∧ grants (.valueAt i) = true) :
    parseLoop grants index i (arg :: args) (during keys (args.length + 1) last)
        (during values (args.length + 1) last') =
      parseLoop grants index (i + 1) args
        (during (keys ++ [cellOf name arg]) args.length .null)
        (during (values ++ [cellOf text arg]) args.length .null) := by
  have hlast (cells : List Cell) (cell : Cell) (hcells : cells.length = i) :
      (cells ++ [cell]).length + args.length = index - 1 := by
    rw [List.length_append, List.length_singleton]
    omega
  rw [parseLoop, parseVariable_eq hkeys hvalues hgrants]
  change (store _ _ _ >>= _) = _
  rw [store_during_last (hlast _ _ hkeys)]
  change (store _ _ _ >>= _) = _
  rw [store_during_last (hlast _ _ hvalues)]
  rfl

/-- Without an argument no terminator is written. -/
theorem parseLoop_eq (hkeys : keys.length = i) (hvalues : values.length = i)
    (hindex : index = i + args.length + 1) (hgrants : GrantedFrom grants i args) :
    parseLoop grants index i args (during keys args.length last) (during values args.length last') =
      .ok (keys ++ args.map (cellOf name) ++ [if args = [] then last else .null],
        values ++ args.map (cellOf text) ++ [if args = [] then last' else .null]) := by
  induction args generalizing i keys values last last' with
  | nil => simp [parseLoop, during]
  | cons arg args ih =>
      obtain ⟨hfirst, hrest⟩ := grantedFrom_cons.mp hgrants
      rw [List.length_cons, parseLoop_cons hkeys hvalues hindex hfirst,
        ih (by simpa using hkeys) (by simpa using hvalues) (by rw [hindex, List.length_cons]; omega)
          hrest]
      simp

theorem parseLoop_exit (hkeys : keys.length = i) (hvalues : values.length = i)
    (hindex : index = i + args.length + 1) (hgrants : ¬ GrantedFrom grants i args) :
    parseLoop grants index i args (during keys args.length last) (during values args.length last') =
      .error .exit := by
  induction args generalizing i keys values last last' with
  | nil => exact absurd (fun k arg hk ↦ by simp at hk) hgrants
  | cons arg args ih =>
      rw [grantedFrom_cons, not_and_or, Classical.not_imp] at hgrants
      by_cases hfirst : '=' ∈ arg → grants (.keyAt i) = true ∧ grants (.valueAt i) = true
      · rw [List.length_cons, parseLoop_cons hkeys hvalues hindex hfirst]
        refine ih (by simpa using hkeys) (by simpa using hvalues)
          (by rw [hindex, List.length_cons]; omega) (hgrants.resolve_left ?_)
        exact fun h ↦ h.2 (hfirst h.1)
      · rw [Classical.not_imp] at hfirst
        rw [List.length_cons, parseLoop, parseVariable_exit hkeys hfirst.1 hfirst.2]
        rfl

theorem parseLoop_start_eq (hgrants : GrantedFrom grants 0 vars) :
    parseLoop grants (vars.length + 1) 0 vars (during [] vars.length .unset)
        (during [] vars.length .unset) =
      .ok (vars.map (cellOf name) ++ [if vars = [] then .unset else .null],
        vars.map (cellOf text) ++ [if vars = [] then .unset else .null]) :=
  parseLoop_eq rfl rfl (by rw [Nat.zero_add]) hgrants

theorem parseLoop_start_exit (hgrants : ¬ GrantedFrom grants 0 vars) :
    parseLoop grants (vars.length + 1) 0 vars (during [] vars.length .unset)
        (during [] vars.length .unset) = .error .exit :=
  parseLoop_exit rfl rfl (by rw [Nat.zero_add]) hgrants

theorem cmdLoop_eq (hcells : cells.length = j) (hgrants : ∀ k < args.length,
    grants (.cmdAt (j + k)) = true) :
    cmdLoop grants j args (cells ++ List.replicate (args.length + 1) .unset) =
      .ok (cells ++ args.map .str ++ [.null]) := by
  induction args generalizing j cells with
  | nil =>
      rw [cmdLoop, List.length_nil, List.replicate_one, store_eq hcells]
      simp
  | cons arg args ih =>
      have hfirst := hgrants 0 (Nat.succ_pos _)
      rw [cmdLoop, if_neg (by simpa using hfirst), List.replicate_succ, store_eq hcells]
      change cmdLoop _ _ _ _ = _
      rw [List.append_cons, List.length_cons, ih (by simpa using hcells) fun k hk ↦ ?_]
      · simp
      · rw [Nat.add_right_comm, Nat.add_assoc]
        exact hgrants (k + 1) (Nat.succ_lt_succ hk)

theorem cmdLoop_undefined (hcells : cells.length = j) (hgrants : ¬ ∀ k < args.length,
    grants (.cmdAt (j + k)) = true) :
    cmdLoop grants j args (cells ++ List.replicate (args.length + 1) .unset) =
      .error .undefined := by
  induction args generalizing j cells with
  | nil => exact absurd (fun k hk ↦ absurd hk (Nat.not_lt_zero k)) hgrants
  | cons arg args ih =>
      cases hfirst : grants (.cmdAt j) with
      | false =>
          rw [cmdLoop, if_pos hfirst]
      | true =>
          rw [cmdLoop, if_neg (by simp [hfirst]), List.replicate_succ, store_eq hcells]
          change cmdLoop _ _ _ _ = _
          rw [List.append_cons, List.length_cons]
          refine ih (by simpa using hcells) fun h ↦ hgrants ?_
          rintro (_ | k) hk
          · exact hfirst
          · rw [← Nat.add_assoc, Nat.add_right_comm]
            exact h k (Nat.lt_of_succ_lt_succ hk)

theorem cmdLoop_start_eq (hgrants : ∀ j < command.length, grants (.cmdAt j) = true) :
    cmdLoop grants 0 command ([] ++ List.replicate (command.length + 1) .unset) =
      .ok ([] ++ command.map .str ++ [.null]) := by
  refine cmdLoop_eq rfl fun k hk ↦ ?_
  rw [Nat.zero_add]
  exact hgrants k hk

theorem cmdLoop_start_undefined (hgrants : ¬ ∀ j < command.length, grants (.cmdAt j) = true) :
    cmdLoop grants 0 command ([] ++ List.replicate (command.length + 1) .unset) =
      .error .undefined := by
  refine cmdLoop_undefined rfl fun hall ↦ hgrants fun k hk ↦ ?_
  have hk' := hall k hk
  rwa [Nat.zero_add] at hk'

/-! ## The whole function -/

theorem Separated.length_eq (h : Separated argv vars command) :
    argv.length = vars.length + command.length + 2 := by
  have htail := congrArg List.length h.tail_eq
  rw [List.length_tail, List.length_append, List.length_cons] at htail
  omega

theorem Separated.drop_eq (h : Separated argv vars command) :
    argv.drop (vars.length + 1 + 1) = command := by
  rw [← List.drop_tail, h.tail_eq, List.append_cons]
  exact List.drop_left' (by simp)

theorem replicate_eq_during (n : ℕ) : List.replicate (n + 1) Cell.unset = during [] n .unset := by
  rw [during, List.nil_append, List.replicate_succ']

theorem parseInput_of_not_mem (h : separator ∉ argv.tail) :
    parseInput grants argv = .error .undefined := by
  rw [parseInput, separatorLoop_of_not_mem h]
  dsimp only
  rw [if_neg]
  rw [List.length_tail]
  omega

theorem parseInput_nil (h : Separated argv vars []) : parseInput grants argv = .error .abort := by
  rw [parseInput, h.tail_eq, separatorLoop_append h.not_mem]
  dsimp only
  rw [if_pos]
  rw [h.length_eq, List.length_nil]
  omega

/-- What is left of the function behind the assertion. -/
theorem parseInput_cons (h : Separated argv vars command) (hcommand : command ≠ []) :
    parseInput grants argv =
      (if grants .key = false then .error .exit
      else if grants .value = false then .error .exit
      else do
        let (key, value) ← parseLoop grants (vars.length + 1) 0 vars (during [] vars.length .unset)
          (during [] vars.length .unset)
        if grants .cmd = false then .error .undefined
        else do
          let cmd ← cmdLoop grants 0 command ([] ++ List.replicate (command.length + 1) .unset)
          pure (Parsed.mk (vars.length + 1) cmd key value)) := by
  have hpos := List.length_pos_of_ne_nil hcommand
  have hlength := h.length_eq
  have hvars : argv.tail.take vars.length = vars := by
    rw [h.tail_eq, List.take_left']
    rfl
  have hleft : argv.length - (vars.length + 1) = command.length + 1 := by omega
  rw [parseInput]
  nth_rewrite 1 [h.tail_eq]
  rw [separatorLoop_append h.not_mem]
  dsimp only
  rw [if_neg (by omega), Nat.add_comm 1, Nat.add_sub_cancel, hvars, h.drop_eq, hleft,
    replicate_eq_during, List.nil_append]

theorem parseInput_eq (h : Separated argv vars command) (hcommand : command ≠ [])
    (hgranted : Granted grants vars) (hcmd : CmdGranted grants command) :
    parseInput grants argv = .ok
      { index := vars.length + 1
        cmd := command.map .str ++ [.null]
        key := vars.map (cellOf name) ++ [if vars = [] then .unset else .null]
        value := vars.map (cellOf text) ++ [if vars = [] then .unset else .null] } := by
  rw [parseInput_cons h hcommand, if_neg (by simp [hgranted.key]),
    if_neg (by simp [hgranted.value]), parseLoop_start_eq hgranted.strings]
  change (if _ then _ else _) = _
  rw [if_neg (by simp [hcmd.cmd]), cmdLoop_start_eq hcmd.cmdAt]
  rfl

theorem parseInput_exit (h : Separated argv vars command) (hcommand : command ≠ [])
    (hgranted : ¬ Granted grants vars) : parseInput grants argv = .error .exit := by
  rw [parseInput_cons h hcommand]
  by_cases hkey : grants .key = true
  · by_cases hvalue : grants .value = true
    · rw [if_neg (by simp [hkey]), if_neg (by simp [hvalue]),
        parseLoop_start_exit fun hvars ↦ hgranted ⟨hkey, hvalue, hvars⟩]
      rfl
    · rw [if_neg (by simp [hkey]), if_pos (by simpa using hvalue)]
  · rw [if_pos (by simpa using hkey)]

theorem parseInput_undefined (h : Separated argv vars command) (hcommand : command ≠ [])
    (hgranted : Granted grants vars) (hcmd : ¬ CmdGranted grants command) :
    parseInput grants argv = .error .undefined := by
  rw [parseInput_cons h hcommand, if_neg (by simp [hgranted.key]),
    if_neg (by simp [hgranted.value]), parseLoop_start_eq hgranted.strings]
  change (if _ then _ else _) = _
  by_cases hblock : grants .cmd = true
  · rw [if_neg (by simp [hblock]), cmdLoop_start_undefined fun hall ↦ hcmd ⟨hblock, hall⟩]
    rfl
  · rw [if_pos (by simpa using hblock)]

/-! ## Arguments -/

theorem exists_separated (h : separator ∈ argv.tail) :
    ∃ vars command, Separated argv vars command := by
  obtain ⟨vars, command, htail, hmem⟩ := List.eq_append_cons_of_mem h
  exact ⟨vars, command, htail, hmem⟩

theorem Separated.takeWhile_eq (h : Separated argv vars command) :
    argv.tail.takeWhile (· ≠ separator) = vars := by
  have hvars : ∀ arg ∈ vars, decide (arg ≠ separator) = true := by
    rintro arg harg
    exact decide_eq_true fun heq ↦ h.not_mem (heq ▸ harg)
  rw [h.tail_eq, List.takeWhile_append_of_pos hvars, List.takeWhile_cons_of_neg (by simp),
    List.append_nil]

theorem Separated.unique {vars' command' : List Str} (h : Separated argv vars command)
    (h' : Separated argv vars' command') : vars' = vars ∧ command' = command := by
  obtain rfl := h'.takeWhile_eq.symm.trans h.takeWhile_eq
  have htail := List.append_cancel_left (h'.tail_eq.symm.trans h.tail_eq)
  exact ⟨rfl, (List.cons.inj htail).2⟩

theorem Accepted.three_le (h : Accepted argv vars command) : 3 ≤ argv.length := by
  have hpos := List.length_pos_of_ne_nil h.command_ne
  have hlength := h.length_eq
  omega

theorem map_cellOf {f : Str → Str} (h : ∀ arg ∈ vars, '=' ∈ arg) :
    vars.map (cellOf f) = vars.map fun arg ↦ .str (f arg) :=
  List.map_congr_left fun arg harg ↦ if_pos (h arg harg)

theorem parseInput_eq_expected_iff (h : Accepted argv vars command) :
    parseInput grants argv = .ok (expected vars command) ↔
      vars ≠ [] ∧ Granted grants vars ∧ CmdGranted grants command := by
  by_cases hgranted : Granted grants vars
  · by_cases hcmd : CmdGranted grants command
    · rw [parseInput_eq h.toSeparated h.command_ne hgranted hcmd, map_cellOf h.assigns,
        map_cellOf h.assigns, expected]
      by_cases hvars : vars = []
      · simp [hvars]
      · simp [hvars, hgranted, hcmd]
    · rw [parseInput_undefined h.toSeparated h.command_ne hgranted hcmd]
      simp [hcmd]
  · rw [parseInput_exit h.toSeparated h.command_ne hgranted]
    simp [hgranted]

theorem rejected_parseInput_iff (h : Separated argv vars command) :
    Rejected (parseInput grants argv) ↔ command = [] ∨ ¬ Granted grants vars := by
  unfold Rejected
  by_cases hcommand : command = []
  · subst hcommand
    rw [parseInput_nil h]
    simp
  · rw [or_iff_right hcommand]
    by_cases hgranted : Granted grants vars
    · by_cases hcmd : CmdGranted grants command
      · rw [parseInput_eq h hcommand hgranted hcmd]
        simp [hgranted]
      · rw [parseInput_undefined h hcommand hgranted hcmd]
        simp [hgranted]
    · rw [parseInput_exit h hcommand hgranted]
      simp [hgranted]

theorem correct_iff_of_separated (hmain : main grants usageExits argv = parseInput grants argv)
    (h : Separated argv vars command) : Correct grants usageExits argv ↔
      command = [] ∨
        (∀ arg ∈ vars, '=' ∈ arg) ∧ vars ≠ [] ∧ Granted grants vars ∧ CmdGranted grants command ∨
        (¬ ∀ arg ∈ vars, '=' ∈ arg) ∧ ¬ Granted grants vars := by
  by_cases haccepted : Accepted argv vars command
  · rw [or_iff_right haccepted.command_ne, or_iff_left fun hno ↦ hno.1 haccepted.assigns,
      and_iff_right haccepted.assigns, ← parseInput_eq_expected_iff haccepted, ← hmain]
    constructor
    · exact fun hcorrect ↦ hcorrect.accepts vars command haccepted
    · refine fun heq ↦ ⟨fun vars' command' h' ↦ ?_, fun hno ↦ absurd ⟨_, _, haccepted⟩ hno⟩
      obtain ⟨rfl, rfl⟩ := h.unique h'.toSeparated
      exact heq
  · have hno : ¬ ∃ vars command, Accepted argv vars command := by
      rintro ⟨vars', command', h'⟩
      obtain ⟨rfl, rfl⟩ := h.unique h'.toSeparated
      exact haccepted h'
    have hrejected : Correct grants usageExits argv ↔ Rejected (parseInput grants argv) := by
      rw [← hmain]
      exact ⟨fun hcorrect ↦ hcorrect.rejects hno,
        fun hend ↦ ⟨fun vars command h ↦ absurd ⟨vars, command, h⟩ hno, fun _ ↦ hend⟩⟩
    rw [hrejected, rejected_parseInput_iff h]
    have hcases : command = [] ∨ ¬ ∀ arg ∈ vars, '=' ∈ arg := by
      rw [← not_ne_iff, ← not_and_or]
      exact fun hboth ↦ haccepted ⟨h, hboth.1, hboth.2⟩
    tauto

/-- The arguments are handled as they should be if and only if they are too few and the usage ends
the program, or there is a separator and one of the following holds.  Nothing stands behind it.
Each argument in front of it is an assignment, there is at least one, and all blocks are granted.
Or some argument is no assignment, and a block that is tested is not granted. -/
theorem arguments_correct_iff (grants : Block → Bool) (usageExits : Bool) (argv : List Str) :
    Correct grants usageExits argv ↔
      (argv.length < 3 ∧ usageExits) ∨
      ∃ vars command, Separated argv vars command ∧
        (command = [] ∨
          (∀ arg ∈ vars, '=' ∈ arg) ∧ vars ≠ [] ∧ Granted grants vars ∧ CmdGranted grants command ∨
          (¬ ∀ arg ∈ vars, '=' ∈ arg) ∧ ¬ Granted grants vars) := by
  by_cases husage : argv.length < 3 ∧ usageExits
  · have hmain : main grants usageExits argv = .error .exit := if_pos husage
    refine iff_of_true ⟨fun vars command h ↦ ?_, fun _ ↦ .inl hmain⟩ (.inl husage)
    have hthree := h.three_le
    omega
  · have hmain : main grants usageExits argv = parseInput grants argv := if_neg husage
    rw [or_iff_right husage]
    by_cases hmem : separator ∈ argv.tail
    · obtain ⟨vars, command, h⟩ := exists_separated hmem
      rw [correct_iff_of_separated hmain h]
      constructor
      · exact fun hcases ↦ ⟨vars, command, h, hcases⟩
      · rintro ⟨vars', command', h', hcases⟩
        obtain ⟨rfl, rfl⟩ := h.unique h'
        exact hcases
    · have hno : ¬ ∃ vars command, Separated argv vars command := by
        rintro ⟨vars, command, h⟩
        exact hmem (h.tail_eq ▸ List.mem_append_right _ List.mem_cons_self)
      refine iff_of_false (fun hcorrect ↦ ?_) fun ⟨vars, command, h, _⟩ ↦ hno ⟨vars, command, h⟩
      have hrejected := hcorrect.rejects fun ⟨vars, command, h⟩ ↦
        hno ⟨vars, command, h.toSeparated⟩
      rw [hmain, parseInput_of_not_mem hmem] at hrejected
      simp [Rejected] at hrejected

/-- Without a variable no terminator is written. -/
theorem no_variable_unset :
    ¬ Correct (fun _ ↦ true) true [['e', 'n', 'v'], ['-', '-'], ['l', 's']] := by
  intro h
  have haccepted : Accepted [['e', 'n', 'v'], ['-', '-'], ['l', 's']] [] [['l', 's']] :=
    ⟨⟨rfl, by simp⟩, by simp, by simp⟩
  have hmain : main (fun _ ↦ true) true [['e', 'n', 'v'], ['-', '-'], ['l', 's']] =
      .ok ⟨1, [.str ['l', 's'], .null], [.unset], [.unset]⟩ := rfl
  have hexpected := hmain.symm.trans (h.accepts _ _ haccepted)
  simp [expected] at hexpected

/-! ## The arrays behind the run -/

theorem destroy_eq (texts : List Str) :
    destroy (texts.map .str ++ .null :: cells) =
      .ok (List.replicate texts.length .null ++ .null :: cells) := by
  induction texts with
  | nil => rfl
  | cons text texts ih =>
      rw [List.map_cons, List.cons_append, destroy, ih]
      rfl

/-- An array can be freed if and only if strings alone stand in front of its first `NULL`. -/
theorem destroy_iff : (∃ freed, destroy cells = .ok freed) ↔
    ∃ (texts : List Str) (rest : List Cell), cells = texts.map .str ++ .null :: rest := by
  constructor
  · rintro ⟨freed, h⟩
    induction cells generalizing freed with
    | nil => cases h
    | cons cell cells ih =>
        cases cell with
        | unset => cases h
        | null => exact ⟨[], cells, rfl⟩
        | str text =>
            rw [destroy] at h
            cases hrest : destroy cells with
            | error stop =>
                rw [hrest] at h
                cases h
            | ok freed' =>
                obtain ⟨texts, rest, rfl⟩ := ih freed' hrest
                exact ⟨text :: texts, rest, rfl⟩
  · rintro ⟨texts, rest, rfl⟩
    exact ⟨_, destroy_eq texts⟩

theorem destroyAll_iff {p : Parsed} : destroyAll p = .ok () ↔
    ∀ array ∈ [p.cmd, p.key, p.value], ∃ freed, destroy array = .ok freed := by
  simp only [destroyAll, List.forall_mem_cons, List.not_mem_nil, false_implies, implies_true,
    and_true]
  cases destroy p.cmd <;> cases destroy p.key <;> cases destroy p.value <;>
    simp [bind, Except.bind, pure, Except.pure]

/-- Arrays that are as they should be are freed without an error, once the command has ended
well. -/
theorem Correct.parent_returns (h : Correct grants usageExits argv) {p : Parsed}
    (hmain : main grants usageExits argv = .ok p) (execExits : Bool) :
    parent false execExits p = .ok () := by
  have haccepted : ∃ vars command, Accepted argv vars command := by
    by_contra hno
    have hrejected := h.rejects hno
    simp [Rejected, hmain] at hrejected
  obtain ⟨vars, command, haccepted⟩ := haccepted
  obtain rfl := Except.ok.inj (hmain.symm.trans (h.accepts vars command haccepted))
  have hparent : parent false execExits (expected vars command) =
      destroyAll (expected vars command) := if_neg (by decide)
  rw [hparent, destroyAll_iff]
  simp only [List.forall_mem_cons, destroy_iff]
  refine ⟨⟨command, [], rfl⟩, ⟨vars.map name, [], ?_⟩, ⟨vars.map text, [], ?_⟩, by simp⟩ <;>
    simp [expected]

/-- Without a variable the parent reads a cell that has never been set. -/
theorem parent_no_variable (h : Separated argv [] command) (hcommand : command ≠ [])
    (hgranted : Granted grants []) (hcmd : CmdGranted grants command) (failed execExits : Bool) :
    (parseInput grants argv >>= parent failed execExits) = .error .undefined := by
  rw [parseInput_eq h hcommand hgranted hcmd]
  have hfree (cells : List Cell) : destroy (.unset :: cells) = .error .undefined := rfl
  have hall : destroyAll ⟨1, command.map .str ++ [.null], [.unset], [.unset]⟩ =
      .error .undefined := by
    simp only [destroyAll, destroy_eq, hfree]
    rfl
  change parent failed execExits ⟨1, command.map .str ++ [.null], [.unset], [.unset]⟩ = _
  rw [parent, hall]
  cases failed <;> rfl

end SystemProgramming.UtilitiesUnleashed
