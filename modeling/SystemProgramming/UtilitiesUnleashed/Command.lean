import SystemProgramming.UtilitiesUnleashed.Env

/-!
# The command that `env` runs

The child of `main` sets the variables in the order of the arguments, each with the
environment that the ones in front of it have left, and then becomes the command.
-/

namespace SystemProgramming.UtilitiesUnleashed

/-- The environment of a process.  No name in it is empty or has a `=`. -/
@[ext]
structure Environment where
  getenv : Str → Option Str
  names : ∀ key, getenv key ≠ none → key ≠ [] ∧ '=' ∉ key

namespace Environment

variable (env : Environment)

/-- `none` stands for the result -1. -/
def setenv (key value : Str) : Option Environment :=
  if h : key ≠ [] ∧ '=' ∉ key then
    some
      { getenv := Function.update env.getenv key (some value)
        names := fun key' hkey' ↦ by
          by_cases heq : key' = key
          · exact heq ▸ h
          · rw [Function.update_of_ne heq] at hkey'
            exact env.names key' hkey' }
  else none

/-- A value that begins with `%` stands for the value of a variable. -/
def resolve : Str → Str
  | '%' :: key => (env.getenv key).getD []
  | value => value

/-- What an argument `KEY=VALUE` does to the environment. -/
def assign (arg : Str) : Environment := (env.setenv (name arg) (env.resolve (text arg))).getD env

end Environment

/-! ## The child -/

section Child

variable (changeExits : Bool) (key value : List Cell)

/-- The loop over the variables.  Whether `print_environment_change_failed` exits is a
parameter. -/
def setVariables : ℕ → ℕ → Environment → Result Environment
  | 0, _, env => .ok env
  | left + 1, i, env =>
      match key[i]?, value[i]? with
      | some (.str k), some (.str v) =>
          match env.setenv k (env.resolve v) with
          | some env => setVariables left (i + 1) env
          | none => if changeExits then .error .exit else setVariables left (i + 1) env
      | _, _ => .error .undefined

/-- The words that `execvp` reads. -/
def words : List Cell → Result (List Str)
  | [] => .error .undefined
  | .unset :: _ => .error .undefined
  | .null :: _ => .ok []
  | .str word :: cells => do
      let rest ← words cells
      pure (word :: rest)

/-- A program with its arguments and its environment. -/
@[ext]
structure Exec where
  argv : List Str
  environment : Environment

def child (p : Parsed) (env : Environment) : Result Exec := do
  let env ← setVariables changeExits p.key p.value (p.index - 1) 0 env
  let argv ← words p.cmd
  pure ⟨argv, env⟩

/-- What `execvp` is called with when `env` has been started with these arguments. -/
def run (grants : Block → Bool) (usageExits : Bool) (e : Exec) : Result Exec := do
  let p ← main grants usageExits e.argv
  child changeExits p e.environment

end Child

variable {grants : Block → Bool} {usageExits changeExits : Bool} {env : Environment}
  {argv args vars command front : List Str} {arg x : Str} {cells keys values : List Cell}

theorem not_mem_name (arg : Str) : '=' ∉ name arg := fun h ↦ by
  simpa using List.mem_takeWhile_imp h

theorem assign_of_ne (h : name arg ≠ []) (env : Environment) :
    env.setenv (name arg) (env.resolve (text arg)) = some (env.assign arg) := by
  simp [Environment.assign, Environment.setenv, h, not_mem_name]

@[simp] theorem setenv_nil (env : Environment) (value : Str) : env.setenv [] value = none := by
  simp [Environment.setenv]

theorem assign_of_eq (h : name arg = []) (env : Environment) : env.assign arg = env := by
  rw [Environment.assign, h, setenv_nil, Option.getD_none]

/-! ## The loop -/

/-- An empty name is refused. -/
def Refused (changeExits : Bool) (vars : List Str) : Prop :=
  changeExits = true ∧ ∃ arg ∈ vars, name arg = []

instance (changeExits : Bool) (vars : List Str) : Decidable (Refused changeExits vars) :=
  inferInstanceAs (Decidable (_ ∧ _))

theorem refused_cons : Refused changeExits (arg :: vars) ↔
    changeExits = true ∧ name arg = [] ∨ Refused changeExits vars := by
  simp [Refused, and_or_left]

theorem refused_append (vars₁ vars₂ : List Str) : Refused changeExits (vars₁ ++ vars₂) ↔
    Refused changeExits vars₁ ∨ Refused changeExits vars₂ := by
  induction vars₁ with
  | nil => simp [Refused]
  | cons arg vars₁ ih => rw [List.cons_append, refused_cons, refused_cons, ih, or_assoc]

theorem setVariables_eq (changeExits : Bool) (env : Environment) (front : List Str)
    (keys values : List Cell) (hassigns : ∀ arg ∈ vars, '=' ∈ arg) :
    setVariables changeExits (front.map (cellOf name) ++ vars.map (cellOf name) ++ keys)
      (front.map (cellOf text) ++ vars.map (cellOf text) ++ values) vars.length front.length env =
        if Refused changeExits vars then .error .exit
        else .ok (vars.foldl Environment.assign env) := by
  induction vars generalizing front env with
  | nil => simp [setVariables, Refused]
  | cons arg vars ih =>
    have hcell (f : Str → Str) : cellOf f arg = .str (f arg) := if_pos (hassigns arg (by simp))
    have hrest := ih (env.assign arg) (front ++ [arg]) fun arg' h ↦ hassigns arg' (by simp [h])
    simp only [refused_cons, List.foldl_cons]
    by_cases hname : name arg = []
    · cases changeExits with
      | true => simp [setVariables, hcell, hname]
      | false =>
        rw [assign_of_eq hname] at hrest ⊢
        simpa [setVariables, hcell, hname] using hrest
    · simpa [setVariables, hcell, assign_of_ne hname, hname] using hrest

theorem words_eq (command : List Str) : words (command.map .str ++ .null :: cells) = .ok command := by
  induction command with
  | nil => rfl
  | cons word command ih =>
    rw [List.map_cons, List.cons_append, words, ih]
    rfl

/-- The command and its arguments are those behind the separator. -/
theorem run_eq (h : Accepted argv vars command) (hgranted : Granted grants vars)
    (hcmd : CmdGranted grants command) : run changeExits grants usageExits ⟨argv, env⟩ =
      if Refused changeExits vars then .error .exit
      else .ok ⟨command, vars.foldl Environment.assign env⟩ := by
  have hlong : ¬ (argv.length < 3 ∧ usageExits = true) := fun hshort ↦ by
    have hthree := h.three_le
    omega
  have hloop := setVariables_eq changeExits env [] [if vars = [] then .unset else .null]
    [if vars = [] then .unset else .null] h.assigns
  simp only [List.map_nil, List.nil_append, List.length_nil] at hloop
  simp only [run, main, if_neg hlong, parseInput_eq h.toSeparated h.command_ne hgranted hcmd]
  change child changeExits _ env = _
  simp only [child, Nat.add_sub_cancel, hloop]
  by_cases hrefused : Refused changeExits vars
  · simp only [if_pos hrefused]
    rfl
  · simp only [if_neg hrefused]
    change (words (command.map .str ++ [.null]) >>= fun argv ↦ _) = _
    rw [words_eq]
    rfl

/-! ## The variables -/

theorem getenv_assign_of_ne (h : name arg ≠ x) (env : Environment) :
    (env.assign arg).getenv x = env.getenv x := by
  by_cases hname : name arg = []
  · rw [assign_of_eq hname]
  · have hset := assign_of_ne hname env
    rw [Environment.setenv, dif_pos ⟨hname, not_mem_name arg⟩] at hset
    rw [← Option.some.inj hset]
    exact Function.update_of_ne (Ne.symm h) _ _

theorem getenv_assign_self (h : name arg ≠ []) (env : Environment) :
    (env.assign arg).getenv (name arg) = some (env.resolve (text arg)) := by
  have hset := assign_of_ne h env
  rw [Environment.setenv, dif_pos ⟨h, not_mem_name arg⟩] at hset
  rw [← Option.some.inj hset]
  exact Function.update_self ..

theorem getenv_foldl_of_ne (h : ∀ arg ∈ vars, name arg ≠ x) (env : Environment) :
    (vars.foldl Environment.assign env).getenv x = env.getenv x := by
  induction vars generalizing env with
  | nil => rfl
  | cons arg vars ih =>
    rw [List.foldl_cons, ih fun arg' harg' ↦ h arg' (by simp [harg'])]
    exact getenv_assign_of_ne (h arg (by simp)) env

/-- The command is run with the arguments behind the separator.  A variable has the value of
its last assignment, where `%NAME` is looked up in the environment that the assignments in
front have left, and what is not assigned is as before. -/
theorem command_environment (h : Accepted argv vars command) (hgranted : Granted grants vars)
    (hcmd : CmdGranted grants command) (hnames : ∀ arg ∈ vars, name arg ≠ []) :
    ∃ env', run changeExits grants usageExits ⟨argv, env⟩ = .ok ⟨command, env'⟩ ∧
      (∀ x, (∀ arg ∈ vars, name arg ≠ x) → env'.getenv x = env.getenv x) ∧
      ∀ front arg behind, vars = front ++ arg :: behind →
        (∀ arg' ∈ behind, name arg' ≠ name arg) → env'.getenv (name arg) =
          some ((front.foldl Environment.assign env).resolve (text arg)) := by
  have hrefused : ¬ Refused changeExits vars := fun ⟨_, arg, harg, hempty⟩ ↦
    hnames arg harg hempty
  refine ⟨vars.foldl Environment.assign env, ?_, fun x hx ↦ getenv_foldl_of_ne hx env, ?_⟩
  · rw [run_eq h hgranted hcmd, if_neg hrefused]
  · rintro front arg behind rfl hbehind
    rw [List.foldl_append, List.foldl_cons, getenv_foldl_of_ne hbehind]
    exact getenv_assign_self (hnames arg (by simp)) _

def emptyEnvironment : Environment := ⟨fun _ ↦ none, fun _ h ↦ absurd rfl h⟩

def assignA : Str := ['A', '=', '1']

def assignB : Str := ['B', '=', '%', 'A']

theorem granted_true (vars : List Str) : Granted (fun _ ↦ true) vars :=
  ⟨rfl, rfl, fun _ _ _ _ ↦ ⟨rfl, rfl⟩⟩

theorem cmdGranted_true (command : List Str) : CmdGranted (fun _ ↦ true) command :=
  ⟨rfl, fun _ _ ↦ rfl⟩

theorem accepted_both : Accepted [['e', 'n', 'v'], assignA, assignB, separator, ['l', 's']]
    [assignA, assignB] [['l', 's']] :=
  ⟨⟨rfl, by decide⟩, by simp, by decide⟩

/-- `env A=1 B=%A -- ls` runs `ls` with 1 for both. -/
theorem command_environment_reference : ∃ env',
    run true (fun _ ↦ true) true
      ⟨[['e', 'n', 'v'], assignA, assignB, separator, ['l', 's']], emptyEnvironment⟩ =
        .ok ⟨[['l', 's']], env'⟩ ∧
    env'.getenv ['A'] = some ['1'] ∧ env'.getenv ['B'] = some ['1'] := by
  obtain ⟨env', hrun, -, hassigned⟩ := @command_environment (fun _ ↦ true) true true
    emptyEnvironment _ _ _ accepted_both (granted_true _) (cmdGranted_true _) (by decide)
  refine ⟨env', hrun, ?_, ?_⟩
  · exact hassigned [] assignA [assignB] rfl (by decide)
  · exact hassigned [assignA] assignB [] rfl (by simp)

/-! ## The program file -/

def pathName : Str := ['P', 'A', 'T', 'H']

def defaultPath : Str := "/bin:/usr/bin".toList

/-- The paths under which `execvp` looks for a program.  A name with a slash is a path itself. -/
def candidates (env : Environment) (file : Str) : List Str :=
  if '/' ∈ file then [file]
  else (((env.getenv pathName).getD defaultPath).splitOn ':').map fun directory ↦
    if directory = [] then file else directory ++ '/' :: file

section Programs

variable (programs : Str → Option (Exec → Result Exec))

/-- What the program comes to that is found for a name.  `programs` has this for each path. -/
def lookup (env : Environment) (file : Str) : Option (Exec → Result Exec) :=
  (candidates env file).findSome? programs

/-- What the program comes to that `execvp` starts.  The child exits if there is none. -/
def execvp (e : Exec) : Result Exec :=
  match e.argv with
  | [] => .error .undefined
  | file :: _ =>
      match lookup programs e.environment file with
      | some program => program e
      | none => .error .exit

end Programs

variable {programs : Str → Option (Exec → Result Exec)} {file : Str}

/-- The environment has no say in what a path names. -/
theorem lookup_of_slash (h : '/' ∈ file) (env : Environment) :
    lookup programs env file = programs file := by
  rw [lookup, candidates, if_pos h, List.findSome?_singleton]

/-- An `env` that starts another `env` does what one does with the variables of both, if the
other one is found in the environment that it is started with. -/
theorem run_nested {grants₁ grants₂ : Block → Bool} {argv₁ args₂ vars₁ vars₂ : List Str}
    (h₁ : Accepted argv₁ vars₁ (file :: args₂)) (h₂ : Accepted (file :: args₂) vars₂ command)
    (h : Accepted argv (vars₁ ++ vars₂) command) (hgranted₁ : Granted grants₁ vars₁)
    (hcmd₁ : CmdGranted grants₁ (file :: args₂)) (hgranted₂ : Granted grants₂ vars₂)
    (hcmd₂ : CmdGranted grants₂ command) (hgranted : Granted grants (vars₁ ++ vars₂))
    (hcmd : CmdGranted grants command)
    (hfile : lookup programs (vars₁.foldl Environment.assign env) file =
      some (run changeExits grants₂ usageExits)) :
    (run changeExits grants₁ usageExits ⟨argv₁, env⟩ >>= execvp programs) =
      run changeExits grants usageExits ⟨argv, env⟩ := by
  rw [run_eq h hgranted hcmd, run_eq h₁ hgranted₁ hcmd₁]
  by_cases hfirst : Refused changeExits vars₁
  · rw [if_pos hfirst, if_pos ((refused_append ..).mpr (Or.inl hfirst))]
    rfl
  · rw [if_neg hfirst]
    change execvp programs ⟨file :: args₂, _⟩ = _
    simp only [execvp, hfile]
    rw [run_eq h₂ hgranted₂ hcmd₂, List.foldl_append]
    have hiff : Refused changeExits (vars₁ ++ vars₂) ↔ Refused changeExits vars₂ := by
      rw [refused_append, or_iff_right hfirst]
    simp only [hiff]

def envPath : Str := "./env".toList

def assignPath : Str := "PATH=/x".toList

/-- `./env PATH=/x -- ./env B=%A -- ls` and `./env PATH=/x B=%A -- ls` -/
theorem run_nested_reference :
    (run true (fun _ ↦ true) true ⟨[envPath, assignPath, separator, envPath, assignB, separator,
      ['l', 's']], emptyEnvironment⟩ >>=
        execvp (Function.update (fun _ ↦ none) envPath (some (run true (fun _ ↦ true) true)))) =
    run true (fun _ ↦ true) true
      ⟨[envPath, assignPath, assignB, separator, ['l', 's']], emptyEnvironment⟩ := by
  have hfirst : Accepted [envPath, assignPath, separator, envPath, assignB, separator, ['l', 's']]
      [assignPath] [envPath, assignB, separator, ['l', 's']] :=
    ⟨⟨rfl, by decide⟩, by simp, by decide⟩
  have hsecond : Accepted [envPath, assignB, separator, ['l', 's']] [assignB] [['l', 's']] :=
    ⟨⟨rfl, by decide⟩, by simp, by decide⟩
  have hboth : Accepted [envPath, assignPath, assignB, separator, ['l', 's']]
      [assignPath, assignB] [['l', 's']] := ⟨⟨rfl, by decide⟩, by simp, by decide⟩
  refine run_nested hfirst hsecond hboth (granted_true _) (cmdGranted_true _) (granted_true _)
    (cmdGranted_true _) (granted_true _) (cmdGranted_true _) ?_
  rw [lookup_of_slash (by decide), Function.update_self]

end SystemProgramming.UtilitiesUnleashed
