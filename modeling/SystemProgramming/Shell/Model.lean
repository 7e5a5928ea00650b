import SystemProgramming.Lib.Substring

/-!
# The commands of `shell.c`

A command line is cut at its operators, classified and run.  A line of the history is run
again with the stored string itself, so what the functions write into their argument is
written into the history.  The operating system is a parameter.
-/

namespace SystemProgramming.Shell

abbrev Str := List Char

/-- Why the shell does not return to its loop: the command `exit` ends it, it calls `exit` without
having been told or is killed, an assertion of the vector library fails, it runs or waits for
ever, or it leaves its memory. -/
inductive Stop
  | quit
  | exit
  | abort
  | hang
  | undefined
  deriving DecidableEq

abbrev Result := Except Stop

theorem bind_eq_ok_iff {α β : Type} {x : Result α} {f : α → Result β} {b : β} :
    (x >>= f) = .ok b ↔ ∃ a, x = .ok a ∧ f a = .ok b := by
  constructor
  · intro h
    cases x with
    | error stop => cases h
    | ok a => exact ⟨a, rfl, h⟩
  · rintro ⟨a, rfl, h⟩
    exact h

/-! ## Strings -/

def isspace (c : Char) : Bool := [' ', '\t', '\n', '\x0b', '\x0c', '\r'].contains c

inductive Operator
  | and
  | or
  | seq
  deriving DecidableEq

def Operator.text : Operator → Str
  | and => ['&', '&']
  | or => ['|', '|']
  | seq => [';']

def logical (cmd : Str) : Option Operator :=
  if (strstr Operator.and.text cmd).isSome then some .and
  else if (strstr Operator.or.text cmd).isSome then some .or
  else if (strstr Operator.seq.text cmd).isSome then some .seq
  else none

def redirector (cmd : Str) : Option Str :=
  if (strstr ['>'] cmd).isSome then some ['>']
  else if (strstr ['>', '>'] cmd).isSome then some ['>', '>']
  else if (strstr ['<'] cmd).isSome then some ['<']
  else none

structure Redirection where
  type : Str
  cmd : Str
  filename : Str
  deriving DecidableEq

/-- Without an operator the fields are not set. -/
def redirect (cmd : Str) : Option Redirection := do
  let operator ← redirector cmd
  let (front, behind) ← strstr operator cmd
  some ⟨operator, front, behind.dropWhile isspace⟩

/-- The first half of `cmd_preprocessor`. -/
def trim (cmd : Str) : Str := (cmd.dropWhile isspace).rdropWhile isspace

/-- `sstring_split`: no piece stands behind a delimiter at the end. -/
def sstringSplit (delimiter : Char) : Str → List Str
  | [] => []
  | c :: text =>
      if c = delimiter then [] :: sstringSplit delimiter text
      else match sstringSplit delimiter text with
        | [] => [[c]]
        | piece :: pieces => (c :: piece) :: pieces

/-- The loop over the digits.  The number is an `int`. -/
def parseNumber : ℕ → Str → Result (Option ℕ)
  | num, [] => .ok (some num)
  | num, c :: text =>
      if c.isDigit then
        if 2 ^ 31 ≤ 10 * num + (c.toNat - '0'.toNat) then .error .undefined
        else parseNumber (10 * num + (c.toNat - '0'.toNat)) text
      else .ok none

def digitsValue (text : Str) : ℕ :=
  (text.takeWhile Char.isDigit).foldl (fun n c ↦ 10 * n + (c.toNat - '0'.toNat)) 0

/-- `strtol` stops at the ends of `long`. -/
def strtol (text : Str) : ℤ :=
  match text.dropWhile isspace with
  | '-' :: text => max (- (digitsValue text : ℤ)) (-2 ^ 63)
  | '+' :: text => min (digitsValue text) (2 ^ 63 - 1)
  | text => min (digitsValue text) (2 ^ 63 - 1)

/-- `atoi` as the C library has it: the `long` is cut down to an `int`, so that a number and its
sum with `2 ^ 32` mean the same process. -/
def atoi (text : Str) : ℤ := (strtol text).bmod (2 ^ 32)

/-! ## The state -/

structure Process where
  command : Str
  pid : ℕ
  killed : Bool

/-- `recalled` is what `print_command` has printed, with the positions in the history. -/
structure State (W : Type) where
  cmdHis : List Str
  processes : List Process
  bg : Bool
  world : W
  recalled : List (ℕ × Str)

inductive Signal
  | kill
  | stop
  | cont
  deriving DecidableEq

/-- The result codes 8, 9 and 10 of the comment are 7, 8 and 9 in the code. -/
def Signal.code : Signal → ℤ
  | kill => 7
  | stop => 8
  | cont => 9

/-- What `waitpid` reports.  The handler of SIGCHLD may have taken the status before. -/
inductive Status
  | exited (code : ℕ)
  | signaled
  | lost
  deriving DecidableEq

/-- The system: the shell's own pid, what a read in front of a buffer finds (if it does not
fault), whether the block that `malloc` returns holds zeros, and the calls on directories,
files and processes.  A child whose `execvp` fails has no status of its own. -/
structure System (W : Type) where
  self : ℕ
  front : Option Char
  blank : W → Bool
  chdir : W → Str → Option W
  setupRedirection : W → Str → Str → Option W
  kill : W → ℕ → Signal → W
  readable : W → ℕ → Bool
  fork : W → Option (ℕ × W)
  run : W → ℕ → List Str → Option Status × W

namespace State

variable {W : Type} (s : State W)

def push (cmd : Str) : State W := { s with cmdHis := s.cmdHis ++ [cmd] }

/-- A write into the string that `ref` refers to, a line of the history or another buffer. -/
def edit (ref : Option ℕ) (f : Str → Str) : State W :=
  match ref with
  | none => s
  | some i => { s with cmdHis := s.cmdHis.modify i f }

def setKilled (pid : ℕ) : State W :=
  { s with processes := s.processes.map fun p ↦ if p.pid = pid then { p with killed := true } else p }

def addProcess (cmd : Str) (pid : ℕ) : State W :=
  if s.processes.any fun p ↦ p.pid = pid then
    { s with processes := s.processes.map fun p ↦ if p.pid = pid then ⟨cmd, pid, false⟩ else p }
  else { s with processes := s.processes ++ [⟨cmd, pid, false⟩] }

end State

/-! ## The commands -/

inductive Kind
  | blank
  | cd
  | history
  | number
  | search
  | exit
  | signal (sig : Signal)
  | ps
  | external
  deriving DecidableEq

/-- The comparisons of `classify`. -/
def kindOf : List Str → Kind
  | [] => .blank
  | word :: _ =>
      if word = ['c', 'd'] then .cd
      else if word = ['!', 'h', 'i', 's', 't', 'o', 'r', 'y'] then .history
      else if word.head? = some '#' then .number
      else if word.head? = some '!' then .search
      else if word = ['e', 'x', 'i', 't'] then .exit
      else if word = ['k', 'i', 'l', 'l'] then .signal .kill
      else if word = ['s', 't', 'o', 'p'] then .signal .stop
      else if word = ['c', 'o', 'n', 't'] then .signal .cont
      else if word = ['p', 's'] then .ps
      else .external

/-- The number behind `#`, or `none` for an invalid command. -/
def numberOf : List Str → Result (Option ℕ)
  | [_ :: c :: text] => parseNumber 0 (c :: text)
  | _ => .ok none

/-- `(int) vector_size( cmd_his )` -/
def historySize (cmdHis : List Str) : ℤ := (cmdHis.length : ℤ).bmod (2 ^ 32)

/-- What is done with `#` and a number.  An index that is invalid is told to the user. -/
inductive Indexing
  | invalid
  | rerun (num : ℕ)
  | invalidIndex
  deriving DecidableEq

/-- The number is compared with the size as an `int`. -/
def indexingOf (cmdHis : List Str) (words : List Str) : Result Indexing := do
  match ← numberOf words with
  | none => pure .invalid
  | some num => if num < historySize cmdHis then pure (.rerun num) else pure .invalidIndex

/-- The last line of the history that begins with `start`. -/
def lastMatch (start : Str) (cmdHis : List Str) : Option ℕ :=
  (cmdHis.reverse.findIdx? fun line ↦ start.isPrefixOf line).map fun k ↦ cmdHis.length - 1 - k

/-- The line that is meant by `!` and a prefix.  The last index is computed as an `int`, and a
negative one is beyond every vector. -/
def searchOf (cmdHis : List Str) (cmd : Str) (words : List Str) : Result (Option ℕ) :=
  if words.head?.map List.length = some 1 then
    if historySize cmdHis = -2 ^ 31 then .error .undefined
    else if historySize cmdHis ≤ 0 then .error .abort
    else .ok (some (historySize cmdHis - 1).toNat)
  else .ok (lastMatch cmd.tail cmdHis)

variable {W : Type} (E : System W) (rerun : State W → ℕ → Result (State W))

/-- A file that cannot be opened ends the shell. -/
def setupRedirection (s : State W) : Option Redirection → Result (State W)
  | none => .ok s
  | some info => match E.setupRedirection s.world info.type info.filename with
    | none => .error .exit
    | some world => .ok { s with world := world }

/-- The branches for `kill`, `stop` and `cont`. -/
def signalProcess (s : State W) (redirection : Option Redirection) (sig : Signal) (cmd : Str)
    (args : List Str) : Result (State W × ℤ) := do
  let s ← setupRedirection E s redirection
  match args with
  | [] => .error .abort
  | [arg] =>
    match s.processes.find? fun p ↦ p.pid = atoi arg with
    | none => pure (s, 0)
    | some p =>
      if p.pid = E.self ∧ sig = .kill then .error .exit
      else if p.pid = E.self ∧ sig = .stop then .error .hang
      else
        let s := { s with world := E.kill s.world p.pid sig }
        let s := if sig = .kill then s.setKilled p.pid else s
        pure (s.push cmd, sig.code)
  | _ => pure (s, -1)

/-- `classify` behind `cmd_preprocessor`: the state and the result code. -/
def dispatch (s : State W) (redirection : Option Redirection) (cmd : Str) :
    Result (State W × ℤ) :=
  let words := sstringSplit ' ' cmd
  match kindOf words with
  | .blank => .error .abort
  | .cd => match words.tail with
    | [dir] => match E.chdir s.world dir with
      | none => .ok (s, 0)
      | some world => .ok ({ s with world := world }.push cmd, 1)
    | _ => .ok (s, -1)
  | .history => if words.tail = [] then .ok (s, 2) else .ok (s, -1)
  | .number => do
    match ← indexingOf s.cmdHis words with
    | .invalid => pure (s, -1)
    | .rerun num => do
      let s ← rerun s num
      pure (s, 3)
    | .invalidIndex => pure (s, 0)
  | .search => do
    match ← searchOf s.cmdHis cmd words with
    | none => pure (s, 0)
    | some i => do
      let s ← rerun s i
      pure (s, 4)
  | .exit => if words.tail = [] then .error .quit else .ok (s, -1)
  | .signal sig => signalProcess E s redirection sig cmd words.tail
  | .ps =>
    if words.tail = [] then
      if s.processes.all fun p ↦ p.killed || E.readable s.world p.pid then .ok (s.push cmd, 10)
      else .error .exit
    else .ok (s, -1)
  | .external => .ok (s, 6)

/-- The state, the string that is left of the argument, and the result code. -/
def classify (s : State W) (ref : Option ℕ) (cmd : Str) : Result (State W × Str × ℤ) :=
  match redirect cmd with
  | some info => do
    let s := (s.edit ref fun text ↦ text.take info.cmd.length).edit ref trim
    let (s, class_) ← dispatch E rerun s (some info) (trim info.cmd)
    pure (s, trim info.cmd, class_)
  | none =>
    -- the field `type` is compared with NULL before it is set
    if E.blank s.world then do
      let (s, class_) ← dispatch E rerun (s.edit ref trim) none (trim cmd)
      pure (s, trim cmd, class_)
    else .error .undefined

/-- The parent's side of `external`.  The child calls `exit( 0 )` when `execvp` has failed. -/
def external (s : State W) (ref : Option ℕ) (cmd : Str) : Result (State W × ℤ) :=
  let s := s.edit ref trim
  let cmd := trim cmd
  match E.fork s.world with
  | none => .error .exit
  | some (pid, world) =>
    let s := { s with world := world }.addProcess cmd pid
    let (status, world) := E.run s.world pid (sstringSplit ' ' cmd)
    let s := { s with world := world }
    if s.bg then .ok (s.push cmd, 1)
    else match status.getD (.exited 0) with
      | .lost => .error .exit
      | .exited code =>
        if code ≠ 0 then .error .exit else .ok ((s.setKilled pid).push cmd, 1)
      | .signaled => .ok ((s.setKilled pid).push cmd, 1)

/-- The `switch` of `command` over the result code.  It stands there three times, and only the
first one keeps the result. -/
def single (s : State W) (ref : Option ℕ) (cmd : Str) : Result (State W × ℤ) := do
  let (s, cmd, class_) ← classify E rerun s ref cmd
  if class_ = -1 ∨ class_ = 0 then pure (s, 0)
  else if class_ = 6 then external E s ref cmd
  else pure (s, 1)

/-- `command` behind the test for the background sign: the state and the commands that have
been classified. -/
def commandLine (s : State W) (ref : Option ℕ) (cmd : Str) : Result (State W × List Str) :=
  if cmd = ['\n'] then .ok (s, [])
  else match logical cmd with
    | none => do
      let (s, _) ← single E rerun s ref cmd
      pure (s, [cmd])
    | some operator => match strstr operator.text cmd with
      | none => .error .undefined
      | some (cmd1, cmd2) => do
        let (s, result1) ←
          single E rerun (s.edit ref fun text ↦ text.take cmd1.length) ref cmd1
        if operator = .and ∧ result1 = 0 ∨ operator = .or ∧ result1 ≠ 0 then pure (s, [cmd1])
        else do
          let (s, _) ← single E rerun s none cmd2
          pure (s, [cmd1, cmd2])

/-- Whether the last character but one is the background sign. -/
def background (front : Option Char) (cmd : Str) : Result Bool :=
  if 2 ≤ cmd.length then .ok (cmd[cmd.length - 2]? = some '&')
  else match front with
    | none => .error .undefined
    | some c => .ok (c = '&')

def commandWith (s : State W) (ref : Option ℕ) (cmd : Str) : Result (State W × List Str) := do
  let bg ← background E.front cmd
  let s := { s with bg := bg }
  if bg ∧ 2 ≤ cmd.length then
    commandLine E rerun (s.edit ref fun text ↦ text.take (cmd.length - 2)) ref
      (cmd.take (cmd.length - 2))
  else commandLine E rerun s ref cmd

/-- A line of the history is printed and run again. -/
def rerunWith (run : State W → Option ℕ → Str → Result (State W × List Str)) (s : State W)
    (i : ℕ) : Result (State W) :=
  match s.cmdHis[i]? with
  | none => .error .abort
  | some line => do
    let (s, _) ← run { s with recalled := s.recalled ++ [(i, line)] } (some i) line
    pure s

/-- `command` with a bound on the depth of its recursion. -/
def command : ℕ → State W → Option ℕ → Str → Result (State W × List Str)
  | 0, _, _, _ => .error .hang
  | fuel + 1, s, ref, cmd => commandWith E (rerunWith (command fuel)) s ref cmd

end SystemProgramming.Shell
