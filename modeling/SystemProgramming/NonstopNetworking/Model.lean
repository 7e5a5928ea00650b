import SystemProgramming.Lib.Runs

/-!
# The event loop of `server.c`

One process handles the ready connections one after the other.  A connection is given by
all bytes that its client will send, so a read past them either sees the end of the stream
or waits forever, and by how much of the answer its client takes.  The operating system's view of
the files is a parameter.  The name of the temporary directory is kept in a local array of a
function that has returned, so that each step finds something there that the model does not fix.
-/

namespace SystemProgramming.NonstopNetworking

abbrev Byte := UInt8

abbrev Filename := List Byte

abbrev Path := List Byte

instance (name : Filename) (names : List Filename) : Decidable (name ∈ names) := inferInstance

def ascii (text : List Char) : List Byte := text.map fun c ↦ UInt8.ofNat c.toNat

/-- What becomes of the process: it goes on, it calls `exit`, it waits or loops forever, or
it has left its memory. -/
inductive Outcome (α : Type)
  | next (a : α)
  | exit
  | hang
  | undefined

namespace Outcome

variable {α β : Type}

def bind : Outcome α → (α → Outcome β) → Outcome β
  | next a, f => f a
  | exit, _ => exit
  | hang, _ => hang
  | undefined, _ => undefined

instance : Monad Outcome where
  pure := next
  bind := bind

@[simp] theorem next_bind (a : α) (f : α → Outcome β) : (next a >>= f) = f a := rfl

@[simp] theorem pure_eq (a : α) : (pure a : Outcome α) = next a := rfl

theorem bind_eq_next_iff {x : Outcome α} {f : α → Outcome β} {b : β} :
    (x >>= f) = next b ↔ ∃ a, x = next a ∧ f a = next b := by
  constructor
  · intro h
    cases x with
    | next a => exact ⟨a, rfl, h⟩
    | exit => cases h
    | hang => cases h
    | undefined => cases h
  · rintro ⟨a, rfl, h⟩
    exact h

end Outcome

/-! ## Sockets -/

/-- How a byte stream ends: the client closes it, or resets the connection, or sends nothing
more and keeps it open. -/
inductive Ending
  | closed
  | reset
  | stalled
  deriving DecidableEq

/-- How a client takes its answer: all of it; or it reads nothing more when the connection has
taken `room` bytes, so that the next `write` waits; or the connection is gone then, so that
`write` fails. -/
inductive Reader
  | all
  | stops (room : ℕ)
  | gone (room : ℕ)
  deriving DecidableEq

namespace Reader

/-- Writing so many bytes comes to an end. -/
def Takes : Reader → ℕ → Prop
  | stops room, n => n ≤ room
  | _, _ => True

instance (reader : Reader) (n : ℕ) : Decidable (reader.Takes n) := by
  cases reader <;> unfold Takes <;> infer_instance

def received : Reader → List Byte → List Byte
  | gone room, data => data.take room
  | _, data => data

def after : Reader → ℕ → Reader
  | all, _ => all
  | stops room, n => stops (room - n)
  | gone room, n => gone (room - n)

end Reader

structure Socket where
  input : List Byte
  ending : Ending
  reader : Reader
  output : List Byte
  isOpen : Bool

/-- The connection when data has been written. -/
def Socket.written (sock : Socket) (data : List Byte) : Socket :=
  { sock with
    output := sock.output ++ sock.reader.received data
    reader := sock.reader.after data.length }

/-- The string in a buffer of `usable` bytes whose first bytes are `buf` and whose other
bytes are 0. -/
def cString (usable : ℕ) (buf : List Byte) : Option (List Byte) :=
  if 0 ∈ buf then some (buf.takeWhile (· ≠ 0))
  else if buf.length < usable then some buf
  else none

/-- `buf[strlen(buf) - 1]` -/
def lastChar (usable : ℕ) (buf : List Byte) : Option Byte :=
  (cString usable buf).bind List.getLast?

def newline : Byte := 10

/-- The bytes in the buffer, the returned length and the bytes that are left. -/
def readRequestHeader (usable bytes : ℕ) (ending : Ending) :
    List Byte → List Byte → Outcome (List Byte × ℕ × List Byte)
  | buf, input =>
    if bytes ≤ buf.length then .next (buf, buf.length, input)
    else match input with
      | [] => match ending with
        | .closed => .next (buf, buf.length, [])
        | .reset => if (lastChar usable buf).isSome then .next (buf, buf.length, [])
            else .undefined
        | .stalled => .hang
      | b :: input =>
        if usable ≤ buf.length then .undefined
        else match lastChar usable (buf ++ [b]) with
          | none => .undefined
          | some c =>
            -- the newline is stored and not counted
            if c = newline then .next (buf ++ [b], buf.length, input)
            else readRequestHeader usable bytes ending (buf ++ [b]) input
termination_by _ input => input.length

/-- `none` stands for the result -1. -/
def readAllFromSocket (ending : Ending) (count : ℕ) (input : List Byte) :
    Outcome (Option (List Byte) × List Byte) :=
  if count ≤ input.length then .next (some (input.take count), input.drop count)
  else match ending with
    | .closed => .next (some input, [])
    | .reset => .next (none, [])
    | .stalled => .hang

/-! ## The server -/

inductive Verb
  | GET | PUT | DELETE | LIST | V_UNKNOWN
  deriving DecidableEq

structure Header where
  command : Verb
  filename : Filename
  deriving DecidableEq

/-- The header is not initialised before it has been parsed. -/
structure Info where
  status : ℕ
  header : Option Header
  deriving DecidableEq

/-- The library and the system: the bytes that `calloc(1, sizeof(char))` really provides,
the texts of `format.h`, and the calls on files.  `fopen` gives the bytes that can be read, or the
files as they are when the opened one holds certain bytes. -/
structure Platform (Φ : Type) where
  usable : ℕ
  usable_pos : 0 < usable
  errBadRequest : List Byte
  errNoSuchFile : List Byte
  fopenRead : Φ → Path → Option (List Byte)
  stat : Φ → Path → Option ℕ
  fopenWrite : Φ → Path → Option (List Byte → Φ)
  remove : Φ → Path → Option Φ

/-- What a step finds outside the data of the server.  The pointer `directory` leads to an array
that is not there any more: `measured` is what `strlen` counts behind it, and `directory` is what
`sprintf` copies from there.  Of the bytes that are given to `fwrite` the file holds `opened` as
long as the stream is open, since the stream has a buffer, and `closed` after `fclose`.  Neither
result is looked at. -/
structure Surroundings where
  measured : ℕ
  directory : List Byte
  opened : List Byte → List Byte
  closed : List Byte → List Byte

structure Server (Φ : Type) where
  connectionsInfo : ℕ → Option Info
  sockets : ℕ → Option Socket
  fileList : List Filename
  disk : Φ

def BUFFER_SIZE : ℕ := 1024

def strncmp (buf word : List Byte) : Bool := word.isPrefixOf (buf.takeWhile (· ≠ 0))

/-- The comparisons of `parsing_header`. -/
def verbOf (buf : List Byte) : Option Verb :=
  if strncmp buf (ascii ['G', 'E', 'T']) then some .GET
  else if strncmp buf (ascii ['P', 'U', 'T']) then some .PUT
  else if strncmp buf (ascii ['L', 'I', 'S', 'T']) &&
      strncmp buf (ascii ['L', 'I', 'S', 'T', '\n']) then some .LIST
  else if strncmp buf (ascii ['D', 'E', 'L', 'E', 'T', 'E']) then some .DELETE
  else none

/-- Where the file name starts. -/
def Verb.offset : Verb → ℕ
  | DELETE => 7
  | _ => 4

/-- `strcpy` into `char filename[256]`, whose last character is then cut off. -/
def copyFilename (usable : ℕ) (buf : List Byte) (offset : ℕ) : Outcome Filename :=
  if usable ≤ offset then .undefined
  else match cString (usable - offset) (buf.drop offset) with
    | none => .undefined
    | some name => if name = [] ∨ 256 ≤ name.length then .undefined else .next name.dropLast

def sizeBytes (size : ℕ) : List Byte := (List.range 8).map fun i ↦ UInt8.ofNat (size / 256 ^ i)

def slash : Byte := 47

/-- The array for the path is as long as `strlen` says, and `sprintf` writes both names and a slash
into it. -/
def fullPath (env : Surroundings) (filename : Filename) : Outcome Path :=
  if env.directory.length ≤ env.measured then .next (env.directory ++ slash :: filename)
  else .undefined

def okMessage : List Byte := ascii ['O', 'K', '\n']

/-- The loop that sends a file.  At the end of the file `fread` returns 0 for ever. -/
def sendFile (size : ℕ) : ℕ → ℕ → List Byte → Outcome (List Byte)
  | 0, _, _ => .hang
  | fuel + 1, total, rest =>
      if total < size then
        if rest = [] then .hang
        else do
          let chunk := rest.take BUFFER_SIZE
          let more ← sendFile size fuel (total + chunk.length) (rest.drop BUFFER_SIZE)
          pure (chunk ++ more)
      else .next []

/-- The loop that receives a file. -/
def receiveFile (ending : Ending) : ℕ → List Byte → Outcome (List Byte)
  | 0, _ => .hang
  | fuel + 1, input => do
      let (chunk, rest) ← readAllFromSocket ending BUFFER_SIZE input
      match chunk with
      | none => .next []
      | some [] => .next []
      | some chunk => do
        let more ← receiveFile ending fuel rest
        pure (chunk ++ more)

namespace Server

variable {Φ : Type} (P : Platform Φ) (s : Server Φ) (fd : ℕ)

def setSocket (sock : Socket) : Server Φ :=
  { s with sockets := Function.update s.sockets fd (some sock) }

def setInfo (info : Info) : Server Φ :=
  { s with connectionsInfo := Function.update s.connectionsInfo fd (some info) }

def send (data : List Byte) : Server Φ :=
  { s with
    sockets := Function.update s.sockets fd ((s.sockets fd).map fun sock ↦ sock.written data) }

/-- The connections are blocking.  The result of the write is not used anywhere: `sent` is
unsigned. -/
def write (data : List Byte) : Outcome (Server Φ) :=
  match s.sockets fd with
  | none => .next s
  | some sock => if sock.reader.Takes data.length then .next (s.send fd data) else .hang

/-- `shutdown` and `close` -/
def close : Server Φ :=
  let closed := (s.sockets fd).map fun sock ↦ { sock with isOpen := false }
  { s with sockets := Function.update s.sockets fd closed }

/-- The result is the state and the returned number. -/
def parsingHeader (sock : Socket) : Outcome (Server Φ × ℕ) := do
  let (buf, bytesRead, input) ←
    readRequestHeader P.usable BUFFER_SIZE sock.ending [] sock.input
  let s := s.setSocket fd { sock with input := input }
  -- a malformed request, which is parsed all the same; nothing has been written before, and the
  -- connection takes the few bytes whether they are read or not
  let s := if bytesRead = BUFFER_SIZE then s.send fd P.errBadRequest else s
  match verbOf buf with
  | none => pure (s, 1)
  | some .LIST => pure (s.setInfo fd ⟨1, some ⟨.LIST, []⟩⟩, 0)
  | some verb => do
    let filename ← copyFilename P.usable buf verb.offset
    pure (s.setInfo fd ⟨1, some ⟨verb, filename⟩⟩, 0)

def executeGet (env : Surroundings) (filename : Filename) : Outcome (Server Φ × ℕ) := do
  let path ← fullPath env filename
  match P.fopenRead s.disk path with
  | none => pure (s, 0)
  | some content => do
    let s ← s.write fd okMessage
    match P.stat s.disk path with
    | none => pure (s, 0)
    | some size => do
      let s ← s.write fd (sizeBytes size)
      let sent ← sendFile size (content.length + 1) 0 content
      let s ← s.write fd sent
      pure (s, 1)

def executePut (env : Surroundings) (sock : Socket) (filename : Filename) :
    Outcome (Server Φ × ℕ) := do
  let path ← fullPath env filename
  match P.fopenWrite s.disk path with
  | none => pure (s, 0)
  | some save => do
    -- the announced size is read and not used
    let (_, input) ← readAllFromSocket sock.ending 8 sock.input
    let content ← receiveFile sock.ending (input.length + 1) input
    let s ← (s.setSocket fd { sock with input := [] }).write fd okMessage
    let fileList := if filename ∈ s.fileList then s.fileList else s.fileList ++ [filename]
    pure ({ s with fileList := fileList, disk := save (env.closed content) }, 1)

def executeDelete (env : Surroundings) (filename : Filename) : Outcome (Server Φ × ℕ) := do
  let path ← fullPath env filename
  match P.remove s.disk path with
  | none => do
    let _ ← s.write fd P.errNoSuchFile
    .exit
  | some disk =>
    if filename ∈ s.fileList then do
      let s ← s.write fd okMessage
      pure ({ s with fileList := s.fileList.erase filename, disk := disk }, 1)
    else do
      let s ← s.write fd P.errNoSuchFile
      pure ({ s with disk := disk }, 0)

def executeList : Outcome (Server Φ × ℕ) := do
  let names := s.fileList.intersperse [newline]
  let s ← s.write fd okMessage
  let s ← s.write fd (sizeBytes names.flatten.length)
  let s ← s.write fd names.flatten
  pure (s, 1)

/-- The branches of `execute`. -/
def executeCommand (env : Surroundings) (sock : Socket) (header : Header) :
    Outcome (Server Φ × ℕ) :=
  match header.command with
  | .GET => s.executeGet P fd env header.filename
  | .PUT => s.executePut P fd env sock header.filename
  | .DELETE => s.executeDelete P fd env header.filename
  | .LIST => s.executeList fd
  | .V_UNKNOWN => .next (s, 0)

def execute (env : Surroundings) (sock : Socket) (cur : Info) : Outcome (Server Φ × ℕ) :=
  match cur.header with
  | none => .undefined
  | some header => do
    let (s, result) ← s.executeCommand P fd env sock header
    if result = 0 then pure (s, 1) else pure (s.close fd, 0)

/-- The part of `accept_epoll` for a connection that `epoll_wait` has returned. -/
def handle (env : Surroundings) : Outcome (Server Φ) :=
  match s.connectionsInfo fd, s.sockets fd with
  | some cur, some sock =>
      if cur.status = 0 then do
        let (s, result) ← s.parsingHeader P fd sock
        if result = 0 then pure s else .exit
      else if cur.status = 1 then do
        let (s, result) ← s.execute P fd env sock cur
        if result = 0 then pure s else .exit
      else pure s
  | _, _ => .undefined

/-- The part of `accept_epoll` for a new connection. -/
def accept (input : List Byte) (ending : Ending) (reader : Reader) : Server Φ :=
  (s.setSocket fd ⟨input, ending, reader, [], true⟩).setInfo fd ⟨0, none⟩

end Server

inductive Event
  | accept (fd : ℕ) (input : List Byte) (ending : Ending) (reader : Reader)
  | ready (fd : ℕ) (env : Surroundings)

variable {Φ : Type} (P : Platform Φ)

def Server.init (disk : Φ) : Server Φ := ⟨fun _ ↦ none, fun _ ↦ none, [], disk⟩

/-- A new connection gets a descriptor that is not open.  A connection whose header has not
been read is ready when there is something to read. -/
def Server.Occurs (s : Server Φ) : Event → Prop
  | .accept fd _ _ _ => ∀ sock, s.sockets fd = some sock → sock.isOpen = false
  | .ready fd _ => ∃ sock, s.sockets fd = some sock ∧ sock.isOpen = true ∧
      ∀ cur, s.connectionsInfo fd = some cur → cur.status = 0 →
        sock.input ≠ [] ∨ sock.ending ≠ .stalled

def Server.step (s : Server Φ) : Event → Outcome (Server Φ)
  | .accept fd input ending reader => .next (s.accept fd input ending reader)
  | .ready fd env => s.handle P fd env

/-- The steps after which the loop goes on. -/
def Step (s : Server Φ) (e : Event) (s' : Server Φ) : Prop :=
  s.Occurs e ∧ s.step P e = .next s'

end SystemProgramming.NonstopNetworking
