import SystemProgramming.CharmingChatroom.Framing
import SystemProgramming.Lib.Runs

/-!
# The chat server

`run_server` and the threads of `process_client`, which share the table of clients.  What is
done under the mutex without waiting is one step; a broadcast holds the mutex for many.  The
system may give the number of a closed descriptor to the next connection.
-/

namespace SystemProgramming.CharmingChatroom

def MAX_CLIENTS : ℕ := 8

/-- Where the loop of `write_to_clients` stands: at its top, or in one of the two transfers. -/
inductive Write
  | slot
  | header (fd : ℤ) (left : List Byte)
  | body (fd : ℤ) (left : List Byte)
  deriving DecidableEq

/-- Where a thread stands.  The loop of `process_client` is left for good before the
descriptor is closed, and the slot is given back after that. -/
inductive Pc
  | reading
  | handing (message : Message)
  | writing (broadcast : ℕ) (message : Message) (i : ℕ) (write : Write)
  | leaving
  | closed
  | gone
  deriving DecidableEq

/-- Thread `n` serves the `n`-th connection.  It only knows the index of its slot; `fd` is what
`accept` returned for the connection. -/
structure Thread where
  clientId : ℤ
  fd : ℤ
  pc : Pc
  deriving DecidableEq

/-- The globals, the threads and the system's side.  A descriptor designates a connection;
`pending` is `client_fd` with its connection before the lock has been taken.  Every byte on a
wire carries the number of its broadcast, and a broadcast is noted with the number of
connections that had been accepted when it began. -/
structure Server where
  clients : ℤ → ℤ
  clientsCount : ℤ
  mutex : Option ℕ
  pending : Option (ℤ × ℕ)
  threads : ℕ → Option Thread
  accepted : ℕ
  connection : ℤ → Option ℕ
  indices : List ℤ
  sent : List Message
  broadcasts : List (Message × ℕ)
  wire : ℕ → List (ℕ × Byte)

inductive Event
  | accept (fd : Option ℕ)
  | enroll
  | receive (n : ℕ) (message : Message) (size : ℕ)
  | lock (n : ℕ)
  | advance (n : ℕ)
  | write (n : ℕ) (reply : Reply)
  | leave (n : ℕ)
  | close (n : ℕ)
  | clear (n : ℕ)
  deriving DecidableEq

def findFreeClient (clients : ℤ → ℤ) : ℤ :=
  match (List.range MAX_CLIENTS).find? fun i : ℕ ↦ clients i = -1 with
  | some i => i
  | none => -1

namespace Server

def start : Server where
  clients _ := -1
  clientsCount := 0
  mutex := none
  pending := none
  threads _ := none
  accepted := 0
  connection _ := none
  indices := []
  sent := []
  broadcasts := []
  wire _ := []

variable (s : Server) (n : ℕ)

def setPc (pc : Pc) : Server :=
  { s with threads := Function.update s.threads n ((s.threads n).map fun t ↦ { t with pc := pc }) }

/-- `close(fd)` -/
def closeFd (fd : ℤ) : Server := { s with connection := Function.update s.connection fd none }

/-! ## `run_server` -/

/-- `accept` returns a descriptor that is not in use, or fails. -/
def accept (fd : Option ℕ) : Option Server :=
  match s.pending, fd with
  | some _, _ => none
  | none, none => some { s with pending := some (-1, s.accepted), accepted := s.accepted + 1 }
  | none, some fd =>
      if s.connection fd = none then
        some { s with
          pending := some (fd, s.accepted)
          accepted := s.accepted + 1
          connection := Function.update s.connection fd (some s.accepted) }
      else none

/-- The critical section, and the new thread. -/
def enroll : Option Server :=
  match s.mutex, s.pending with
  | none, some (fd, n) =>
      if s.clientsCount > MAX_CLIENTS then some { s.closeFd fd with pending := none }
      else
        let clientIdx := findFreeClient s.clients
        some { s with
          clients := Function.update s.clients clientIdx fd
          clientsCount := s.clientsCount + 1
          pending := none
          threads := Function.update s.threads n (some ⟨clientIdx, fd, .reading⟩)
          indices := clientIdx :: s.indices }
  | _, _ => none

/-! ## `process_client` -/

/-- The client has sent `message`, of which `size` bytes arrive before the stream ends. -/
def receive (message : Message) (size : ℕ) : Option Server :=
  match s.threads n with
  | some ⟨clientId, _, .reading⟩ =>
      if 0 < size ∧ size ≤ message.length ∧ s.connection (s.clients clientId) ≠ none then
        some { s.setPc n (.handing (message.take size)) with sent := message :: s.sent }
      else none
  | _ => none

/-- The loop ends: a read fails or finds nothing, or the session is over. -/
def leave : Option Server :=
  match s.threads n with
  | some ⟨_, _, .reading⟩ => some (s.setPc n .leaving)
  | _ => none

def close : Option Server :=
  match s.threads n with
  | some ⟨clientId, _, .leaving⟩ => some ((s.closeFd (s.clients clientId)).setPc n .closed)
  | _ => none

def clear : Option Server :=
  match s.mutex, s.threads n with
  | none, some ⟨clientId, _, .closed⟩ =>
      some { s.setPc n .gone with
        clients := Function.update s.clients clientId (-1)
        clientsCount := s.clientsCount - 1
        indices := clientId :: s.indices }
  | _, _ => none

/-! ## `write_to_clients` -/

def lock : Option Server :=
  match s.mutex, s.threads n with
  | none, some ⟨_, _, .handing message⟩ =>
      some { s.setPc n (.writing s.broadcasts.length message 0 .slot) with
        mutex := some n
        broadcasts := s.broadcasts ++ [(message, s.accepted)] }
  | _, _ => none

/-- The loop goes to the next slot, begins to write to a client, or ends. -/
def advance : Option Server :=
  match s.threads n with
  | some ⟨_, _, .writing b message i .slot⟩ =>
      if i < MAX_CLIENTS then
        if s.clients i ≠ -1 then
          let header := bigEndian MESSAGE_SIZE_DIGITS message.length
          some (s.setPc n (.writing b message i (.header (s.clients i) header)))
        else some (s.setPc n (.writing b message (i + 1) .slot))
      else some { s.setPc n .reading with mutex := none }
  | _ => none

/-- A call of `write`: the bytes that are left, unless it fails. -/
def writeCall (b : ℕ) (fd : ℤ) (left : List Byte) : Reply → Option (List Byte) × Server
  | .interrupted => (some left, s)
  | .failed => (none, s)
  | .upTo more =>
      match s.connection fd with
      | none => (none, s)
      | some c =>
          let piece := (left.take (more + 1)).map fun byte ↦ (b, byte)
          (some (left.drop (more + 1)),
            { s with wire := Function.update s.wire c (s.wire c ++ piece) })

/-- The body follows a header that has been written.  A failure is reported, and the loop goes
on with the next slot. -/
def afterHeader (b : ℕ) (message : Message) (i : ℕ) (fd : ℤ) : Option (List Byte) → Pc
  | none => .writing b message (i + 1) .slot
  | some [] => .writing b message i (.body (s.clients i) message)
  | some left => .writing b message i (.header fd left)

def afterBody (b : ℕ) (message : Message) (i : ℕ) (fd : ℤ) : Option (List Byte) → Pc
  | none | some [] => .writing b message (i + 1) .slot
  | some left => .writing b message i (.body fd left)

def write (reply : Reply) : Option Server :=
  match s.threads n with
  | some ⟨_, _, .writing b message i (.header fd left)⟩ =>
      let (left, s') := s.writeCall b fd left reply
      some (s'.setPc n (s.afterHeader b message i fd left))
  | some ⟨_, _, .writing b message i (.body fd left)⟩ =>
      let (left, s') := s.writeCall b fd left reply
      some (s'.setPc n (afterBody b message i fd left))
  | _ => none

def step : Event → Option Server
  | .accept fd => s.accept fd
  | .enroll => s.enroll
  | .receive n message size => s.receive n message size
  | .lock n => s.lock n
  | .advance n => s.advance n
  | .write n reply => s.write n reply
  | .leave n => s.leave n
  | .close n => s.close n
  | .clear n => s.clear n

/-! ## What a step leaves behind -/

variable {s n} {s' : Server}

theorem accept_cases {fd : Option ℕ} (h : s.accept fd = some s') : s.pending = none ∧
    (fd = none ∧ s' = { s with pending := some (-1, s.accepted), accepted := s.accepted + 1 } ∨
      ∃ number : ℕ, fd = some number ∧ s.connection number = none ∧
        s' = { s with
          pending := some ((number : ℤ), s.accepted)
          accepted := s.accepted + 1
          connection := Function.update s.connection number (some s.accepted) }) := by
  unfold accept at h
  split at h
  · cases h
  · rename_i hpending
    exact ⟨hpending, Or.inl ⟨rfl, (Option.some.inj h).symm⟩⟩
  · rename_i number hpending
    split at h
    · rename_i hfree
      exact ⟨hpending, Or.inr ⟨number, rfl, hfree, (Option.some.inj h).symm⟩⟩
    · cases h

theorem enroll_cases (h : s.enroll = some s') : s.mutex = none ∧ ∃ fd n, s.pending = some (fd, n) ∧
    (s.clientsCount > MAX_CLIENTS ∧ s' = { s.closeFd fd with pending := none } ∨
      ¬ s.clientsCount > MAX_CLIENTS ∧
        s' = { s with
          clients := Function.update s.clients (findFreeClient s.clients) fd
          clientsCount := s.clientsCount + 1
          pending := none
          threads := Function.update s.threads n
            (some ⟨findFreeClient s.clients, fd, .reading⟩)
          indices := findFreeClient s.clients :: s.indices }) := by
  unfold enroll at h
  split at h
  · rename_i fd n hmutex hpending
    refine ⟨hmutex, fd, n, hpending, ?_⟩
    split at h
    · rename_i hmany
      exact Or.inl ⟨hmany, (Option.some.inj h).symm⟩
    · rename_i hfew
      exact Or.inr ⟨hfew, (Option.some.inj h).symm⟩
  · cases h

theorem receive_cases {message : Message} {size : ℕ} (h : s.receive n message size = some s') :
    ∃ clientId fd, s.threads n = some ⟨clientId, fd, .reading⟩ ∧ 0 < size ∧
      size ≤ message.length ∧
      s' = { s.setPc n (.handing (message.take size)) with sent := message :: s.sent } := by
  unfold receive at h
  split at h
  · rename_i clientId fd hthread
    split at h
    · rename_i hsize
      exact ⟨clientId, fd, hthread, hsize.1, hsize.2.1, (Option.some.inj h).symm⟩
    · cases h
  · cases h

theorem leave_cases (h : s.leave n = some s') :
    ∃ clientId fd, s.threads n = some ⟨clientId, fd, .reading⟩ ∧ s' = s.setPc n .leaving := by
  unfold leave at h
  split at h
  · rename_i clientId fd hthread
    exact ⟨clientId, fd, hthread, (Option.some.inj h).symm⟩
  · cases h

theorem close_cases (h : s.close n = some s') :
    ∃ clientId fd, s.threads n = some ⟨clientId, fd, .leaving⟩ ∧
      s' = (s.closeFd (s.clients clientId)).setPc n .closed := by
  unfold close at h
  split at h
  · rename_i clientId fd hthread
    exact ⟨clientId, fd, hthread, (Option.some.inj h).symm⟩
  · cases h

theorem clear_cases (h : s.clear n = some s') : s.mutex = none ∧
    ∃ clientId fd, s.threads n = some ⟨clientId, fd, .closed⟩ ∧
      s' = { s.setPc n .gone with
        clients := Function.update s.clients clientId (-1)
        clientsCount := s.clientsCount - 1
        indices := clientId :: s.indices } := by
  unfold clear at h
  split at h
  · rename_i clientId fd hmutex hthread
    exact ⟨hmutex, clientId, fd, hthread, (Option.some.inj h).symm⟩
  · cases h

theorem lock_cases (h : s.lock n = some s') : s.mutex = none ∧
    ∃ clientId fd message, s.threads n = some ⟨clientId, fd, .handing message⟩ ∧
      s' = { s.setPc n (.writing s.broadcasts.length message 0 .slot) with
        mutex := some n
        broadcasts := s.broadcasts ++ [(message, s.accepted)] } := by
  unfold lock at h
  split at h
  · rename_i clientId fd message hmutex hthread
    exact ⟨hmutex, clientId, fd, message, hthread, (Option.some.inj h).symm⟩
  · cases h

theorem advance_cases (h : s.advance n = some s') :
    ∃ clientId fd b message i, s.threads n = some ⟨clientId, fd, .writing b message i .slot⟩ ∧
      (i < MAX_CLIENTS ∧ s.clients i ≠ -1 ∧
          s' = s.setPc n (.writing b message i (.header (s.clients i)
            (bigEndian MESSAGE_SIZE_DIGITS message.length))) ∨
        i < MAX_CLIENTS ∧ s.clients i = -1 ∧ s' = s.setPc n (.writing b message (i + 1) .slot) ∨
        MAX_CLIENTS ≤ i ∧ s' = { s.setPc n .reading with mutex := none }) := by
  unfold advance at h
  split at h
  · rename_i clientId fd b message i hthread
    refine ⟨clientId, fd, b, message, i, hthread, ?_⟩
    by_cases hi : i < MAX_CLIENTS
    · rw [if_pos hi] at h
      by_cases hfree : s.clients i = -1
      · rw [if_neg (not_not.mpr hfree)] at h
        exact Or.inr (Or.inl ⟨hi, hfree, (Option.some.inj h).symm⟩)
      · rw [if_pos hfree] at h
        exact Or.inl ⟨hi, hfree, (Option.some.inj h).symm⟩
    · rw [if_neg hi] at h
      exact Or.inr (Or.inr ⟨not_lt.mp hi, (Option.some.inj h).symm⟩)
  · cases h

theorem write_cases {reply : Reply} (h : s.write n reply = some s') :
    ∃ clientId fd b message i out left,
      s.threads n = some ⟨clientId, fd, .writing b message i (.header out left)⟩ ∧
          s' = (s.writeCall b out left reply).2.setPc n
            (s.afterHeader b message i out (s.writeCall b out left reply).1) ∨
        s.threads n = some ⟨clientId, fd, .writing b message i (.body out left)⟩ ∧
          s' = (s.writeCall b out left reply).2.setPc n
            (afterBody b message i out (s.writeCall b out left reply).1) := by
  unfold write at h
  split at h
  · rename_i clientId fd b message i out left hthread
    exact ⟨clientId, fd, b, message, i, out, left, Or.inl ⟨hthread, (Option.some.inj h).symm⟩⟩
  · rename_i clientId fd b message i out left hthread
    exact ⟨clientId, fd, b, message, i, out, left, Or.inr ⟨hthread, (Option.some.inj h).symm⟩⟩
  · cases h

end Server

end SystemProgramming.CharmingChatroom
