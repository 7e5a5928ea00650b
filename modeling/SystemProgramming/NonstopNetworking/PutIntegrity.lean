import SystemProgramming.NonstopNetworking.RoundTrip

/-!
# Bodies of the wrong length

`execute_put` truncates the file, reads the announced size without looking at it, and stores
what it receives.  Only a file that cannot be opened, or a connection that does not let it come to
its end, keeps it from answering `OK`.
-/

namespace SystemProgramming.NonstopNetworking

variable {Φ : Type} {P : Platform Φ} {s s' : Server Φ} {fd k : ℕ} {sock : Socket}
  {name : Filename} {path : Path} {env : Surroundings} {save : List Byte → Φ}

/-! ## What is kept -/

/-- The number of bytes that the size field declares. -/
def declared (body : List Byte) : ℕ := ofSizeBytes (body.take 8)

/-- The stream ends inside the size field or too early, or it carries extra bytes. -/
def Mismatched (sock : Socket) : Prop :=
  (sock.ending ≠ .stalled ∧
      (sock.input.length < 8 ∨ sock.input.length < 8 + declared sock.input)) ∨
    (8 ≤ sock.input.length ∧ 8 + declared sock.input < sock.input.length)

instance (sock : Socket) : Decidable (Mismatched sock) := by
  unfold Mismatched
  infer_instance

/-- The blocks that have arrived completely. -/
def wholeBlocks (input : List Byte) : List Byte :=
  input.take (input.length / BUFFER_SIZE * BUFFER_SIZE)

/-- What is given to `fwrite`: the last block only if the stream ends behind it. -/
def received (ending : Ending) (input : List Byte) : List Byte :=
  if ending = .closed then input else wholeBlocks input

/-- The connection has taken what it could of the answer when the server waits in `write`. -/
def Server.waiting (s : Server Φ) (fd : ℕ) (sock : Socket) : Server Φ :=
  match sock.ending, sock.reader with
  | .stalled, _ => s
  | _, .stops room => s.append fd (okMessage.take room)
  | _, _ => s

/-- The state when the request is over, or when the server waits for the client and the file is
still open. -/
def Server.afterPut (P : Platform Φ) (s : Server Φ) (fd : ℕ) (env : Surroundings) (sock : Socket)
    (filename : Filename) : Outcome (Server Φ) := do
  let path ← fullPath env filename
  match s.executePut P fd env sock filename, P.fopenWrite s.disk path with
  | .next (s', _), _ => pure s'
  | _, none => pure s
  | _, some save =>
    pure { s.waiting fd sock with
      disk := save (env.opened (received sock.ending (sock.input.drop 8))) }

/-- No `OK` arrives, and the list of files and the file are as before. -/
structure PutIntegrity (P : Platform Φ) (s s' : Server Φ) (fd : ℕ) (sock : Socket)
    (path : Path) : Prop where
  noOk : ∀ rest, (s'.sockets fd).map Socket.output ≠ some (sock.output ++ okMessage ++ rest)
  fileList : s'.fileList = s.fileList
  content : P.fopenRead s'.disk path = P.fopenRead s.disk path

/-- The request stays inside its memory, and does no harm. -/
def PutKeeps (P : Platform Φ) (s : Server Φ) (fd : ℕ) (env : Surroundings) (sock : Socket)
    (name : Filename) : Prop :=
  ∃ path s', fullPath env name = .next path ∧ s.afterPut P fd env sock name = .next s' ∧
    PutIntegrity P s s' fd sock path

/-! ## What has been stored when the server waits -/

theorem readAllFromSocket_of_le {ending : Ending} {count : ℕ} {input : List Byte}
    (h : count ≤ input.length) : readAllFromSocket ending count input =
      .next (some (input.take count), input.drop count) := if_pos h

theorem wholeBlocks_of_lt {input : List Byte} (h : input.length < BUFFER_SIZE) :
    wholeBlocks input = [] := by
  rw [wholeBlocks, Nat.div_eq_of_lt h, Nat.zero_mul, List.take_zero]

theorem wholeBlocks_of_le {input : List Byte} (h : BUFFER_SIZE ≤ input.length) :
    wholeBlocks input = input.take BUFFER_SIZE ++ wholeBlocks (input.drop BUFFER_SIZE) := by
  have hpos : 0 < BUFFER_SIZE := by decide
  have hdiv : input.length / BUFFER_SIZE = (input.length - BUFFER_SIZE) / BUFFER_SIZE + 1 := by
    rw [Nat.div_eq_sub_div hpos h]
  rw [wholeBlocks, wholeBlocks, List.length_drop, hdiv, Nat.succ_mul, Nat.add_comm, List.take_add]

/-- A reset ends the loop where an open connection makes it wait, and the blocks before are the
same. -/
theorem receiveFile_reset {fuel : ℕ} {input : List Byte} (hfuel : input.length < fuel) :
    receiveFile .reset fuel input = .next (wholeBlocks input) := by
  induction fuel generalizing input with
  | zero => omega
  | succ fuel ih =>
      have hsize : 0 < BUFFER_SIZE := by decide
      by_cases hfull : BUFFER_SIZE ≤ input.length
      · have hlength : (input.drop BUFFER_SIZE).length = input.length - BUFFER_SIZE :=
          List.length_drop
        have hrest := ih (show (input.drop BUFFER_SIZE).length < fuel by omega)
        rw [receiveFile, readAllFromSocket_of_le hfull, wholeBlocks_of_le hfull]
        cases hchunk : input.take BUFFER_SIZE with
        | nil =>
            have hnil := eq_nil_of_take_chunk hchunk
            rw [hnil, List.length_nil] at hfull
            omega
        | cons b chunk => simp only [Outcome.next_bind, hrest, Outcome.pure_eq]
      · have hread : readAllFromSocket .reset BUFFER_SIZE input = .next (none, []) := if_neg hfull
        rw [receiveFile, hread, wholeBlocks_of_lt (not_le.mp hfull)]
        rfl

/-- Up to the end of the stream everything is stored. -/
theorem receiveFile_closed {fuel : ℕ} {input : List Byte} (hfuel : input.length < fuel) :
    receiveFile .closed fuel input = .next input := by
  induction fuel generalizing input with
  | zero => omega
  | succ fuel ih =>
      have hsize : 0 < BUFFER_SIZE := by decide
      have hread : readAllFromSocket .closed BUFFER_SIZE input =
          .next (some (input.take BUFFER_SIZE), input.drop BUFFER_SIZE) := by
        by_cases hfull : BUFFER_SIZE ≤ input.length
        · exact if_pos hfull
        · rw [readAllFromSocket, if_neg hfull, List.take_of_length_le (by omega),
            List.drop_eq_nil_of_le (by omega)]
      rw [receiveFile, hread]
      cases hchunk : input.take BUFFER_SIZE with
      | nil =>
          rw [eq_nil_of_take_chunk hchunk]
          rfl
      | cons b chunk =>
          have hlength := congrArg List.length hchunk
          rw [List.length_take, List.length_cons] at hlength
          have hdrop : (input.drop BUFFER_SIZE).length = input.length - BUFFER_SIZE :=
            List.length_drop
          have hrest := ih (show (input.drop BUFFER_SIZE).length < fuel by omega)
          simp only [Outcome.next_bind, hrest, Outcome.pure_eq]
          rw [← hchunk, List.take_append_drop]

theorem receiveFile_eq {ending : Ending} (hending : ending ≠ .stalled) {fuel : ℕ}
    {input : List Byte} (hfuel : input.length < fuel) :
    receiveFile ending fuel input = .next (received ending input) := by
  cases ending with
  | closed => exact receiveFile_closed hfuel
  | reset => exact receiveFile_reset hfuel
  | stalled => exact absurd rfl hending

/-- Behind the size field the body begins, or the stream has ended. -/
theorem readAllFromSocket_size {ending : Ending} (hending : ending ≠ .stalled)
    (input : List Byte) : ∃ announced,
      readAllFromSocket ending 8 input = .next (announced, input.drop 8) := by
  by_cases height : 8 ≤ input.length
  · exact ⟨_, readAllFromSocket_of_le height⟩
  · rw [List.drop_eq_nil_of_le (by omega)]
    cases ending with
    | closed => exact ⟨_, if_neg height⟩
    | reset => exact ⟨_, if_neg height⟩
    | stalled => exact absurd rfl hending

namespace Server

/-! ## The request -/

theorem executePut_of_none (hpath : fullPath env name = .next path)
    (hsave : P.fopenWrite s.disk path = none) : s.executePut P fd env sock name = .next (s, 0) := by
  simp only [executePut, hpath, Outcome.next_bind, hsave, Outcome.pure_eq]

/-- The server waits as long as the client keeps its connection open. -/
theorem executePut_stalled (hpath : fullPath env name = .next path)
    (hsave : P.fopenWrite s.disk path = some save) (hending : sock.ending = .stalled) :
    s.executePut P fd env sock name = .hang := by
  simp only [executePut, hpath, Outcome.next_bind, hsave, hending]
  by_cases height : 8 ≤ sock.input.length
  · rw [readAllFromSocket_of_le height]
    simp only [Outcome.next_bind, receiveFile_stalled]
    rfl
  · have hread : readAllFromSocket .stalled 8 sock.input = .hang := if_neg height
    rw [hread]
    rfl

/-- Whatever the body was, a request whose stream ends is answered. -/
theorem executePut_of_ne (fd : ℕ) (hpath : fullPath env name = .next path)
    (hsave : P.fopenWrite s.disk path = some save) (hending : sock.ending ≠ .stalled) :
    s.executePut P fd env sock name =
      if sock.reader.Takes okMessage.length then
        .next ({ (s.setSocket fd { sock with input := [] }).send fd okMessage with
          fileList := if name ∈ s.fileList then s.fileList else s.fileList ++ [name]
          disk := save (env.closed (received sock.ending (sock.input.drop 8))) }, 1)
      else .hang := by
  obtain ⟨announced, hread⟩ := readAllFromSocket_size hending sock.input
  have hreceive := receiveFile_eq hending (Nat.lt_succ_self (sock.input.drop 8).length)
  have hsock : (s.setSocket fd { sock with input := [] }).sockets fd =
      some { sock with input := [] } := Function.update_self ..
  simp only [executePut, hpath, hsave, hread, hreceive, write, hsock, Outcome.next_bind]
  split
  · rfl
  · rfl

end Server

/-- Fewer bytes are no `OK`. -/
theorem output_ne_append (sock : Socket) (part : List Byte) (hpart : part.length < okMessage.length)
    (rest : List Byte) :
    some (sock.output ++ part) ≠ some (sock.output ++ okMessage ++ rest) := by
  intro heq
  have hlength := congrArg List.length (Option.some.inj heq)
  simp only [List.length_append] at hlength
  omega

/-- Nothing is no `OK`. -/
theorem output_ne (hsock : s.sockets fd = some sock) (rest : List Byte) :
    (s.sockets fd).map Socket.output ≠ some (sock.output ++ okMessage ++ rest) := by
  have hne := output_ne_append sock [] (by decide) rest
  rw [hsock, Option.map_some]
  simpa using hne

/-! ## The condition -/

/-- The server waits for the client. -/
def Stuck (sock : Socket) : Prop :=
  sock.ending = .stalled ∨ ¬ sock.reader.Takes okMessage.length

/-- The stream has ended, and the connection is gone before it has taken the answer. -/
def Unanswered (sock : Socket) : Prop :=
  sock.ending ≠ .stalled ∧ ∃ room < okMessage.length, sock.reader = .gone room

/-- The file cannot be opened for writing; or the server waits, and what the open file holds is
what it held before; or no answer arrives, the name is listed already, and what the file holds at the
end is what it held before. -/
def Harmless (P : Platform Φ) (s : Server Φ) (env : Surroundings) (sock : Socket)
    (name : Filename) : Prop :=
  ∃ path, fullPath env name = .next path ∧ (P.fopenWrite s.disk path = none ∨
    ∃ save, P.fopenWrite s.disk path = some save ∧
      (Stuck sock ∧
          P.fopenRead (save (env.opened (received sock.ending (sock.input.drop 8)))) path =
            P.fopenRead s.disk path ∨
        Unanswered sock ∧ name ∈ s.fileList ∧
          P.fopenRead (save (env.closed (received sock.ending (sock.input.drop 8)))) path =
            P.fopenRead s.disk path))

/-- The part of the answer that has been taken when the server waits is no `OK`. -/
theorem waiting_ne (hsock : s.sockets fd = some sock) (hstuck : Stuck sock) (rest : List Byte) :
    ((s.waiting fd sock).sockets fd).map Socket.output ≠
      some (sock.output ++ okMessage ++ rest) := by
  unfold Server.waiting
  split
  · exact output_ne hsock rest
  · rename_i room hreader hending
    have hroom : room < okMessage.length := by
      rcases hstuck with hstalled | htakes
      · exact absurd hstalled hending
      · rw [hreader] at htakes
        exact not_le.mp htakes
    have hpart : (okMessage.take room).length < okMessage.length := by
      rw [List.length_take]
      omega
    have hne := output_ne_append sock _ hpart rest
    simpa [Server.append, hsock] using hne
  · exact output_ne hsock rest

/-- What arrives of the answer is an `OK`, unless the connection is gone before. -/
theorem received_okMessage_cases (reader : Reader) :
    reader.received okMessage = okMessage ∨
      ∃ room < okMessage.length, reader = .gone room ∧
        (reader.received okMessage).length < okMessage.length := by
  cases reader with
  | all => exact Or.inl rfl
  | stops room => exact Or.inl rfl
  | gone room =>
    by_cases hroom : room < okMessage.length
    · refine Or.inr ⟨room, hroom, rfl, ?_⟩
      rw [Reader.received, List.length_take]
      omega
    · exact Or.inl (List.take_of_length_le (not_lt.mp hroom))

/-- A request whose answer is written leaves the new file and the new list. -/
theorem putIntegrity_answered_iff (disk : Φ) :
    PutIntegrity P s { (s.setSocket fd { sock with input := [] }).send fd okMessage with
        fileList := if name ∈ s.fileList then s.fileList else s.fileList ++ [name]
        disk := disk } fd sock path ↔
      (∃ room < okMessage.length, sock.reader = .gone room) ∧ name ∈ s.fileList ∧
        P.fopenRead disk path = P.fopenRead s.disk path := by
  have houtput : ((({ sock with input := [] } : Socket).written okMessage).output) =
      sock.output ++ sock.reader.received okMessage := rfl
  have hsend : ((s.setSocket fd { sock with input := [] }).send fd okMessage).sockets fd =
      some (({ sock with input := [] } : Socket).written okMessage) :=
    Server.sockets_send (Function.update_self ..)
  constructor
  · rintro ⟨hnoOk, hlist, hcontent⟩
    refine ⟨?_, ?_, hcontent⟩
    · rcases received_okMessage_cases sock.reader with hall | ⟨room, hroom, hreader, -⟩
      · refine absurd ?_ (hnoOk [])
        simp only [hsend, Option.map_some, houtput, hall, List.append_nil]
      · exact ⟨room, hroom, hreader⟩
    · by_contra hnew
      simp only [if_neg hnew] at hlist
      simpa using congrArg List.length hlist
  · rintro ⟨⟨room, hroom, hreader⟩, hmem, hcontent⟩
    refine ⟨fun rest ↦ ?_, if_pos hmem, hcontent⟩
    have hpart : (sock.reader.received okMessage).length < okMessage.length := by
      rw [hreader, Reader.received, List.length_take]
      omega
    simp only [hsend, Option.map_some, houtput]
    exact output_ne_append sock _ hpart rest

/-- A request does no harm exactly if it is harmless. -/
theorem putKeeps_iff (hsock : s.sockets fd = some sock) :
    PutKeeps P s fd env sock name ↔ Harmless P s env sock name := by
  unfold PutKeeps Harmless
  refine exists_congr fun path ↦ ?_
  rw [exists_and_left]
  refine and_congr_right fun hpath ↦ ?_
  cases hsave : P.fopenWrite s.disk path with
  | none =>
      have hafter : s.afterPut P fd env sock name = .next s := by
        simp only [Server.afterPut, hpath, Outcome.next_bind,
          Server.executePut_of_none hpath hsave, Outcome.pure_eq]
      exact ⟨fun _ ↦ Or.inl rfl, fun _ ↦ ⟨s, hafter, output_ne hsock, rfl, rfl⟩⟩
  | some save =>
      have hwaits (hstuck : Stuck sock)
          (hhang : s.executePut P fd env sock name = .hang) :
          (∃ s', s.afterPut P fd env sock name = .next s' ∧ PutIntegrity P s s' fd sock path) ↔
            P.fopenRead (save (env.opened (received sock.ending (sock.input.drop 8)))) path =
              P.fopenRead s.disk path := by
        have hlist : (s.waiting fd sock).fileList = s.fileList := by
          unfold Server.waiting
          split <;> rfl
        simp only [Server.afterPut, hpath, hhang, hsave, Outcome.next_bind, Outcome.pure_eq,
          Outcome.next.injEq, exists_eq_left']
        exact ⟨fun h ↦ h.content, fun h ↦ ⟨waiting_ne hsock hstuck, hlist, h⟩⟩
      by_cases hending : sock.ending = .stalled
      · rw [hwaits (Or.inl hending) (Server.executePut_stalled hpath hsave hending)]
        simp [Stuck, Unanswered, hending]
      · have hput := Server.executePut_of_ne fd hpath hsave hending
        by_cases htakes : sock.reader.Takes okMessage.length
        · rw [if_pos htakes] at hput
          simp only [Server.afterPut, hpath, hput, Outcome.next_bind, Outcome.pure_eq,
            Outcome.next.injEq, exists_eq_left', putIntegrity_answered_iff]
          simp [Stuck, Unanswered, hending, htakes]
        · rw [if_neg htakes] at hput
          rw [hwaits (Or.inr htakes) hput]
          have hanswered : ¬ ∃ room < okMessage.length, sock.reader = .gone room := by
            rintro ⟨room, -, hreader⟩
            rw [hreader] at htakes
            exact htakes trivial
          simp [Stuck, Unanswered, hending, htakes, hanswered]

/-- The same for a body of the wrong length. -/
theorem putIntegrity_iff (P : Platform Φ) (env : Surroundings) (name : Filename)
    (hsock : s.sockets fd = some sock) :
    (Mismatched sock → PutKeeps P s fd env sock name) ↔
      (Mismatched sock → Harmless P s env sock name) :=
  imp_congr_right fun _ ↦ putKeeps_iff hsock

/-- Five bytes are declared, and two are sent before the stream ends. -/
def shortPut : Socket := ⟨sizeBytes 5 ++ ascii ['a', 'b'], .closed, .all, [], true⟩

theorem mismatched_shortPut : Mismatched shortPut := by decide

/-- A directory with a file, and a client that stores another one. -/
def oldServer : Server (Path → Option (List Byte)) :=
  (Server.init fun _ ↦ some (ascii ['o', 'l', 'd'])).setSocket 4 shortPut

theorem socket_oldServer : oldServer.sockets 4 = some shortPut := by
  simp [oldServer, Server.setSocket]

theorem usable_smallPlatform : 0 < smallPlatform.usable := smallPlatform.usable_pos

/-- The directory is read-only. -/
def readOnlyPlatform : Platform (Path → Option (List Byte)) :=
  { smallPlatform with usable_pos := usable_smallPlatform, fopenWrite := fun _ _ ↦ none }

theorem putIntegrity_readOnly : Mismatched shortPut ∧
    PutKeeps readOnlyPlatform oldServer 4 calm shortPut (ascii ['f']) :=
  ⟨mismatched_shortPut, (putIntegrity_iff readOnlyPlatform calm (ascii ['f']) socket_oldServer).mpr
    (fun _ ↦ ⟨_, fullPath_calm _, Or.inl rfl⟩) mismatched_shortPut⟩

/-- The short body is answered with `OK`. -/
theorem shortPut_accepted :
    ¬ ∀ (P : Platform (Path → Option (List Byte))) (s : Server (Path → Option (List Byte)))
      (fd : ℕ) (env : Surroundings) (sock : Socket) (name : Filename),
      s.sockets fd = some sock → Mismatched sock → PutKeeps P s fd env sock name := by
  intro h
  have hkeeps := h smallPlatform oldServer 4 calm shortPut (ascii ['f']) socket_oldServer
    mismatched_shortPut
  obtain ⟨path, -, hnone | ⟨save, -, ⟨hstuck, -⟩ | ⟨⟨-, room, -, hgone⟩, -⟩⟩⟩ :=
    (putKeeps_iff socket_oldServer).mp hkeeps
  · cases hnone
  · rcases hstuck with hstalled | htakes
    · cases hstalled
    · exact htakes trivial
  · cases hgone

end SystemProgramming.NonstopNetworking
