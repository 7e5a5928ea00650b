import SystemProgramming.NonstopNetworking.Fragments

/-!
# A file that is stored and fetched

The client of `client.c` and the server, with all their transfers in pieces.  What has been
stored under a name is what a later client receives, if both requests lead to one place and no
command in between leads to it.
-/

namespace SystemProgramming.NonstopNetworking

/-! ## The client -/

/-- The number in the bytes of a `size_t`. -/
def ofSizeBytes (bytes : List Byte) : ℕ := Nat.ofDigits 256 (bytes.map UInt8.toNat)

def checkReadByte (total fileSize : ℕ) : ℕ :=
  if total = 0 ∧ total ≠ fileSize then 1
  else if total < fileSize then 1
  else if fileSize < total then 1
  else 0

namespace Client

/-- The loop of `put_request`. -/
def sendChunks : ℕ → List Byte → List Reply → Outcome (List Byte × List Reply)
  | 0, _, _ => .hang
  | fuel + 1, rest, schedule =>
      if rest = [] then .next ([], schedule)
      else do
        let (sent, schedule) ← writeInPieces schedule (rest.take BUFFER_SIZE)
        let (more, schedule) ← sendChunks fuel (rest.drop BUFFER_SIZE) schedule
        pure (sent ++ more, schedule)

/-- What is sent of a local file, before the sending side is closed. -/
def putRequest (content : List Byte) (schedule : List Reply) : Outcome (List Byte) := do
  let (size, schedule) ← writeInPieces schedule (sizeBytes content.length)
  let (sent, _) ← sendChunks (content.length + 1) content schedule
  pure (size ++ sent)

/-- The bytes of the local file and the result of `check_read_byte`.  The answer ends when the
server closes the connection. -/
def getRequest (answer : List Byte) (schedule : List Reply) : Outcome (List Byte × ℕ) := do
  let (size, rest, schedule) ← readInPieces .closed 8 schedule answer
  match size with
  | none => .undefined
  | some size =>
    -- fewer bytes leave a part of `file_size` as it was
    if size.length < 8 then .undefined
    else do
      let (content, _) ← receiveInPieces .closed (rest.length + 1) rest schedule
      pure (content, checkReadByte content.length (ofSizeBytes size))

/-- The result, and what is left of the answer.  What follows an answer that is not `OK` is
only printed. -/
def checkResponse (answer : List Byte) (schedule : List Reply) :
    Outcome (ℕ × List Byte × List Reply) := do
  let (buf, rest, schedule) ← readInPieces .closed okMessage.length schedule answer
  match buf with
  | none => .undefined
  | some buf => pure (if buf = okMessage then 1 else 0, rest, schedule)

/-- What `main` sends to store a file. -/
def mainPut (remote : Filename) (content : List Byte) (schedule : List Reply) :
    Outcome (List Byte) := do
  let (line, schedule) ← writeInPieces schedule (requestLine ⟨.PUT, remote⟩)
  let body ← putRequest content schedule
  pure (line ++ body)

/-- What `main` does with the answer when it fetches a file. -/
def mainGet (answer : List Byte) (schedule : List Reply) : Outcome (Option (List Byte × ℕ)) := do
  let (result, rest, schedule) ← checkResponse answer schedule
  if result = 0 then pure none
  else do
    let (content, check) ← getRequest rest schedule
    pure (some (content, check))

end Client

theorem checkReadByte_self (n : ℕ) : checkReadByte n n = 0 := by
  simp [checkReadByte]

theorem ofDigits_range {width n : ℕ} (h : n < 256 ^ width) : Nat.ofDigits 256
    (((List.range width).map fun i ↦ UInt8.ofNat (n / 256 ^ i)).map UInt8.toNat) = n := by
  induction width generalizing n with
  | zero =>
    rw [pow_zero] at h
    simpa using (Nat.lt_one_iff.mp h).symm
  | succ width ih =>
    have hdiv : n / 256 < 256 ^ width := by
      rw [Nat.div_lt_iff_lt_mul (by norm_num), ← pow_succ]
      exact h
    have hrest : (List.range width).map (fun i ↦ UInt8.ofNat (n / 256 ^ (i + 1))) =
        (List.range width).map fun i ↦ UInt8.ofNat (n / 256 / 256 ^ i) := by
      refine List.map_congr_left fun i _ ↦ ?_
      rw [Nat.div_div_eq_div_mul, pow_succ']
    have hlow : (UInt8.ofNat n).toNat = n % 256 := UInt8.toNat_ofNat'
    rw [List.range_succ_eq_map, List.map_cons, List.map_map, List.map_cons, Nat.ofDigits_cons]
    have hshift : ((fun i ↦ UInt8.ofNat (n / 256 ^ i)) ∘ Nat.succ) =
        fun i ↦ UInt8.ofNat (n / 256 ^ (i + 1)) := rfl
    rw [hshift, hrest, ih hdiv, pow_zero, Nat.div_one, hlow]
    exact Nat.mod_add_div n 256

theorem ofSizeBytes_sizeBytes {n : ℕ} (h : n < 2 ^ 64) : ofSizeBytes (sizeBytes n) = n := by
  have hpow : n < 256 ^ 8 := h.trans_eq (by norm_num)
  exact ofDigits_range hpow

/-- What a client that stores a file sends behind its request line. -/
def putBody (content : List Byte) : List Byte := sizeBytes content.length ++ content

namespace Client

variable {schedule : List Reply} {content : List Byte}

theorem exists_sendChunks {fuel : ℕ} {rest : List Byte} (hfuel : rest.length < fuel)
    (hfail : .failed ∉ schedule) (hprogress : rest.length ≤ progress schedule) :
    ∃ schedule', sendChunks fuel rest schedule = .next (rest, schedule') := by
  induction fuel generalizing rest schedule with
  | zero => omega
  | succ fuel ih =>
    by_cases hnil : rest = []
    · exact ⟨schedule, by simp [sendChunks, hnil]⟩
    · have hpos := List.length_pos_iff.mpr hnil
      have hchunk : rest.take BUFFER_SIZE ≠ [] := fun h ↦ hnil (eq_nil_of_take_chunk h)
      have htake : (rest.take BUFFER_SIZE).length = min BUFFER_SIZE rest.length :=
        List.length_take
      have hdrop : (rest.drop BUFFER_SIZE).length = rest.length - BUFFER_SIZE :=
        List.length_drop
      have hbuffer : 0 < BUFFER_SIZE := by decide
      obtain ⟨schedule₁, hwrite, hfail₁, hleft⟩ := exists_writeInPieces hchunk hfail (by omega)
      obtain ⟨schedule₂, hmore⟩ := @ih schedule₁ (rest.drop BUFFER_SIZE) (by omega) hfail₁ (by omega)
      refine ⟨schedule₂, ?_⟩
      simp only [sendChunks, if_neg hnil, hwrite, hmore, Outcome.next_bind, Outcome.pure_eq,
        List.take_append_drop]

/-- The client sends its request, the announced size and the bytes of its file. -/
theorem mainPut_eq (remote : Filename) (hfail : .failed ∉ schedule)
    (hprogress : (requestLine ⟨.PUT, remote⟩).length + 8 + content.length ≤ progress schedule) :
    mainPut remote content schedule =
      .next (requestLine ⟨.PUT, remote⟩ ++ putBody content) := by
  have hline : requestLine ⟨.PUT, remote⟩ ≠ [] := by simp [requestLine]
  have hsize : sizeBytes content.length ≠ [] := by simp [sizeBytes]
  have hlength := length_sizeBytes content.length
  obtain ⟨schedule₁, hwrite₁, hfail₁, hleft₁⟩ := exists_writeInPieces hline hfail (by omega)
  obtain ⟨schedule₂, hwrite₂, hfail₂, hleft₂⟩ := exists_writeInPieces hsize hfail₁ (by omega)
  obtain ⟨schedule₃, hsent⟩ := exists_sendChunks (Nat.lt_succ_self content.length) hfail₂ (by omega)
  simp only [mainPut, putRequest, hwrite₁, hwrite₂, hsent, Outcome.next_bind, Outcome.pure_eq,
    putBody]

theorem getRequest_eq (hsize : content.length < 2 ^ 64) (hfail : .failed ∉ schedule)
    (hprogress : content.length + 10 ≤ progress schedule) :
    getRequest (sizeBytes content.length ++ content) schedule = .next (content, 0) := by
  have height := length_sizeBytes content.length
  obtain ⟨schedule₁, hread₁, hfail₁, hleft₁⟩ :=
    @exists_readInPieces schedule 8 (sizeBytes content.length ++ content) hfail (by omega)
      (by simp only [List.length_append]; omega)
  rw [List.take_left' height, List.drop_left' height] at hread₁
  rw [List.length_append] at hleft₁
  obtain ⟨schedule₂, hread₂, -⟩ :=
    exists_receiveInPieces (Nat.lt_succ_self content.length) hfail₁ (by omega)
  simp only [getRequest, hread₁, Outcome.next_bind, height, lt_irrefl, if_false, hread₂,
    ofSizeBytes_sizeBytes hsize, checkReadByte_self, Outcome.pure_eq]

/-- Of a complete answer the client stores the file, and has nothing to complain about. -/
theorem mainGet_eq (hsize : content.length < 2 ^ 64) (hfail : .failed ∉ schedule)
    (hprogress : content.length + 13 ≤ progress schedule) :
    mainGet (okMessage ++ (sizeBytes content.length ++ content)) schedule =
      .next (some (content, 0)) := by
  have hok : okMessage.length = 3 := rfl
  obtain ⟨schedule₁, hread, hfail₁, hleft⟩ :=
    @exists_readInPieces schedule okMessage.length
      (okMessage ++ (sizeBytes content.length ++ content)) hfail (by omega) (by omega)
  rw [List.take_left' rfl, List.drop_left' rfl] at hread
  have hresponse : checkResponse (okMessage ++ (sizeBytes content.length ++ content)) schedule =
      .next (1, sizeBytes content.length ++ content, schedule₁) := by
    simp only [checkResponse, hread, Outcome.next_bind, Outcome.pure_eq, if_true]
  have hrequest := getRequest_eq hsize hfail₁ (by omega)
  simp only [mainGet, hresponse, Outcome.next_bind, if_neg one_ne_zero, hrequest, Outcome.pure_eq]

end Client

/-! ## What a connection has sent -/

/-- The stream with which the connection `fd` was accepted, and how often it has been ready. -/
abbrev Connection := List Byte × Ending × ℕ

def track (fd : ℕ) (connection : Option Connection) : Event × List Reply → Option Connection
  | (.accept fd' input ending _, _) => if fd' = fd then some (input, ending, 0) else connection
  | (.ready fd' _, _) =>
      if fd' = fd then connection.map fun (input, ending, n) ↦ (input, ending, n + 1)
      else connection

def connectionOf (fd : ℕ) (events : List (Event × List Reply)) : Option Connection :=
  events.foldl (track fd) none

theorem connectionOf_concat (fd : ℕ) (events : List (Event × List Reply))
    (event : Event × List Reply) :
    connectionOf fd (events ++ [event]) = track fd (connectionOf fd events) event := by
  simp [connectionOf]

variable {Φ Loc : Type} {P : Platform Φ} {s s' t u : Server Φ} {fd : ℕ} {verb : Verb}
  {name : Filename} {path : Path} {env : Surroundings} {body input content : List Byte}
  {ending : Ending} {schedule : List Reply} {events : List (Event × List Reply)} {disk : Φ}

/-- The connection is open, and its request has been parsed. -/
structure Requested (s : Server Φ) (fd : ℕ) (header : Header) (body : List Byte)
    (ending : Ending) : Prop where
  socket : ∃ reader, s.sockets fd = some ⟨body, ending, reader, [], true⟩
  info : s.connectionsInfo fd = some ⟨1, some header⟩

theorem Requested.occurs {header : Header} (h : Requested s fd header body ending) :
    s.Occurs (.ready fd env) := by
  obtain ⟨reader, hsock⟩ := h.socket
  refine ⟨_, hsock, rfl, fun cur hcur hzero ↦ ?_⟩
  rw [h.info] at hcur
  cases hcur
  cases hzero

theorem Requested.executing {header : Header} (h : Requested s fd header body ending) :
    s.executing (.ready fd env) = some header := by
  simp [Server.executing, h.info]

/-- What the run has made of a connection: nothing so far, or the parsed header. -/
structure Tracked (s : Server Φ) (fd : ℕ) (connection : Option Connection) (P : Platform Φ) :
    Prop where
  waiting : ∀ input ending, connection = some (input, ending, 0) →
    (∃ reader, s.sockets fd = some ⟨input, ending, reader, [], true⟩) ∧
      s.connectionsInfo fd = some ⟨0, none⟩
  requested : ∀ verb name body ending, Accepted P verb name →
    connection = some (requestLine ⟨verb, name⟩ ++ body, ending, 1) →
      Requested s fd ⟨verb, name⟩ body ending

theorem Tracked.step {connection : Option Connection} {event : Event × List Reply}
    (h : Tracked s fd connection P) (hinv : s.Inv) (hstep : StepInPieces P s event s') :
    Tracked s' fd (track fd connection event) P := by
  obtain ⟨event, schedule⟩ := event
  cases event with
  | accept fd' input ending reader =>
    obtain ⟨-, hstep⟩ := hstep
    cases hstep
    by_cases heq : fd' = fd
    · subst heq
      simp only [track, if_true]
      refine ⟨?_, ?_⟩
      · rintro input' ending' ⟨⟩
        exact ⟨⟨reader, Function.update_self ..⟩, Function.update_self ..⟩
      · rintro verb name body ending' - hone
        cases hone
    · have hsockets : (s.accept fd' input ending reader).sockets fd = s.sockets fd :=
        Function.update_of_ne (Ne.symm heq) _ _
      have hinfos : (s.accept fd' input ending reader).connectionsInfo fd = s.connectionsInfo fd :=
        Function.update_of_ne (Ne.symm heq) _ _
      simp only [track, if_neg heq]
      refine ⟨fun input' ending' hc ↦ ?_, fun verb name body ending' haccepted hc ↦ ?_⟩
      · rw [hsockets, hinfos]
        exact h.waiting input' ending' hc
      · obtain ⟨hsocket, hinfo⟩ := h.requested verb name body ending' haccepted hc
        exact ⟨by rwa [hsockets], hinfos.trans hinfo⟩
  | ready fd' env =>
    by_cases heq : fd' = fd
    · subst heq
      simp only [track, if_true]
      refine ⟨fun input' ending' hc ↦ ?_, fun verb name body ending' haccepted hc ↦ ?_⟩
      · obtain ⟨⟨_, _, n⟩, -, hzero⟩ := Option.map_eq_some_iff.mp hc
        simp at hzero
      · obtain ⟨⟨input, ending, n⟩, hprev, hsucc⟩ := Option.map_eq_some_iff.mp hc
        simp only [Prod.mk.injEq, Nat.add_eq_right] at hsucc
        obtain ⟨rfl, rfl, rfl⟩ := hsucc
        obtain ⟨⟨reader, hsock⟩, hinfo⟩ := h.waiting _ _ hprev
        have hnone : s.executing (.ready fd' env) = none := by
          simp [Server.executing, hinfo]
        have hhandle : s.handle P fd' env = .next s' := by
          have hpieces := hstep.2
          simp only [Server.stepInPieces, hnone] at hpieces
          exact hpieces
        rcases (Server.handle_eq hinfo hsock (Or.inl rfl)).mp hhandle with ⟨-, hparse⟩ | ⟨hone, -⟩
        · rw [haccepted.parsingHeader rfl] at hparse
          cases hparse
          exact ⟨⟨reader, Function.update_self ..⟩, Function.update_self ..⟩
        · cases hone
    · have hframe := (hstep.frame hinv).1
      have hsockets := hframe.sockets fd (Ne.symm heq)
      have hinfos := hframe.infos fd (Ne.symm heq)
      simp only [track, if_neg heq]
      refine ⟨fun input' ending' hc ↦ ?_, fun verb name body ending' haccepted hc ↦ ?_⟩
      · rw [hsockets, hinfos]
        exact h.waiting input' ending' hc
      · obtain ⟨hsocket, hinfo⟩ := h.requested verb name body ending' haccepted hc
        exact ⟨by rwa [hsockets], hinfos.trans hinfo⟩

theorem tracked_of_run (hrun : Run (StepInPieces P) (Server.init disk) events s) (fd : ℕ) :
    s.Inv ∧ Tracked s fd (connectionOf fd events) P := by
  induction hrun with
  | nil =>
    refine ⟨@Server.inv_of_run _ P _ disk [] Run.nil, ?_, ?_⟩
    · rintro input ending hc
      cases hc
    · rintro verb name body ending - hc
      cases hc
  | snoc _ hlast ih =>
    rw [connectionOf_concat]
    exact ⟨ih.1.stepInPieces hlast, ih.2.step ih.1 hlast⟩

/-! ## The file of a name -/

/-- The answer to a client that fetches a file. -/
def getAnswer (content : List Byte) : List Byte := okMessage ++ putBody content

/-- A complete request to store a file is executed if the file can be opened. -/
theorem exists_put (hreq : Requested s fd ⟨.PUT, name⟩ (putBody content) .closed)
    (hpath : fullPath env name = .next path) (hsave : (P.fopenWrite s.disk path).isSome)
    (hfail : .failed ∉ schedule) (hprogress : content.length + 13 ≤ progress schedule) :
    ∃ t, StepInPieces P s (.ready fd env, schedule) t := by
  obtain ⟨save, hsave⟩ := Option.isSome_iff_exists.mp hsave
  obtain ⟨reader, hsock⟩ := hreq.socket
  have height := length_sizeBytes content.length
  have hok : okMessage.length = 3 := rfl
  obtain ⟨schedule₁, hread, hfail₁, hleft₁⟩ :=
    @exists_readInPieces schedule 8 (putBody content) hfail (by omega) (by omega)
  rw [putBody, List.drop_left' height] at hread
  obtain ⟨schedule₂, hreceive, hleft₂⟩ :=
    exists_receiveInPieces (Nat.lt_succ_self content.length) hfail₁ (by omega)
  have hfail₂ := (receiveInPieces_eq_next hfail₁ hreceive).2
  obtain ⟨schedule₃, hwrite, -, -⟩ :=
    @exists_writeInPieces schedule₂ okMessage (by decide) hfail₂ (by omega)
  apply Exists.intro
  refine ⟨hreq.occurs, ?_⟩
  simp only [Server.stepInPieces, hreq.executing, hsock, Server.finish,
    Server.executePutInPieces, hpath, hsave, putBody, hread, hreceive, hwrite, Outcome.next_bind,
    Outcome.pure_eq, if_neg one_ne_zero]
  rfl

/-- A step without a failure that executes the request stores what the disk takes of the file, and
answers `OK`. -/
theorem stored_of_put (fs : FileSystem P Loc) (hpath : fullPath env name = .next path)
    (hordinary : fs.ordinary (fs.locate path))
    (hreq : Requested s fd ⟨.PUT, name⟩ (putBody content) .closed) (hfail : .failed ∉ schedule)
    (hstep : StepInPieces P s (.ready fd env, schedule) t) :
    fs.content t.disk (fs.locate path) = some (env.closed content) ∧
      ∃ sock, t.sockets fd = some sock ∧ sock.output = okMessage := by
  obtain ⟨reader, hsock⟩ := hreq.socket
  have hexec := hstep.2
  simp only [Server.stepInPieces, hreq.executing, hsock] at hexec
  obtain ⟨s₁, k, hput, hk, rfl⟩ := Server.finish_eq_next hexec
  simp only [Server.executePutInPieces, hpath, Outcome.next_bind] at hput
  split at hput
  · cases hput
    exact absurd rfl hk
  · rename_i save hsave
    obtain ⟨⟨announced, input, schedule₁⟩, hread, hreceived⟩ := Outcome.bind_eq_next_iff.mp hput
    obtain ⟨-, hinput, hfail₁⟩ := readInPieces_eq_next hfail hread
    rw [putBody, List.drop_left' (length_sizeBytes _)] at hinput
    obtain ⟨⟨stored, schedule₂⟩, hreceive, hanswered⟩ := Outcome.bind_eq_next_iff.mp hreceived
    obtain ⟨hstored, hfail₂⟩ := receiveInPieces_eq_next hfail₁ hreceive
    obtain ⟨⟨sent, schedule₃⟩, hwrite, hdone⟩ := Outcome.bind_eq_next_iff.mp hanswered
    obtain ⟨hsent, -⟩ := writeInPieces_eq_next hfail₂ hwrite
    have hcontent : stored = content := hstored.trans hinput
    have hok : sent = okMessage := hsent
    subst hcontent hok
    cases hdone
    refine ⟨fs.fopenWrite_content _ _ _ _ hordinary hsave,
      ⟨[], .closed, reader, okMessage, false⟩, ?_, rfl⟩
    simp [Server.close, Server.append, Server.setSocket]

/-- The answer to a request for a file is complete, and the connection is closed. -/
theorem exists_get (fs : FileSystem P Loc) (hpath : fullPath env name = .next path)
    (hordinary : fs.ordinary (fs.locate path))
    (hcontent : fs.content s.disk (fs.locate path) = some content)
    (hreq : Requested s fd ⟨.GET, name⟩ body ending) (hfail : .failed ∉ schedule)
    (hprogress : content.length + 11 ≤ progress schedule) :
    ∃ t sock, StepInPieces P s (.ready fd env, schedule) t ∧ t.sockets fd = some sock ∧
      sock.output = getAnswer content ∧ sock.isOpen = false := by
  obtain ⟨reader, hsock⟩ := hreq.socket
  have hopen := fs.fopenRead_eq _ _ _ hordinary hcontent
  have hstat := fs.stat_eq _ _ _ hordinary hcontent
  have height := length_sizeBytes content.length
  have hok : okMessage.length = 3 := rfl
  obtain ⟨schedule₁, hwrite₁, hfail₁, hleft₁⟩ :=
    @exists_writeInPieces schedule okMessage (by decide) hfail (by omega)
  obtain ⟨schedule₂, hwrite₂, hfail₂, hleft₂⟩ :=
    @exists_writeInPieces schedule₁ (sizeBytes content.length) (by simp [sizeBytes]) hfail₁ (by omega)
  obtain ⟨schedule₃, hsend⟩ := exists_sendInPieces (Nat.lt_succ_self content.length)
    (Nat.zero_add _).symm hfail₂ (by omega)
  refine ⟨(((s.append fd okMessage).append fd (sizeBytes content.length)).append fd content).close
      fd, ⟨body, ending, reader, getAnswer content, false⟩, ⟨hreq.occurs, ?_⟩, ?_, rfl, rfl⟩
  · have hstat' : P.stat (s.append fd okMessage).disk path = some content.length := hstat
    simp only [Server.stepInPieces, hreq.executing, hsock, Server.finish,
      Server.executeGetInPieces, hpath, hopen, hwrite₁, hstat', hwrite₂, hsend, Outcome.next_bind,
      Outcome.pure_eq, if_neg one_ne_zero]
  · simp [Server.close, Server.append, hsock, getAnswer, putBody]

namespace FileSystem

/-- No file is stored or removed at the place of the path. -/
def Apart (fs : FileSystem P Loc) (path : Path) (s : Server Φ) (event : Event × List Reply) :
    Prop :=
  ∀ header other, s.executing event.1 = some header →
    header.command = .PUT ∨ header.command = .DELETE →
      event.1.fullPath header.filename = .next other → fs.locate other ≠ fs.locate path

variable {fs : FileSystem P Loc}

theorem Apart.content_eq {event : Event × List Reply} (h : fs.Apart path s event) (hinv : s.Inv)
    (hstep : StepInPieces P s event s') :
    fs.content s'.disk (fs.locate path) = fs.content s.disk (fs.locate path) := by
  have hfiles := filesStep_of_stepInPieces hinv hstep
  generalize hcommand : s.executing event.1 = command at hfiles
  cases hfiles with
  | keep _ _ hdisk => rw [hdisk]
  | @put name other save c _ hpath hsave _ hdisk =>
    rw [hdisk]
    exact fs.fopenWrite_frame _ _ _ c _ hsave (h _ other hcommand (Or.inl rfl) hpath).symm
  | @delete name other _ hpath hremove _ _ =>
    exact fs.remove_frame _ _ _ _ hremove (h _ other hcommand (Or.inr rfl) hpath).symm

theorem content_of_run (hrun : Run (Guarded (StepInPieces P) (fs.Apart path)) s events s')
    (hinv : s.Inv) :
    fs.content s'.disk (fs.locate path) = fs.content s.disk (fs.locate path) := by
  have hkept := hrun.invariant (I := fun t ↦ t.Inv ∧
    fs.content t.disk (fs.locate path) = fs.content s.disk (fs.locate path))
    (fun t e u hI hstep ↦ ⟨hI.1.stepInPieces hstep.2,
      (hstep.1.content_eq hI.1 hstep.2).trans hI.2⟩) ⟨hinv, rfl⟩
  exact hkept.2

end FileSystem

/-- After a client has stored a file, and as long as no command leads to its place, a client that
fetches it receives the same bytes, whatever the other clients do and however the transfers
are cut.  The paths of both requests lead to one place for an ordinary file, and the disk takes all
that is written. -/
theorem get_after_put (fs : FileSystem P Loc) (haccepted : Accepted P .PUT name)
    (hsize : content.length < 2 ^ 64) {path' : Path} {env' : Surroundings}
    (hpath : fullPath env name = .next path) (hordinary : fs.ordinary (fs.locate path))
    (hpath' : fullPath env' name = .next path') (hsame : fs.locate path' = fs.locate path)
    (hclosed : env.closed content = content)
    {stream : List Byte} {schedule₀ : List Reply}
    (hclient : Client.mainPut name content schedule₀ = .next stream) (hfail₀ : .failed ∉ schedule₀)
    (hprogress₀ : (requestLine ⟨.PUT, name⟩).length + 8 + content.length ≤ progress schedule₀)
    {pre mid : List (Event × List Reply)} {fd' : ℕ} {schedule' schedule'' : List Reply}
    (hpre : Run (StepInPieces P) (Server.init disk) pre s)
    (hputter : connectionOf fd pre = some (stream, .closed, 1))
    (hput : StepInPieces P s (.ready fd env, schedule) t) (hfail : .failed ∉ schedule)
    (hmid : Run (Guarded (StepInPieces P) (fs.Apart path)) t mid u)
    (hgetter : connectionOf fd' (pre ++ (.ready fd env, schedule) :: mid) =
      some (requestLine ⟨.GET, name⟩ ++ body, ending, 1))
    (hfail' : .failed ∉ schedule') (hprogress' : content.length + 11 ≤ progress schedule')
    (hfail'' : .failed ∉ schedule'') (hprogress'' : content.length + 13 ≤ progress schedule'') :
    (∃ sock, t.sockets fd = some sock ∧ sock.output = okMessage) ∧
      ∃ v sock, StepInPieces P u (.ready fd' env', schedule') v ∧ v.sockets fd' = some sock ∧
        sock.isOpen = false ∧
        Client.mainGet sock.output schedule'' = .next (some (content, 0)) := by
  have haccepted' : Accepted P .GET name :=
    ⟨Or.inl rfl, haccepted.plain, haccepted.room, haccepted.length⟩
  rw [Client.mainPut_eq name hfail₀ hprogress₀] at hclient
  cases hclient
  obtain ⟨hinv, htracked⟩ := tracked_of_run hpre fd
  obtain ⟨hstored, hanswer⟩ := stored_of_put fs hpath hordinary
    (htracked.requested _ _ _ _ haccepted hputter) hfail hput
  have hkept := FileSystem.content_of_run hmid (hinv.stepInPieces hput)
  have hcontent : fs.content u.disk (fs.locate path') = some content := by
    rw [hsame, hkept, hstored, hclosed]
  have hrun := hpre.append (Run.cons hput hmid.of_guarded)
  have hreq := (tracked_of_run hrun fd').2.requested _ _ _ _ haccepted' hgetter
  obtain ⟨v, sock, hget, hsock, houtput, hdone⟩ :=
    exists_get fs hpath' (hsame ▸ hordinary) hcontent hreq hfail' hprogress'
  refine ⟨hanswer, v, sock, hget, hsock, hdone, ?_⟩
  rw [houtput]
  exact Client.mainGet_eq hsize hfail'' hprogress''

/-! ## Two names of one file -/

/-- The header of a new client is parsed, in the model with pieces. -/
theorem run_requested (h : Accepted P verb name)
    (hfree : ∀ sock, s.sockets fd = some sock → sock.isOpen = false) :
    Run (Guarded (StepInPieces P) fun s e ↦ s.executing e.1 = none) s
      ((requestEvents fd ⟨verb, name⟩ body ending).map fun e ↦ (e, []))
      (s.requested fd ⟨verb, name⟩ body ending) :=
  (run_requestEvents h hfree).map _ fun _ _ _ hstep ↦
    ⟨hstep.1, stepInPieces_of_step hstep.1 hstep.2⟩

theorem requested_requested {header : Header} :
    Requested (s.requested fd header body ending) fd header body ending :=
  ⟨⟨.all, Server.requested_socket⟩, Server.requested_info⟩

def longSchedule : List Reply := List.replicate 32 (.upTo 0)

/-- A client stores one byte under a name. -/
theorem exists_put_byte (fs : FileSystem P Loc) (s : Server Φ) (fd : ℕ) (name : Filename)
    (b : Byte) (hordinary : fs.ordinary (fs.locate (temporary ++ slash :: name)))
    (hsave : (P.fopenWrite s.disk (temporary ++ slash :: name)).isSome) :
    ∃ t, StepInPieces P (s.requested fd ⟨.PUT, name⟩ (putBody [b]) .closed)
        (.ready fd calm, longSchedule) t ∧
      fs.content t.disk (fs.locate (temporary ++ slash :: name)) = some [b] := by
  have hreq : Requested (s.requested fd ⟨.PUT, name⟩ (putBody [b]) .closed) fd ⟨.PUT, name⟩
      (putBody [b]) .closed := requested_requested
  obtain ⟨t, hput⟩ := exists_put hreq (fullPath_calm name) hsave
    (by decide : .failed ∉ longSchedule) (show 1 + 13 ≤ progress longSchedule by decide)
  exact ⟨t, hput, (stored_of_put fs (fullPath_calm name) hordinary hreq (by decide) hput).1⟩

theorem Server.requested_socket_ne {fd' : ℕ} {header : Header} (hne : fd' ≠ fd) :
    (s.requested fd header body ending).sockets fd' = s.sockets fd' :=
  (Function.update_of_ne hne ..).trans (Function.update_of_ne hne ..)

theorem not_open_of_frame {fd' : ℕ} (hinv : s.Inv)
    (hstep : StepInPieces P s (.ready fd env, schedule) t) (hne : fd' ≠ fd)
    (hnone : s.sockets fd' = none) (sock : Socket) (hsock : t.sockets fd' = some sock) :
    sock.isOpen = false := by
  rw [(hstep.frame hinv).1.sockets fd' hne, hnone] at hsock
  cases hsock

/-- A client stores a byte as `a`, and another one fetches it. -/
theorem get_after_put_one : ∃ events u v sock,
    Run (StepInPieces pathPlatform) (Server.init fun _ ↦ none) events u ∧
      StepInPieces pathPlatform u (.ready 5 calm, longSchedule) v ∧ v.sockets 5 = some sock ∧
      Client.mainGet sock.output longSchedule = .next (some ([7], 0)) := by
  have hname : EntryName (ascii ['a']) := by decide
  have haccepted : Accepted pathPlatform .PUT (ascii ['a']) :=
    ⟨Or.inr (Or.inl rfl), by simp [Plain, ascii, newline], by decide, by decide⟩
  have haccepted' : Accepted pathPlatform .GET (ascii ['a']) :=
    ⟨Or.inl rfl, haccepted.plain, haccepted.room, haccepted.length⟩
  have hordinary := @FileSystem.ordinary_locate _ _ pathPlatform (ascii ['a']) pathFiles hname
  have hfail : .failed ∉ longSchedule := by decide
  have hprogress : (requestLine ⟨.PUT, ascii ['a']⟩).length + 8 + 1 ≤ progress longSchedule := by
    decide
  have hpre := (@run_requested _ pathPlatform (Server.init fun _ ↦ none) 4 .PUT (ascii ['a'])
    (putBody [7]) .closed haccepted (fun _ h ↦ by cases h)).of_guarded
  obtain ⟨t, hput, -⟩ := exists_put_byte pathFiles (Server.init fun _ ↦ none) 4
    (ascii ['a']) 7 hordinary
    (by simp [pathPlatform, place_eq hname])
  have hmid := @run_requested _ pathPlatform t 5 .GET (ascii ['a']) [] .stalled haccepted'
    (not_open_of_frame (tracked_of_run hpre 4).1 hput (show 5 ≠ 4 by decide) rfl)
  have hapart := hmid.mono fun s e t h ↦ And.intro (fun header _ hheader ↦
    absurd (h.1.symm.trans hheader) (by simp) :
      pathFiles.Apart (temporary ++ slash :: ascii ['a']) s e) h.2
  obtain ⟨-, v, sock, hget, hsock, -, hclient⟩ := get_after_put pathFiles haccepted
    (show [(7 : Byte)].length < 2 ^ 64 by decide) (fullPath_calm _) hordinary (fullPath_calm _) rfl
    rfl (Client.mainPut_eq _ hfail hprogress) hfail hprogress hpre rfl hput hfail hapart
    (show connectionOf 5 _ = some (requestLine ⟨.GET, ascii ['a']⟩ ++ [], .stalled, 1) from rfl) hfail
    (show 1 + 11 ≤ progress longSchedule by decide) hfail
    (show 1 + 13 ≤ progress longSchedule by decide)
  exact ⟨_, _, v, sock, hpre.append (Run.cons hput hmid.of_guarded), hget, hsock, hclient⟩

/-- A byte is stored as `a`.  Then another one is stored as `./a`, and is what a client that
fetches `a` receives, although `a` has been neither stored nor removed again. -/
theorem alias_is_overwritten : ∃ pre s t mid u v sock,
    Run (StepInPieces pathPlatform) (Server.init fun _ ↦ none) pre s ∧
    connectionOf 4 pre = some (requestLine ⟨.PUT, ascii ['a']⟩ ++ putBody [1], .closed, 1) ∧
    StepInPieces pathPlatform s (.ready 4 calm, longSchedule) t ∧
    Run (Guarded (StepInPieces pathPlatform) fun s e ↦
      ∀ header, s.executing e.1 = some header → header.filename ≠ ascii ['a']) t mid u ∧
    connectionOf 6 (pre ++ (.ready 4 calm, longSchedule) :: mid) =
      some (requestLine ⟨.GET, ascii ['a']⟩ ++ [], .stalled, 1) ∧
    StepInPieces pathPlatform u (.ready 6 calm, longSchedule) v ∧ v.sockets 6 = some sock ∧
    Client.mainGet sock.output longSchedule = .next (some ([2], 0)) := by
  have hname : EntryName (ascii ['a']) := by decide
  have haccepted : Accepted pathPlatform .PUT (ascii ['a']) :=
    ⟨Or.inr (Or.inl rfl), by simp [Plain, ascii, newline], by decide, by decide⟩
  have haccepted' : Accepted pathPlatform .GET (ascii ['a']) :=
    ⟨Or.inl rfl, haccepted.plain, haccepted.room, haccepted.length⟩
  have halias : Accepted pathPlatform .PUT (ascii ['.', '/', 'a']) :=
    ⟨Or.inr (Or.inl rfl), by simp [Plain, ascii, newline], by decide, by decide⟩
  have hsame : pathFiles.locate (temporary ++ slash :: ascii ['.', '/', 'a']) =
      pathFiles.locate (temporary ++ slash :: ascii ['a']) := by
    decide
  have hordinary : pathFiles.ordinary (pathFiles.locate (temporary ++ slash :: ascii ['a'])) :=
    @FileSystem.ordinary_locate _ _ pathPlatform (ascii ['a']) pathFiles hname
  have hfail : .failed ∉ longSchedule := by decide
  have hquiet {s t : Server (List Filename → Option (List Byte))} {es : List (Event × List Reply)}
      (hrun : Run (Guarded (StepInPieces pathPlatform) fun s e ↦ s.executing e.1 = none) s es t) :
      Run (Guarded (StepInPieces pathPlatform) fun s e ↦
        ∀ header, s.executing e.1 = some header → header.filename ≠ ascii ['a']) s es t :=
    hrun.mono fun s e t h ↦ ⟨fun header hheader ↦
      absurd (h.1.symm.trans hheader) (by simp), h.2⟩
  have hpre := (@run_requested _ pathPlatform (Server.init fun _ ↦ none) 4 .PUT (ascii ['a'])
    (putBody [1]) .closed haccepted (fun _ h ↦ by cases h)).of_guarded
  obtain ⟨t, hput, -⟩ := exists_put_byte pathFiles (Server.init fun _ ↦ none) 4
    (ascii ['a']) 1 hordinary
    (by simp [pathPlatform, place_eq hname])
  have hinv := (tracked_of_run hpre 4).1
  have hfree (fd : ℕ) (hne : fd ≠ 4) : t.sockets fd = none := by
    rw [(hput.frame hinv).1.sockets fd hne]
    exact Server.requested_socket_ne hne
  have hmid₁ := @run_requested _ pathPlatform t 5 .PUT (ascii ['.', '/', 'a']) (putBody [2]) .closed
    halias (fun sock hsock ↦ by rw [hfree 5 (by decide)] at hsock; cases hsock)
  have hplace : place (temporary ++ slash :: ascii ['.', '/', 'a']) = [temporary, ascii ['a']] := by
    decide
  obtain ⟨t₂, hput₂, hcontent⟩ := exists_put_byte pathFiles t 5 (ascii ['.', '/', 'a']) 2
    (by rw [hsame]; exact hordinary) (by simp [pathPlatform, hplace])
  have hinv₁ := (tracked_of_run (hpre.append (Run.cons hput hmid₁.of_guarded)) 5).1
  have hmid₂ := @run_requested _ pathPlatform t₂ 6 .GET (ascii ['a']) [] .stalled haccepted'
    (not_open_of_frame hinv₁ hput₂ (show 6 ≠ 5 by decide)
      ((Server.requested_socket_ne (by decide)).trans (hfree 6 (by decide))))
  obtain ⟨v, sock, hget, hsock, houtput, -⟩ := @exists_get _ _ pathPlatform
    (t₂.requested 6 ⟨.GET, ascii ['a']⟩ [] .stalled) 6 (ascii ['a']) _ calm [] [2] .stalled
    longSchedule pathFiles (fullPath_calm _) hordinary (hsame ▸ hcontent) requested_requested hfail
    (by decide)
  refine ⟨_, _, t, _, _, v, sock, hpre, rfl, hput,
    (hquiet hmid₁).append (Run.cons ⟨?_, hput₂⟩ (hquiet hmid₂)), rfl, hget, hsock, ?_⟩
  · intro header hheader
    rw [Server.executing_requested] at hheader
    cases hheader
    decide
  · rw [houtput]
    exact Client.mainGet_eq (by decide) hfail (by decide)

end SystemProgramming.NonstopNetworking
