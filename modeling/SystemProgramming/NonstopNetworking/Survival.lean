import SystemProgramming.NonstopNetworking.Model

/-!
# The requests that the server survives

Every error branch of the server ends in `exit`, and a client that does not read its answer stops
the loop.  A request is handled and the loop goes on exactly when no branch of the first kind is
taken and the client takes the whole answer, and then the other connections are not touched.
-/

namespace SystemProgramming.NonstopNetworking

variable {Φ : Type} {P : Platform Φ} {s s' s'' : Server Φ} {fd : ℕ} {sock : Socket} {cur : Info}
  {name : Filename} {env : Surroundings} {path : Path} {data : List Byte} {k n : ℕ}

/-! ## What a handler leaves alone -/

/-- Only the connection `fd` has changed, and its status at most to 1. -/
structure Frame (fd : ℕ) (s s' : Server Φ) : Prop where
  sockets : ∀ fd', fd' ≠ fd → s'.sockets fd' = s.sockets fd'
  infos : ∀ fd', fd' ≠ fd → s'.connectionsInfo fd' = s.connectionsInfo fd'
  info : s'.connectionsInfo fd = s.connectionsInfo fd ∨
    ∃ header, s'.connectionsInfo fd = some ⟨1, header⟩

namespace Frame

theorem refl (fd : ℕ) (s : Server Φ) : Frame fd s s where
  sockets _ _ := rfl
  infos _ _ := rfl
  info := Or.inl rfl

theorem trans (h : Frame fd s s') (h' : Frame fd s' s'') : Frame fd s s'' where
  sockets fd' hne := (h'.sockets fd' hne).trans (h.sockets fd' hne)
  infos fd' hne := (h'.infos fd' hne).trans (h.infos fd' hne)
  info := by
    rcases h'.info with heq | hnew
    · rw [heq]
      exact h.info
    · exact Or.inr hnew

theorem setSocket (s : Server Φ) (fd : ℕ) (sock : Socket) : Frame fd s (s.setSocket fd sock) where
  sockets _ hne := Function.update_of_ne hne _ _
  infos _ _ := rfl
  info := Or.inl rfl

theorem setInfo (s : Server Φ) (fd : ℕ) (header : Option Header) :
    Frame fd s (s.setInfo fd ⟨1, header⟩) where
  sockets _ _ := rfl
  infos _ hne := Function.update_of_ne hne _ _
  info := Or.inr ⟨header, Function.update_self ..⟩

theorem send (s : Server Φ) (fd : ℕ) (data : List Byte) : Frame fd s (s.send fd data) where
  sockets _ hne := Function.update_of_ne hne _ _
  infos _ _ := rfl
  info := Or.inl rfl

theorem close (s : Server Φ) (fd : ℕ) : Frame fd s (s.close fd) where
  sockets _ hne := Function.update_of_ne hne _ _
  infos _ _ := rfl
  info := Or.inl rfl

/-- The files of the server are no part of a connection. -/
theorem files (h : Frame fd s s') (fileList : List Filename) (disk : Φ) :
    Frame fd s { s' with fileList := fileList, disk := disk } where
  sockets := h.sockets
  infos := h.infos
  info := h.info

end Frame

/-! ## The loops -/

/-- As many blocks are sent as are needed for so many bytes. -/
def wholeSize (size : ℕ) : ℕ := (size + (BUFFER_SIZE - 1)) / BUFFER_SIZE * BUFFER_SIZE

theorem wholeSize_of_pos {size : ℕ} (h : 0 < size) :
    wholeSize size = BUFFER_SIZE + wholeSize (size - BUFFER_SIZE) := by
  unfold wholeSize BUFFER_SIZE
  omega

theorem wholeSize_zero : wholeSize 0 = 0 := by decide

/-- The file is sent in whole blocks, as far as it goes. -/
theorem sendFile_of_le {size total fuel : ℕ} {rest : List Byte} (hfuel : rest.length < fuel)
    (h : size ≤ total + rest.length) :
    sendFile size fuel total rest = .next (rest.take (wholeSize (size - total))) := by
  induction fuel generalizing total rest with
  | zero => omega
  | succ fuel ih =>
    by_cases htotal : total < size
    · have hne : rest ≠ [] := by
        rintro rfl
        simp at h
        omega
      have hpos := List.length_pos_iff.mpr hne
      have hrest : (rest.drop BUFFER_SIZE).length < fuel := by
        simp [BUFFER_SIZE]
        omega
      have hsize : size ≤ total + (rest.take BUFFER_SIZE).length +
          (rest.drop BUFFER_SIZE).length := by
        simp
        omega
      have hblocks : rest.take (wholeSize (size - total)) = rest.take BUFFER_SIZE ++
          (rest.drop BUFFER_SIZE).take
            (wholeSize (size - (total + (rest.take BUFFER_SIZE).length))) := by
        rw [wholeSize_of_pos (by omega), List.take_add]
        by_cases hfull : BUFFER_SIZE ≤ rest.length
        · rw [List.length_take, Nat.min_eq_left hfull, Nat.sub_sub]
        · rw [List.drop_eq_nil_of_le (by omega), List.take_nil, List.take_nil]
      simp only [sendFile, if_pos htotal, if_neg hne, ih hrest hsize, hblocks, Outcome.next_bind,
        Outcome.pure_eq]
    · have hdone : size - total = 0 := by omega
      rw [sendFile, if_neg htotal, hdone, wholeSize_zero, List.take_zero]

theorem sendFile_eq_next {size total fuel : ℕ} {rest sent : List Byte}
    (h : sendFile size fuel total rest = .next sent) : size ≤ total + rest.length := by
  induction fuel generalizing total rest sent with
  | zero => cases h
  | succ fuel ih =>
    by_cases htotal : total < size
    · by_cases hne : rest = []
      · simp [sendFile, htotal, hne] at h
      · simp only [sendFile, htotal, hne, if_true, if_false] at h
        obtain ⟨more, hmore, -⟩ := Outcome.bind_eq_next_iff.mp h
        have hle := ih hmore
        simp at hle
        omega
    · omega

theorem receiveFile_of_ne {ending : Ending} (h : ending ≠ .stalled) {fuel : ℕ}
    {input : List Byte} (hfuel : input.length < fuel) :
    ∃ content, receiveFile ending fuel input = .next content := by
  induction fuel generalizing input with
  | zero => omega
  | succ fuel ih =>
    by_cases hfull : BUFFER_SIZE ≤ input.length
    · have hread : readAllFromSocket ending BUFFER_SIZE input =
          .next (some (input.take BUFFER_SIZE), input.drop BUFFER_SIZE) := if_pos hfull
      have hrest : (input.drop BUFFER_SIZE).length < fuel := by
        simp [BUFFER_SIZE] at hfull ⊢
        omega
      obtain ⟨more, hmore⟩ := ih hrest
      cases hchunk : input.take BUFFER_SIZE with
      | nil => exact ⟨[], by simp [receiveFile, hread, hchunk]⟩
      | cons b chunk => exact ⟨b :: chunk ++ more, by simp [receiveFile, hread, hchunk, hmore]⟩
    · cases ending with
      | stalled => exact absurd rfl h
      | reset => exact ⟨[], by simp [receiveFile, readAllFromSocket, hfull]⟩
      | closed =>
        cases input with
        | nil => exact ⟨[], by simp [receiveFile, readAllFromSocket, BUFFER_SIZE]⟩
        | cons b input =>
          have hread : readAllFromSocket .closed BUFFER_SIZE (b :: input) =
              .next (some (b :: input), []) := if_neg hfull
          have hrest : ([] : List Byte).length < fuel := by
            simp only [List.length_cons] at hfuel
            simp only [List.length_nil]
            omega
          obtain ⟨more, hmore⟩ := ih hrest
          exact ⟨b :: input ++ more, by simp [receiveFile, hread, hmore]⟩

/-- A client that sends nothing more and keeps its connection open is waited for. -/
theorem receiveFile_stalled {fuel : ℕ} {input : List Byte} :
    receiveFile .stalled fuel input = .hang := by
  induction fuel generalizing input with
  | zero => rfl
  | succ fuel ih =>
    by_cases hfull : BUFFER_SIZE ≤ input.length
    · have hread : readAllFromSocket .stalled BUFFER_SIZE input =
          .next (some (input.take BUFFER_SIZE), input.drop BUFFER_SIZE) := if_pos hfull
      rw [receiveFile, hread]
      cases hchunk : input.take BUFFER_SIZE with
      | nil =>
        have hlen := congrArg List.length hchunk
        simp [BUFFER_SIZE] at hlen hfull
        simp [hlen] at hfull
      | cons b chunk =>
        simp only [Outcome.next_bind, ih]
        rfl
    · have hread : readAllFromSocket .stalled BUFFER_SIZE input = .hang := if_neg hfull
      rw [receiveFile, hread]
      rfl

/-! ## Writing -/

/-- The connection takes two pieces if it takes both of them. -/
theorem Reader.takes_add (reader : Reader) (m n : ℕ) :
    reader.Takes (m + n) ↔ reader.Takes m ∧ (reader.after m).Takes n := by
  cases reader with
  | all => simp [Takes, after]
  | stops room =>
    simp only [Takes, after]
    omega
  | gone room => simp [Takes, after]

namespace Server

@[simp] theorem send_fileList : (s.send fd data).fileList = s.fileList := rfl

@[simp] theorem send_disk : (s.send fd data).disk = s.disk := rfl

theorem sockets_send (hsock : s.sockets fd = some sock) :
    (s.send fd data).sockets fd = some (sock.written data) := by
  simp [send, hsock]

theorem write_eq_next (hsock : s.sockets fd = some sock) : s.write fd data = .next s' ↔
    sock.reader.Takes data.length ∧ s.send fd data = s' := by
  rw [write, hsock]
  by_cases htakes : sock.reader.Takes data.length <;> simp [htakes]

/-- Whatever is written, the other connections and the files stay as they were. -/
theorem eq_send_of_write (h : s.write fd data = .next s') : s' = s ∨ s' = s.send fd data := by
  unfold write at h
  split at h
  · cases h
    exact Or.inl rfl
  · split at h
    · cases h
      exact Or.inr rfl
    · cases h

theorem frame_of_write (h : s.write fd data = .next s') :
    Frame fd s s' ∧ s'.fileList = s.fileList ∧ s'.disk = s.disk := by
  rcases eq_send_of_write h with rfl | rfl
  · exact ⟨Frame.refl fd _, rfl, rfl⟩
  · exact ⟨Frame.send s fd data, rfl, rfl⟩

end Server

/-! ## The commands -/

/-- The command returns a number other than 0. -/
def Succeeds (executed : Outcome (Server Φ × ℕ)) : Prop :=
  ∃ s' k, executed = .next (s', k) ∧ k ≠ 0

@[simp] theorem succeeds_next : Succeeds (.next (s, k)) ↔ k ≠ 0 := by
  simp [Succeeds]

@[simp] theorem not_succeeds_exit : ¬ Succeeds (.exit : Outcome (Server Φ × ℕ)) := by
  simp [Succeeds]

theorem succeeds_bind {α : Type} {x : Outcome α} {f : α → Outcome (Server Φ × ℕ)} :
    Succeeds (x >>= f) ↔ ∃ a, x = .next a ∧ Succeeds (f a) := by
  constructor
  · rintro ⟨s', k, h, hk⟩
    obtain ⟨a, ha, hf⟩ := Outcome.bind_eq_next_iff.mp h
    exact ⟨a, ha, s', k, hf, hk⟩
  · rintro ⟨a, rfl, h⟩
    exact h

theorem succeeds_write (hsock : s.sockets fd = some sock)
    {f : Server Φ → Outcome (Server Φ × ℕ)} : Succeeds (s.write fd data >>= f) ↔
      sock.reader.Takes data.length ∧ Succeeds (f (s.send fd data)) := by
  simp only [succeeds_bind, Server.write_eq_next hsock, and_assoc, exists_and_left, exists_eq_left']

/-- The length of the answer with a file of which `stat` reports the size. -/
def getLength (size length : ℕ) : ℕ :=
  okMessage.length + (8 + min (wholeSize size) length)

def listLength (names : List Filename) : ℕ :=
  okMessage.length + (8 + (names.intersperse [newline]).flatten.length)

theorem length_sizeBytes (n : ℕ) : (sizeBytes n).length = 8 := by
  simp [sizeBytes]

namespace Server

/-- Three pieces of an answer. -/
theorem takes_pieces {first second third : List Byte} :
    (sock.reader.Takes first.length ∧
        (sock.written first).reader.Takes second.length ∧
          ((sock.written first).written second).reader.Takes third.length) ↔
      sock.reader.Takes (first.length + (second.length + third.length)) := by
  rw [Reader.takes_add, Reader.takes_add]
  rfl

/-- A client gets a file if it can be opened and is as long as it should be, and the client takes
the whole answer. -/
theorem succeeds_executeGet (hsock : s.sockets fd = some sock) :
    Succeeds (s.executeGet P fd env name) ↔ ∃ path, fullPath env name = .next path ∧
      ∃ content, P.fopenRead s.disk path = some content ∧
        ∃ size, P.stat s.disk path = some size ∧ size ≤ content.length ∧
          sock.reader.Takes (getLength size content.length) := by
  have hok : (s.send fd okMessage).sockets fd = some (sock.written okMessage) :=
    sockets_send hsock
  rw [executeGet, succeeds_bind]
  refine exists_congr fun path ↦ and_congr_right fun _ ↦ ?_
  cases hcontent : P.fopenRead s.disk path with
  | none => simp
  | some content =>
    simp only [succeeds_write hsock, send_disk, Option.some.injEq, exists_eq_left']
    cases hsize : P.stat s.disk path with
    | none => simp
    | some size =>
      simp only [succeeds_write hok, Option.some.injEq, exists_eq_left']
      by_cases hle : size ≤ content.length
      · have hsend : sendFile size (content.length + 1) 0 content =
            .next (content.take (wholeSize size)) := by
          simpa using sendFile_of_le (Nat.lt_succ_self _) (show size ≤ 0 + content.length by omega)
        have hlength : (content.take (wholeSize size)).length =
            min (wholeSize size) content.length := List.length_take
        rw [hsend, Outcome.next_bind, succeeds_write (sockets_send hok), Outcome.pure_eq,
          succeeds_next, and_iff_left one_ne_zero, takes_pieces, length_sizeBytes, hlength]
        exact (and_iff_right hle).symm
      · rw [succeeds_bind]
        constructor
        · rintro ⟨-, -, sent, hsend, -⟩
          exact absurd (by simpa using sendFile_eq_next hsend) hle
        · exact fun h ↦ absurd h.1 hle

/-- The reads come to an end unless the client stalls. -/
theorem exists_readAllFromSocket {ending : Ending} (h : ending ≠ .stalled) (count : ℕ)
    (input : List Byte) : ∃ read, readAllFromSocket ending count input = .next read := by
  unfold readAllFromSocket
  split
  · exact ⟨_, rfl⟩
  · cases ending with
    | closed => exact ⟨_, rfl⟩
    | reset => exact ⟨_, rfl⟩
    | stalled => exact absurd rfl h

/-- A file is stored if it can be opened and its end comes, and the client takes the answer. -/
theorem succeeds_executePut :
    Succeeds (s.executePut P fd env sock name) ↔ ∃ path, fullPath env name = .next path ∧
      (P.fopenWrite s.disk path).isSome ∧ sock.ending ≠ .stalled ∧
        sock.reader.Takes okMessage.length := by
  have hsock : (s.setSocket fd { sock with input := [] }).sockets fd =
      some { sock with input := [] } := Function.update_self ..
  rw [executePut, succeeds_bind]
  refine exists_congr fun path ↦ and_congr_right fun _ ↦ ?_
  cases hsave : P.fopenWrite s.disk path with
  | none => simp
  | some save =>
    simp only [succeeds_bind, Option.isSome_some, true_and]
    constructor
    · rintro ⟨⟨announced, input⟩, -, content, hreceive, hwrite⟩
      refine ⟨fun hstalled ↦ ?_, ?_⟩
      · rw [hstalled, receiveFile_stalled] at hreceive
        cases hreceive
      · rw [← succeeds_bind, succeeds_write hsock] at hwrite
        exact hwrite.1
    · rintro ⟨hending, htakes⟩
      obtain ⟨⟨announced, input⟩, hread⟩ := exists_readAllFromSocket hending 8 sock.input
      obtain ⟨content, hreceive⟩ := receiveFile_of_ne hending (Nat.lt_succ_self input.length)
      refine ⟨_, hread, content, hreceive, ?_⟩
      rw [← succeeds_bind, succeeds_write hsock, Outcome.pure_eq, succeeds_next]
      exact ⟨htakes, one_ne_zero⟩

theorem succeeds_executeDelete (hsock : s.sockets fd = some sock) :
    Succeeds (s.executeDelete P fd env name) ↔ ∃ path, fullPath env name = .next path ∧
      (P.remove s.disk path).isSome ∧ name ∈ s.fileList ∧
        sock.reader.Takes okMessage.length := by
  rw [executeDelete, succeeds_bind]
  refine exists_congr fun path ↦ and_congr_right fun _ ↦ ?_
  cases hremove : P.remove s.disk path with
  | none => simp [succeeds_write hsock]
  | some disk => by_cases hmem : name ∈ s.fileList <;> simp [hmem, succeeds_write hsock]

theorem succeeds_executeList (hsock : s.sockets fd = some sock) :
    Succeeds (s.executeList fd) ↔ sock.reader.Takes (listLength s.fileList) := by
  have hok : (s.send fd okMessage).sockets fd = some (sock.written okMessage) :=
    sockets_send hsock
  simp only [executeList, succeeds_write hsock, succeeds_write hok, succeeds_write (sockets_send hok),
    Outcome.pure_eq, succeeds_next]
  rw [and_iff_left one_ne_zero, takes_pieces, length_sizeBytes, listLength]

/-! Whatever a command does, the other connections stay as they were. -/

theorem frame_of_executeGet (h : s.executeGet P fd env name = .next (s', k)) :
    Frame fd s s' ∧ s'.fileList = s.fileList ∧ s'.disk = s.disk := by
  obtain ⟨path, -, h⟩ := Outcome.bind_eq_next_iff.mp h
  split at h
  · cases h
    exact ⟨Frame.refl fd s, rfl, rfl⟩
  · obtain ⟨s₁, hwrite₁, h⟩ := Outcome.bind_eq_next_iff.mp h
    obtain ⟨hframe₁, hlist₁, hdisk₁⟩ := frame_of_write hwrite₁
    split at h
    · cases h
      exact ⟨hframe₁, hlist₁, hdisk₁⟩
    · obtain ⟨s₂, hwrite₂, h⟩ := Outcome.bind_eq_next_iff.mp h
      obtain ⟨hframe₂, hlist₂, hdisk₂⟩ := frame_of_write hwrite₂
      obtain ⟨sent, -, h⟩ := Outcome.bind_eq_next_iff.mp h
      obtain ⟨s₃, hwrite₃, h⟩ := Outcome.bind_eq_next_iff.mp h
      obtain ⟨hframe₃, hlist₃, hdisk₃⟩ := frame_of_write hwrite₃
      cases h
      exact ⟨(hframe₁.trans hframe₂).trans hframe₃, hlist₃.trans (hlist₂.trans hlist₁),
        hdisk₃.trans (hdisk₂.trans hdisk₁)⟩

theorem frame_of_executePut (h : s.executePut P fd env sock name = .next (s', k)) :
    Frame fd s s' := by
  obtain ⟨path, -, h⟩ := Outcome.bind_eq_next_iff.mp h
  split at h
  · cases h
    exact Frame.refl fd s
  · obtain ⟨read, -, h⟩ := Outcome.bind_eq_next_iff.mp h
    obtain ⟨content, -, h⟩ := Outcome.bind_eq_next_iff.mp h
    obtain ⟨s₁, hwrite, h⟩ := Outcome.bind_eq_next_iff.mp h
    cases h
    exact ((Frame.setSocket s fd _).trans (frame_of_write hwrite).1).files _ _

theorem frame_of_executeDelete (h : s.executeDelete P fd env name = .next (s', k)) :
    Frame fd s s' := by
  obtain ⟨path, -, h⟩ := Outcome.bind_eq_next_iff.mp h
  split at h
  · obtain ⟨s₁, -, h⟩ := Outcome.bind_eq_next_iff.mp h
    cases h
  · split at h
    all_goals
      obtain ⟨s₁, hwrite, h⟩ := Outcome.bind_eq_next_iff.mp h
      cases h
      exact (frame_of_write hwrite).1.files _ _

theorem frame_of_executeList (h : s.executeList fd = .next (s', k)) :
    Frame fd s s' ∧ s'.fileList = s.fileList ∧ s'.disk = s.disk := by
  obtain ⟨s₁, hwrite₁, h⟩ := Outcome.bind_eq_next_iff.mp h
  obtain ⟨s₂, hwrite₂, h⟩ := Outcome.bind_eq_next_iff.mp h
  obtain ⟨s₃, hwrite₃, h⟩ := Outcome.bind_eq_next_iff.mp h
  obtain ⟨hframe₁, hlist₁, hdisk₁⟩ := frame_of_write hwrite₁
  obtain ⟨hframe₂, hlist₂, hdisk₂⟩ := frame_of_write hwrite₂
  obtain ⟨hframe₃, hlist₃, hdisk₃⟩ := frame_of_write hwrite₃
  cases h
  exact ⟨(hframe₁.trans hframe₂).trans hframe₃, hlist₃.trans (hlist₂.trans hlist₁),
    hdisk₃.trans (hdisk₂.trans hdisk₁)⟩

end Server

/-! ## The condition -/

/-- The file operations of a command go through, the end of a file that is stored comes, and the
client takes the whole answer. -/
def Served (P : Platform Φ) (s : Server Φ) (env : Surroundings) (sock : Socket)
    (header : Header) : Prop :=
  match header.command with
  | .GET => ∃ path, fullPath env header.filename = .next path ∧
      ∃ content, P.fopenRead s.disk path = some content ∧
        ∃ size, P.stat s.disk path = some size ∧ size ≤ content.length ∧
          sock.reader.Takes (getLength size content.length)
  | .PUT => ∃ path, fullPath env header.filename = .next path ∧
      (P.fopenWrite s.disk path).isSome ∧ sock.ending ≠ .stalled ∧
        sock.reader.Takes okMessage.length
  | .DELETE => ∃ path, fullPath env header.filename = .next path ∧
      (P.remove s.disk path).isSome ∧ header.filename ∈ s.fileList ∧
        sock.reader.Takes okMessage.length
  | .LIST => sock.reader.Takes (listLength s.fileList)
  | .V_UNKNOWN => False

/-- The header is read, is not too long and names a command, and the file name fits. -/
def WellFormed (P : Platform Φ) (sock : Socket) : Prop :=
  ∃ buf n input verb,
    readRequestHeader P.usable BUFFER_SIZE sock.ending [] sock.input = .next (buf, n, input) ∧
    n ≠ BUFFER_SIZE ∧ verbOf buf = some verb ∧
    (verb = .LIST ∨ ∃ name, copyFilename P.usable buf verb.offset = .next name)

/-- The request of a ready connection, whose header has been read or not, can be served. -/
def Servable (P : Platform Φ) (s : Server Φ) (env : Surroundings) (sock : Socket) (cur : Info) :
    Prop :=
  if cur.status = 0 then WellFormed P sock
  else ∃ header, cur.header = some header ∧ Served P s env sock header

/-- The requests for which the source has an error branch: a header that is too long or
names no command, and a file that cannot be opened or removed or is not listed. -/
def Rejected (P : Platform Φ) (s : Server Φ) (env : Surroundings) (sock : Socket) (cur : Info) :
    Prop :=
  if cur.status = 0 then ∃ buf n input,
    readRequestHeader P.usable BUFFER_SIZE sock.ending [] sock.input = .next (buf, n, input) ∧
      (n = BUFFER_SIZE ∨ verbOf buf = none)
  else ∃ header path, cur.header = some header ∧ fullPath env header.filename = .next path ∧
    match header.command with
    | .GET => P.fopenRead s.disk path = none ∨ P.stat s.disk path = none
    | .PUT => P.fopenWrite s.disk path = none
    | .DELETE => P.remove s.disk path = none ∨ header.filename ∉ s.fileList
    | .LIST => False
    | .V_UNKNOWN => True

/-- The connection gets an error response, and its request is not executed later.  The files
stay as they were. -/
def AnswersError (P : Platform Φ) (s : Server Φ) (fd : ℕ) (s' : Server Φ) : Prop :=
  (∃ sock sock' err, s.sockets fd = some sock ∧ s'.sockets fd = some sock' ∧
    (err = P.errBadRequest ∨ err = P.errNoSuchFile) ∧ sock'.output = sock.output ++ err ∧
    (sock'.isOpen = false ∨ ∀ cur, s'.connectionsInfo fd = some cur → cur.status ≠ 1)) ∧
  s'.fileList = s.fileList ∧ s'.disk = s.disk

/-- A ready connection is survived: the loop goes on, the other connections are untouched, and a
request that cannot be served gets an error response. -/
def Survives (P : Platform Φ) (s : Server Φ) (fd : ℕ) (env : Surroundings) : Prop :=
  ∃ s', s.handle P fd env = .next s' ∧
    (∀ fd', fd' ≠ fd → s'.sockets fd' = s.sockets fd' ∧
      s'.connectionsInfo fd' = s.connectionsInfo fd') ∧
    ∀ sock cur, s.sockets fd = some sock → s.connectionsInfo fd = some cur →
      Rejected P s env sock cur → AnswersError P s fd s'

theorem Servable.not_rejected (h : Servable P s env sock cur) : ¬ Rejected P s env sock cur := by
  intro hrej
  unfold Servable at h
  unfold Rejected at hrej
  split at h
  · rename_i hstatus
    rw [if_pos hstatus] at hrej
    obtain ⟨buf, n, input, verb, hread, hlen, hverb, -⟩ := h
    obtain ⟨buf', n', input', hread', hbad⟩ := hrej
    rw [hread, Outcome.next.injEq, Prod.mk.injEq, Prod.mk.injEq] at hread'
    obtain ⟨rfl, rfl, rfl⟩ := hread'
    rcases hbad with hlong | hnone
    · exact hlen hlong
    · rw [hverb] at hnone
      cases hnone
  · rename_i hstatus
    rw [if_neg hstatus] at hrej
    obtain ⟨header, hheader, hserved⟩ := h
    obtain ⟨header', path, hheader', hpath, hbad⟩ := hrej
    obtain rfl := Option.some.inj (hheader.symm.trans hheader')
    unfold Served at hserved
    cases hcommand : header.command <;>
      simp only [hcommand, hpath, Outcome.next.injEq, exists_eq_left'] at hserved hbad
    · obtain ⟨content, hcontent, size, hsize, -⟩ := hserved
      simp [hcontent, hsize] at hbad
    · simp [hbad] at hserved
    · obtain ⟨hremove, hmem, -⟩ := hserved
      simp only [hmem, not_true_eq_false, or_false] at hbad
      simp [hbad] at hremove

namespace Server

theorem frame_of_executeCommand {header : Header}
    (h : s.executeCommand P fd env sock header = .next (s', k)) : Frame fd s s' := by
  unfold executeCommand at h
  split at h
  · exact (frame_of_executeGet h).1
  · exact frame_of_executePut h
  · exact frame_of_executeDelete h
  · exact (frame_of_executeList h).1
  · cases h
    exact Frame.refl fd s

theorem succeeds_executeCommand {header : Header} (hsock : s.sockets fd = some sock) :
    Succeeds (s.executeCommand P fd env sock header) ↔ Served P s env sock header := by
  obtain ⟨command, name⟩ := header
  cases command with
  | GET => exact succeeds_executeGet hsock
  | PUT => exact succeeds_executePut
  | DELETE => exact succeeds_executeDelete hsock
  | LIST => exact succeeds_executeList hsock
  | V_UNKNOWN => simp [executeCommand, Served]

/-- The connection is closed behind a command that has succeeded. -/
theorem execute_eq_next : s.execute P fd env sock cur = .next (s', 0) ↔
    ∃ header s₁ k, cur.header = some header ∧
      s.executeCommand P fd env sock header = .next (s₁, k) ∧ k ≠ 0 ∧ s' = s₁.close fd := by
  unfold execute
  cases hheader : cur.header with
  | none => simp
  | some header =>
    simp only [Outcome.bind_eq_next_iff]
    constructor
    · rintro ⟨⟨s₁, k⟩, hcommand, h⟩
      by_cases hk : k = 0
      · simp [hk] at h
      · simp only [if_neg hk, Outcome.pure_eq, Outcome.next.injEq, Prod.mk.injEq] at h
        exact ⟨header, s₁, k, rfl, hcommand, hk, h.1.symm⟩
    · rintro ⟨header', s₁, k, hsome, hcommand, hk, rfl⟩
      obtain rfl := Option.some.inj hsome
      exact ⟨_, hcommand, by simp [hk]⟩

theorem frame_of_execute (h : s.execute P fd env sock cur = .next (s', 0)) : Frame fd s s' := by
  obtain ⟨header, s₁, k, -, hcommand, -, rfl⟩ := execute_eq_next.mp h
  exact (frame_of_executeCommand hcommand).trans (Frame.close s₁ fd)

theorem exists_execute_iff (hsock : s.sockets fd = some sock) :
    (∃ s', s.execute P fd env sock cur = .next (s', 0)) ↔
      ∃ header, cur.header = some header ∧ Served P s env sock header := by
  simp only [execute_eq_next, ← succeeds_executeCommand hsock, Succeeds]
  constructor
  · rintro ⟨s', header, s₁, k, hheader, hcommand, hk, -⟩
    exact ⟨header, hheader, s₁, k, hcommand, hk⟩
  · rintro ⟨header, hheader, s₁, k, hcommand, hk⟩
    exact ⟨_, header, s₁, k, hheader, hcommand, hk, rfl⟩

/-- The header has been parsed, and the connection waits for its execution. -/
theorem parsingHeader_eq_next (h : s.parsingHeader P fd sock = .next (s', 0)) :
    Frame fd s s' ∧ (∃ header, s'.connectionsInfo fd = some ⟨1, header⟩) ∧
      (∃ sock', s'.sockets fd = some sock' ∧ sock'.isOpen = sock.isOpen) ∧
      ∃ buf n input verb,
        readRequestHeader P.usable BUFFER_SIZE sock.ending [] sock.input =
          .next (buf, n, input) ∧ verbOf buf = some verb ∧
        (verb = .LIST ∨ ∃ name, copyFilename P.usable buf verb.offset = .next name) := by
  simp only [parsingHeader] at h
  obtain ⟨⟨buf, n, input⟩, hread, h⟩ := Outcome.bind_eq_next_iff.mp h
  set s₁ : Server Φ := if n = BUFFER_SIZE then
    (s.setSocket fd { sock with input := input }).send fd P.errBadRequest
    else s.setSocket fd { sock with input := input } with hs₁
  have hframe : Frame fd s s₁ := by
    rw [hs₁]
    split
    · exact (Frame.setSocket s fd _).trans (Frame.send _ fd _)
    · exact Frame.setSocket s fd _
  have hsock : ∃ sock', s₁.sockets fd = some sock' ∧ sock'.isOpen = sock.isOpen := by
    rw [hs₁]
    split
    · exact ⟨_, sockets_send (Function.update_self ..), rfl⟩
    · exact ⟨_, Function.update_self .., rfl⟩
  split at h
  · simp at h
  · rename_i hverb
    simp only [Outcome.pure_eq, Outcome.next.injEq, Prod.mk.injEq] at h
    obtain ⟨rfl, -⟩ := h
    exact ⟨hframe.trans (Frame.setInfo _ fd _), ⟨_, Function.update_self ..⟩, hsock, buf, n, input,
      .LIST, hread, hverb, Or.inl rfl⟩
  · rename_i verb _ hverb
    obtain ⟨name, hname, h⟩ := Outcome.bind_eq_next_iff.mp h
    simp only [Outcome.pure_eq, Outcome.next.injEq, Prod.mk.injEq] at h
    obtain ⟨rfl, -⟩ := h
    exact ⟨hframe.trans (Frame.setInfo _ fd _), ⟨_, Function.update_self ..⟩, hsock, buf, n, input,
      verb, hread, hverb, Or.inr ⟨name, hname⟩⟩

theorem exists_parsingHeader (h : WellFormed P sock) :
    ∃ s', s.parsingHeader P fd sock = .next (s', 0) := by
  obtain ⟨buf, n, input, verb, hread, -, hverb, hname⟩ := h
  by_cases hlist : verb = .LIST
  · subst hlist
    simp only [parsingHeader, hread, Outcome.next_bind, hverb]
    exact ⟨_, rfl⟩
  · obtain ⟨name, hname⟩ := hname.resolve_left hlist
    cases verb <;> simp only [parsingHeader, hread, Outcome.next_bind, hverb, hname]
    case LIST => exact absurd rfl hlist
    all_goals exact ⟨_, rfl⟩

/-- Every open connection has an entry in the dictionary. -/
def Inv (s : Server Φ) : Prop :=
  ∀ fd sock, s.sockets fd = some sock → sock.isOpen = true →
    ∃ cur, s.connectionsInfo fd = some cur ∧ (cur.status = 0 ∨ cur.status = 1)

theorem handle_eq (hcur : s.connectionsInfo fd = some cur) (hsock : s.sockets fd = some sock)
    (hstatus : cur.status = 0 ∨ cur.status = 1) : s.handle P fd env = .next s' ↔
      (cur.status = 0 ∧ s.parsingHeader P fd sock = .next (s', 0)) ∨
      (cur.status = 1 ∧ s.execute P fd env sock cur = .next (s', 0)) := by
  have hresult (x : Outcome (Server Φ × ℕ)) : (x >>= fun y ↦
      if y.2 = 0 then pure y.1 else .exit) = .next s' ↔ x = .next (s', 0) := by
    rw [Outcome.bind_eq_next_iff]
    constructor
    · rintro ⟨⟨s₁, k⟩, rfl, h⟩
      by_cases hk : k = 0
      · simp only [hk, if_true, Outcome.pure_eq, Outcome.next.injEq] at h
        rw [hk, h]
      · simp [hk] at h
    · rintro rfl
      exact ⟨_, rfl, rfl⟩
  rcases hstatus with hzero | hone
  · simp only [handle, hcur, hsock, hzero, if_true]
    simpa using hresult _
  · simp only [handle, hcur, hsock, hone]
    simpa using hresult _

theorem handle_eq_next (hinv : s.Inv) (hsock : s.sockets fd = some sock)
    (hopen : sock.isOpen = true) (h : s.handle P fd env = .next s') : Frame fd s s' := by
  obtain ⟨cur, hcur, hstatus⟩ := hinv fd sock hsock hopen
  rcases (handle_eq hcur hsock hstatus).mp h with ⟨-, hparse⟩ | ⟨-, hexec⟩
  · exact (parsingHeader_eq_next hparse).1
  · exact frame_of_execute hexec

theorem Inv.accept (h : s.Inv) (input : List Byte) (ending : Ending) (reader : Reader) :
    (s.accept fd input ending reader).Inv := by
  intro fd' sock hsock hopen
  rcases eq_or_ne fd' fd with rfl | hne
  · exact ⟨⟨0, none⟩, Function.update_self .., Or.inl rfl⟩
  · have hsockets : (s.accept fd input ending reader).sockets fd' = s.sockets fd' :=
      Function.update_of_ne hne _ _
    have hinfos : (s.accept fd input ending reader).connectionsInfo fd' = s.connectionsInfo fd' :=
      Function.update_of_ne hne _ _
    rw [hinfos]
    exact h fd' sock (by rw [← hsockets, hsock]) hopen

theorem Inv.frame (h : s.Inv) (hframe : Frame fd s s') (hsock : s.sockets fd = some sock)
    (hopen : sock.isOpen = true) : s'.Inv := by
  intro fd' sock' hsock' hopen'
  rcases eq_or_ne fd' fd with rfl | hne
  · rcases hframe.info with hsame | ⟨header, hnew⟩
    · rw [hsame]
      exact h fd' sock hsock hopen
    · exact ⟨_, hnew, Or.inr rfl⟩
  · rw [hframe.infos fd' hne]
    exact h fd' sock' (by rw [← hframe.sockets fd' hne, hsock']) hopen'

theorem Inv.step {e : Event} (h : s.Inv) (hstep : Step P s e s') : s'.Inv := by
  obtain ⟨hoccurs, hstep⟩ := hstep
  cases e with
  | accept fd input ending reader =>
    cases hstep
    exact h.accept input ending reader
  | ready fd env =>
    obtain ⟨sock, hsock, hopen, -⟩ := hoccurs
    exact h.frame (handle_eq_next h hsock hopen hstep) hsock hopen

theorem inv_of_run {disk : Φ} {events : List Event}
    (h : Run (Step P) (init disk) events s) : s.Inv :=
  h.invariant (fun _ _ _ hinv hstep ↦ hinv.step hstep) fun fd sock hsock ↦ by cases hsock

end Server

/-- In every state of a run a ready connection is survived exactly when its request can be
served. -/
theorem survives_iff_servable {disk : Φ} {events : List Event}
    (hrun : Run (Step P) (Server.init disk) events s) (hready : s.Occurs (.ready fd env)) :
    Survives P s fd env ↔ ∀ sock cur, s.sockets fd = some sock →
      s.connectionsInfo fd = some cur → Servable P s env sock cur := by
  obtain ⟨sock, hsock, hopen, -⟩ := hready
  obtain ⟨cur, hcur, hstatus⟩ := Server.inv_of_run hrun fd sock hsock hopen
  constructor
  · rintro ⟨s', hhandle, -, herror⟩ sock' cur' hsock' hcur'
    obtain rfl := Option.some.inj (hsock.symm.trans hsock')
    obtain rfl := Option.some.inj (hcur.symm.trans hcur')
    rw [Server.handle_eq hcur hsock hstatus] at hhandle
    rcases hhandle with ⟨hzero, hparse⟩ | ⟨hone, hexec⟩
    · obtain ⟨-, ⟨header, hnew⟩, ⟨sock', hsock', hopen'⟩, buf, n, input, verb, hread, hverb,
        hname⟩ := Server.parsingHeader_eq_next hparse
      rw [Servable, if_pos hzero]
      refine ⟨buf, n, input, verb, hread, fun hlong ↦ ?_, hverb, hname⟩
      -- a header that is too long is answered with an error, and executed all the same
      have hrejected : Rejected P s env sock cur := by
        rw [Rejected, if_pos hzero]
        exact ⟨buf, n, input, hread, Or.inl hlong⟩
      obtain ⟨⟨_, sock₁, _, _, hsock₁, _, _, hdone⟩, -, -⟩ := herror sock cur hsock hcur hrejected
      obtain rfl := Option.some.inj (hsock'.symm.trans hsock₁)
      rcases hdone with hclosed | hstatus₁
      · rw [hopen', hopen] at hclosed
        cases hclosed
      · exact hstatus₁ _ hnew rfl
    · rw [Servable, if_neg (by omega)]
      exact (Server.exists_execute_iff hsock).mp ⟨s', hexec⟩
  · intro hservable
    have hcan := hservable sock cur hsock hcur
    have hgoes : ∃ s', s.handle P fd env = .next s' := by
      simp only [Server.handle_eq hcur hsock hstatus]
      rcases hstatus with hzero | hone
      · rw [Servable, if_pos hzero] at hcan
        have hparse : ∃ s', s.parsingHeader P fd sock = .next (s', 0) :=
          Server.exists_parsingHeader hcan
        obtain ⟨s', hparse⟩ := hparse
        exact ⟨s', Or.inl ⟨hzero, hparse⟩⟩
      · rw [Servable, if_neg (by omega)] at hcan
        obtain ⟨s', hexec⟩ := (Server.exists_execute_iff hsock).mpr hcan
        exact ⟨s', Or.inr ⟨hone, hexec⟩⟩
    obtain ⟨s', hhandle⟩ := hgoes
    have hframe := Server.handle_eq_next (Server.inv_of_run hrun) hsock hopen hhandle
    refine ⟨s', hhandle, fun fd' hne ↦ ⟨hframe.sockets fd' hne, hframe.infos fd' hne⟩, ?_⟩
    intro sock' cur' hsock' hcur' hrejected
    exact absurd hrejected (hservable sock' cur' hsock' hcur').not_rejected

/-! ## Ordinary requests -/

theorem lastChar_append {usable : ℕ} {buf : List Byte} {b : Byte} (hbuf : 0 ∉ buf) (hb : b ≠ 0)
    (hroom : buf.length + 1 < usable) : lastChar usable (buf ++ [b]) = some b := by
  have hnot : 0 ∉ buf ++ [b] := by simp [hbuf, hb.symm]
  have hlen : (buf ++ [b]).length < usable := by simpa using hroom
  rw [lastChar, cString, if_neg hnot, if_pos hlen]
  simp

/-- The bytes of a line are read one by one. -/
theorem readRequestHeader_append {usable bytes : ℕ} {ending : Ending} {buf line : List Byte}
    (hbuf : 0 ∉ buf) (hline : ∀ b ∈ line, b ≠ 0 ∧ b ≠ newline)
    (husable : buf.length + line.length < usable) (hbytes : buf.length + line.length ≤ bytes)
    (rest : List Byte) :
    readRequestHeader usable bytes ending buf (line ++ rest) =
      readRequestHeader usable bytes ending (buf ++ line) rest := by
  induction line generalizing buf with
  | nil => simp
  | cons b line ih =>
    obtain ⟨⟨hb, hbn⟩, hline⟩ := List.forall_mem_cons.mp hline
    simp only [List.length_cons] at husable hbytes
    have hlen : (buf ++ [b]).length = buf.length + 1 := by simp
    have hbuf' : 0 ∉ buf ++ [b] := by simp [hbuf, hb.symm]
    rw [List.cons_append, readRequestHeader, if_neg (by omega)]
    simp only [if_neg (show ¬ usable ≤ buf.length by omega),
      lastChar_append hbuf hb (show buf.length + 1 < usable by omega), if_neg hbn]
    rw [ih hbuf' hline (by omega) (by omega), ← List.append_cons]

/-- The header is read up to its newline. -/
theorem readRequestHeader_line {usable bytes : ℕ} {ending : Ending} {buf line rest : List Byte}
    (hbuf : 0 ∉ buf) (hline : ∀ b ∈ line, b ≠ 0 ∧ b ≠ newline)
    (husable : buf.length + line.length + 1 < usable)
    (hbytes : buf.length + line.length < bytes) :
    readRequestHeader usable bytes ending buf (line ++ newline :: rest) =
      .next (buf ++ line ++ [newline], buf.length + line.length, rest) := by
  have hnot : 0 ∉ buf ++ line := by
    rw [List.mem_append, not_or]
    exact ⟨hbuf, fun hmem ↦ (hline 0 hmem).1 rfl⟩
  have hlen : (buf ++ line).length = buf.length + line.length := List.length_append
  rw [readRequestHeader_append hbuf hline (by omega) hbytes.le, readRequestHeader,
    if_neg (by omega), lastChar_append hnot (by decide) (by omega)]
  simp only [if_true, hlen, if_neg (show ¬ usable ≤ buf.length + line.length by omega)]

/-- Of a line a name of at most 254 bytes can be copied. -/
theorem copyFilename_line {usable : ℕ} {line : List Byte} {offset : ℕ}
    (hline : ∀ b ∈ line, b ≠ 0 ∧ b ≠ newline) (husable : line.length + 1 < usable)
    (hle : offset ≤ line.length) : copyFilename usable (line ++ [newline]) offset =
      if line.length < offset + 255 then .next (line.drop offset) else .undefined := by
  have hdrop : (line ++ [newline]).drop offset = line.drop offset ++ [newline] :=
    List.drop_append_of_le_length hle
  have hnot : 0 ∉ line.drop offset ++ [newline] := by
    rw [List.mem_append, not_or]
    exact ⟨fun hmem ↦ (hline 0 (List.mem_of_mem_drop hmem)).1 rfl, by decide⟩
  have hroom : (line.drop offset ++ [newline]).length < usable - offset := by
    simp
    omega
  have hfits : (line.drop offset ++ [newline] = [] ∨
      256 ≤ (line.drop offset ++ [newline]).length) ↔ ¬ line.length < offset + 255 := by
    simp
    omega
  rw [copyFilename, if_neg (by omega), hdrop, cString, if_neg hnot, if_pos hroom]
  simp only [hfits, ite_not, List.dropLast_concat]

/-- A request line that fits, with a command and, unless it is `LIST`, a file name. -/
theorem wellFormed_of_line {line rest : List Byte} {verb : Verb}
    (hline : ∀ b ∈ line, b ≠ 0 ∧ b ≠ newline) (husable : line.length + 1 < P.usable)
    (hlen : line.length < BUFFER_SIZE) (hinput : sock.input = line ++ newline :: rest)
    (hverb : verbOf (line ++ [newline]) = some verb)
    (hname : verb = .LIST ∨ verb.offset ≤ line.length ∧ line.length < verb.offset + 255) :
    WellFormed P sock := by
  refine ⟨line ++ [newline], line.length, rest, verb, ?_, hlen.ne, hverb, ?_⟩
  · rw [hinput, readRequestHeader_line (by simp) hline (by simpa using husable) (by simpa using hlen)]
    simp
  · exact hname.imp id fun ⟨hle, hlt⟩ ↦
      ⟨_, (copyFilename_line hline husable hle).trans (if_pos hlt)⟩

/-! ## A small server -/

/-- Files as a table of paths, and an allocator that rounds one byte up to 24. -/
def smallPlatform : Platform (Path → Option (List Byte)) where
  usable := 24
  usable_pos := Nat.succ_pos 23
  errBadRequest := ascii ['E', 'R', 'R', 'O', 'R', '\n', 'B']
  errNoSuchFile := ascii ['E', 'R', 'R', 'O', 'R', '\n', 'N']
  fopenRead files path := files path
  stat files path := (files path).map List.length
  fopenWrite files path := some fun content ↦ Function.update files path (some content)
  remove files path := (files path).map fun _ ↦ Function.update files path none

def temporary : Filename := ascii ['t', 'm', 'p']

/-- The array still holds the name of the directory, and all bytes reach the file. -/
def calm : Surroundings := ⟨3, temporary, id, id⟩

def listLine : List Byte := ascii ['L', 'I', 'S', 'T', '\n']

def getLine : List Byte := ascii ['G', 'E', 'T', ' ', 'a', '\n']

/-- One client asks for the list, and another one for the file `a`. -/
def twoClients : List Event :=
  [.accept 4 listLine .closed .all, .accept 5 getLine .closed .all]

/-- The server when both have been accepted. -/
def twoAccepted : Server (Path → Option (List Byte)) :=
  ((Server.init fun _ ↦ none).accept 4 listLine .closed .all).accept 5 getLine .closed .all

theorem run_twoClients :
    Run (Step smallPlatform) (Server.init fun _ ↦ none) twoClients twoAccepted := by
  refine Run.cons ⟨fun sock hsock ↦ ?_, rfl⟩ (Run.single ⟨fun sock hsock ↦ ?_, rfl⟩)
  · cases hsock
  · cases hsock

/-- The header of the first client is read. -/
theorem survives_iff_servable_list : ∃ s, Run (Step smallPlatform) (Server.init fun _ ↦ none)
    twoClients s ∧ Survives smallPlatform s 4 calm := by
  refine ⟨_, run_twoClients, (survives_iff_servable run_twoClients ?_).mpr ?_⟩
  · exact ⟨_, rfl, rfl, fun cur _ _ ↦ Or.inr (by decide)⟩
  · rintro sock cur ⟨⟩ ⟨⟩
    have hline : ∀ b ∈ ascii ['L', 'I', 'S', 'T'], b ≠ 0 ∧ b ≠ newline := by
      simp [ascii, newline]
    have husable : (ascii ['L', 'I', 'S', 'T']).length + 1 < smallPlatform.usable := by decide
    have hlen : (ascii ['L', 'I', 'S', 'T']).length < BUFFER_SIZE := by simp [ascii, BUFFER_SIZE]
    rw [Servable, if_pos rfl]
    exact wellFormed_of_line hline husable hlen rfl (by decide) (Or.inl rfl)

/-- The second client asks for a file that does not exist.  Its header is read, and then the
process exits. -/
theorem missing_file_is_fatal : ∃ s sock, Run (Step smallPlatform) (Server.init fun _ ↦ none)
    (twoClients ++ [.ready 5 calm]) s ∧ s.Occurs (.ready 5 calm) ∧
    s.sockets 4 = some sock ∧ sock.isOpen = true ∧ ¬ Survives smallPlatform s 5 calm := by
  have hread : readRequestHeader 24 BUFFER_SIZE .closed [] getLine = .next (getLine, 5, []) := by
    have hline : ∀ b ∈ ascii ['G', 'E', 'T', ' ', 'a'], b ≠ 0 ∧ b ≠ newline := by
      simp [ascii, newline]
    exact readRequestHeader_line (by simp) hline (by decide) (by simp [ascii, BUFFER_SIZE])
  let header : Header := ⟨.GET, ascii ['a']⟩
  let s' := (twoAccepted.setSocket 5 ⟨[], .closed, .all, [], true⟩).setInfo 5 ⟨1, some header⟩
  have hcopy : copyFilename 24 getLine 4 = .next (ascii ['a']) := by
    rfl
  have hparse : twoAccepted.parsingHeader smallPlatform 5
      ⟨getLine, .closed, .all, [], true⟩ = .next (s', 0) := by
    have hverb : verbOf getLine = some .GET := rfl
    have hshort : ¬ 5 = BUFFER_SIZE := by simp [BUFFER_SIZE]
    simp only [Server.parsingHeader, smallPlatform, hread, Outcome.next_bind, hverb, if_neg hshort,
      Verb.offset, hcopy]
    rfl
  have hhandle : twoAccepted.handle smallPlatform 5 calm = .next s' :=
    (Server.handle_eq rfl rfl (Or.inl rfl)).mpr (Or.inl ⟨rfl, hparse⟩)
  refine ⟨s', _, run_twoClients.snoc ⟨?_, hhandle⟩, ?_, rfl, rfl, ?_⟩
  · exact ⟨_, rfl, rfl, fun cur _ _ ↦ Or.inr (by decide)⟩
  · exact ⟨_, rfl, rfl, fun cur _ _ ↦ Or.inr (by decide)⟩
  · rintro ⟨s'', hexec, -⟩
    have hcur : s'.connectionsInfo 5 = some ⟨1, some header⟩ := rfl
    have hsock : s'.sockets 5 = some ⟨[], .closed, .all, [], true⟩ := rfl
    rw [Server.handle_eq hcur hsock (Or.inr rfl)] at hexec
    rcases hexec with ⟨hzero, -⟩ | ⟨-, hexec⟩
    · cases hzero
    · obtain ⟨header', hheader, hserved⟩ := (Server.exists_execute_iff hsock).mp ⟨s'', hexec⟩
      obtain rfl := Option.some.inj hheader
      obtain ⟨path, -, content, hcontent, -⟩ := hserved
      cases hcontent

end SystemProgramming.NonstopNetworking
