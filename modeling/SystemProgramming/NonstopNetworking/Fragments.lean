import SystemProgramming.Lib.ByteStream
import SystemProgramming.NonstopNetworking.Directory

/-!
# Transfers in pieces

The calls of `common.c` repeat `read` and `write` until everything has been moved.  How much
one call moves, and whether it fails, is given by a schedule, and a schedule that is too short stands
for a call that does not return.  Here the loops of the server are driven by schedules, and the other
steps are those of the model in which a transfer is one action.
-/

namespace SystemProgramming.NonstopNetworking

/-- `read_all_from_socket`: what is stored in the buffer, or `none` for the result -1, and what
is left of the stream. -/
def readInPieces (ending : Ending) (count : ℕ) (schedule : List Reply) (input : List Byte) :
    Outcome (Option (List Byte) × List Byte × List Reply) :=
  match transferAll schedule input count [] with
  | none => .hang
  | some tr =>
    if tr.failed then .next (none, tr.left, tr.schedule)
    else if tr.moved.length < count then
      match ending with
      | .closed => .next (some tr.moved, tr.left, tr.schedule)
      | .reset => .next (none, tr.left, tr.schedule)
      | .stalled => .hang
    else .next (some tr.moved, tr.left, tr.schedule)

/-- `write_all_to_socket`: what is sent of the data.  The callers do not look at the result. -/
def writeInPieces (schedule : List Reply) (data : List Byte) : Outcome (List Byte × List Reply) :=
  match transferAll schedule data data.length [] with
  | none => .hang
  | some tr => .next (tr.moved, tr.schedule)

/-- The loop that sends a file. -/
def sendInPieces (size : ℕ) : ℕ → ℕ → List Byte → List Reply → Outcome (List Byte × List Reply)
  | 0, _, _, _ => .hang
  | fuel + 1, total, rest, schedule =>
      if total < size then
        if rest = [] then .hang
        else do
          let chunk := rest.take BUFFER_SIZE
          let (sent, schedule) ← writeInPieces schedule chunk
          let (more, schedule) ←
            sendInPieces size fuel (total + chunk.length) (rest.drop BUFFER_SIZE) schedule
          pure (sent ++ more, schedule)
      else .next ([], schedule)

/-- The loop that receives a file. -/
def receiveInPieces (ending : Ending) :
    ℕ → List Byte → List Reply → Outcome (List Byte × List Reply)
  | 0, _, _ => .hang
  | fuel + 1, input, schedule => do
      let (chunk, rest, schedule) ← readInPieces ending BUFFER_SIZE schedule input
      match chunk with
      | none => .next ([], schedule)
      | some [] => .next ([], schedule)
      | some chunk => do
        let (more, schedule) ← receiveInPieces ending fuel rest schedule
        pure (chunk ++ more, schedule)

/-- The loop of `execute_list` that adds up the lengths, in a `size_t`. -/
def sumSizes (names : List Filename) : ℕ :=
  names.foldl (fun size name ↦ (size + (name.length + 1)) % 2 ^ 64) 0

/-- There is no newline behind the last name. -/
def listSize (names : List Filename) : ℕ :=
  if sumSizes names > 0 then sumSizes names - 1 else sumSizes names

/-- The loop of `execute_list` that sends the names. -/
def sendNames : List Filename → List Reply → Outcome (List Byte × List Reply)
  | [], schedule => .next ([], schedule)
  | name :: names, schedule => do
      let (sent, schedule) ← writeInPieces schedule name
      let (separator, schedule) ←
        if names ≠ [] then writeInPieces schedule [newline] else .next ([], schedule)
      let (more, schedule) ← sendNames names schedule
      pure (sent ++ separator ++ more, schedule)

/-- What `execute_list` sends: the first line, the bytes of the size, and the names. -/
def sendList (names : List Filename) (schedule : List Reply) :
    Outcome (List Byte × List Byte × List Byte) := do
  let (ok, schedule) ← writeInPieces schedule okMessage
  let (size, schedule) ← writeInPieces schedule (sizeBytes (listSize names))
  let (payload, _) ← sendNames names schedule
  pure (ok, size, payload)

/-! ## Transfers without a failure -/

section Transfers

variable {ending : Ending} {schedule schedule' : List Reply} {input data rest sent content : List Byte}
  {count : ℕ} {read : Option (List Byte)}

theorem readInPieces_eq_next (hfail : .failed ∉ schedule)
    (h : readInPieces .closed count schedule input = .next (read, rest, schedule')) :
    read = some (input.take count) ∧ rest = input.drop count ∧ .failed ∉ schedule' := by
  unfold readInPieces at h
  split at h
  · cases h
  rename_i tr htr
  obtain ⟨hmoved, hok, hleft, hfail'⟩ := transferAll_eq_some hfail htr
  rw [List.nil_append] at hmoved
  rw [hok] at h
  have hresult : Outcome.next (some tr.moved, tr.left, tr.schedule) =
      .next (read, rest, schedule') := by
    simpa using h
  simp only [Outcome.next.injEq, Prod.mk.injEq] at hresult
  obtain ⟨rfl, rfl, rfl⟩ := hresult
  exact ⟨by rw [hmoved], hleft, hfail'⟩

theorem exists_readInPieces (input : List Byte) (hfail : .failed ∉ schedule) (hcount : 0 < count)
    (hprogress : min count (input.length + 1) ≤ progress schedule) :
    ∃ rest, readInPieces .closed count schedule input =
        .next (some (input.take count), input.drop count, rest) ∧ .failed ∉ rest ∧
      progress schedule ≤ progress rest + min count (input.length + 1) := by
  obtain ⟨rest, htransfer, hrest, hleft⟩ := transferAll_spec input hfail hcount hprogress []
  refine ⟨rest, ?_, hrest, hleft⟩
  rw [readInPieces, htransfer]
  simp

theorem writeInPieces_eq_next (hfail : .failed ∉ schedule)
    (h : writeInPieces schedule data = .next (sent, schedule')) :
    sent = data ∧ .failed ∉ schedule' := by
  unfold writeInPieces at h
  split at h
  · cases h
  rename_i tr htr
  obtain ⟨hmoved, -, -, hfail'⟩ := transferAll_eq_some hfail htr
  cases h
  rw [hmoved, List.nil_append, List.take_length]
  exact ⟨rfl, hfail'⟩

theorem exists_writeInPieces (hdata : data ≠ []) (hfail : .failed ∉ schedule)
    (hprogress : data.length ≤ progress schedule) :
    ∃ rest, writeInPieces schedule data = .next (data, rest) ∧ .failed ∉ rest ∧
      progress schedule ≤ progress rest + data.length := by
  have hmin : min data.length (data.length + 1) = data.length := by omega
  obtain ⟨rest, htransfer, hrest, hleft⟩ := transferAll_spec data hfail
    (List.length_pos_iff.mpr hdata) (hmin.le.trans hprogress) []
  rw [hmin] at hleft
  refine ⟨rest, ?_, hrest, hleft⟩
  rw [writeInPieces, htransfer]
  simp

theorem eq_nil_of_take_chunk (h : input.take BUFFER_SIZE = []) : input = [] := by
  have hlen := congrArg List.length h
  rw [List.length_take, List.length_nil, BUFFER_SIZE] at hlen
  exact List.length_eq_zero_iff.mp (by omega)

/-- The chunks that are received make up the stream. -/
theorem receiveInPieces_eq_next {fuel : ℕ} (hfail : .failed ∉ schedule)
    (h : receiveInPieces .closed fuel input schedule = .next (content, schedule')) :
    content = input ∧ .failed ∉ schedule' := by
  induction fuel generalizing input schedule content schedule' with
  | zero => cases h
  | succ fuel ih =>
    obtain ⟨⟨chunk, rest, schedule₁⟩, hread, h⟩ := Outcome.bind_eq_next_iff.mp h
    obtain ⟨rfl, rfl, hfail₁⟩ := readInPieces_eq_next hfail hread
    cases hchunk : input.take BUFFER_SIZE with
    | nil =>
      rw [hchunk] at h
      cases h
      exact ⟨(eq_nil_of_take_chunk hchunk).symm, hfail₁⟩
    | cons b bytes =>
      rw [hchunk] at h
      obtain ⟨⟨more, schedule₂⟩, hmore, h⟩ := Outcome.bind_eq_next_iff.mp h
      obtain ⟨rfl, hfail₂⟩ := ih hfail₁ hmore
      cases h
      rw [← hchunk, List.take_append_drop]
      exact ⟨rfl, hfail₂⟩

/-- Each byte needs a call at most.  Then the end is found, by the last chunk and by the read
after it. -/
theorem exists_receiveInPieces {fuel : ℕ} (hfuel : input.length < fuel)
    (hfail : .failed ∉ schedule)
    (hprogress : input.length + min input.length 1 + 1 ≤ progress schedule) :
    ∃ rest, receiveInPieces .closed fuel input schedule = .next (input, rest) ∧
      progress schedule ≤ progress rest + (input.length + min input.length 1 + 1) := by
  induction fuel generalizing input schedule with
  | zero => omega
  | succ fuel ih =>
    have hsize : 0 < BUFFER_SIZE := by decide
    obtain ⟨rest, hread, hrest, hleft⟩ := exists_readInPieces input hfail hsize (by omega)
    cases hchunk : input.take BUFFER_SIZE with
    | nil =>
      obtain rfl := eq_nil_of_take_chunk hchunk
      refine ⟨rest, ?_, by simpa [Nat.min_eq_right hsize] using hleft⟩
      rw [receiveInPieces, hread]
      rfl
    | cons b bytes =>
      have hpos : 0 < input.length := by
        have hlen := congrArg List.length hchunk
        rw [List.length_take, List.length_cons] at hlen
        omega
      have hdrop : (input.drop BUFFER_SIZE).length = input.length - BUFFER_SIZE :=
        List.length_drop
      obtain ⟨rest', hmore, hleft'⟩ :=
        @ih rest (input.drop BUFFER_SIZE) (by omega) hrest (by omega)
      refine ⟨rest', ?_, by omega⟩
      rw [receiveInPieces, hread, hchunk]
      simp only [Outcome.next_bind, hmore, Outcome.pure_eq]
      rw [← hchunk, List.take_append_drop]

theorem exists_sendInPieces {size total fuel : ℕ} (hfuel : rest.length < fuel)
    (hsize : size = total + rest.length) (hfail : .failed ∉ schedule)
    (hprogress : rest.length ≤ progress schedule) :
    ∃ schedule', sendInPieces size fuel total rest schedule = .next (rest, schedule') := by
  induction fuel generalizing total rest schedule with
  | zero => omega
  | succ fuel ih =>
    by_cases hnil : rest = []
    · subst hnil
      exact ⟨schedule, by simp [sendInPieces, hsize]⟩
    · have hpos := List.length_pos_iff.mpr hnil
      have htotal : total < size := by omega
      have hchunk : rest.take BUFFER_SIZE ≠ [] := fun h ↦ hnil (eq_nil_of_take_chunk h)
      have htake : (rest.take BUFFER_SIZE).length = min BUFFER_SIZE rest.length :=
        List.length_take
      have hdrop : (rest.drop BUFFER_SIZE).length = rest.length - BUFFER_SIZE :=
        List.length_drop
      have hbuffer : 0 < BUFFER_SIZE := by decide
      obtain ⟨schedule₁, hwrite, hfail₁, hleft⟩ := exists_writeInPieces hchunk hfail (by omega)
      obtain ⟨schedule₂, hmore⟩ := @ih schedule₁ (rest.drop BUFFER_SIZE)
        (total + (rest.take BUFFER_SIZE).length) (by omega) (by omega) hfail₁ (by omega)
      refine ⟨schedule₂, ?_⟩
      simp only [sendInPieces, if_pos htotal, if_neg hnil, hwrite, hmore, Outcome.next_bind,
        Outcome.pure_eq, List.take_append_drop]

end Transfers

/-! ## The server -/

namespace Server

variable {Φ : Type} (P : Platform Φ) (s : Server Φ) (fd : ℕ)

/-- What a schedule has sent. -/
def append (data : List Byte) : Server Φ :=
  let appended := (s.sockets fd).map fun sock ↦ { sock with output := sock.output ++ data }
  { s with sockets := Function.update s.sockets fd appended }

def executeGetInPieces (env : Surroundings) (filename : Filename) (schedule : List Reply) :
    Outcome (Server Φ × ℕ) := do
  let path ← fullPath env filename
  match P.fopenRead s.disk path with
  | none => pure (s, 0)
  | some content => do
    let (sent, schedule) ← writeInPieces schedule okMessage
    let s := s.append fd sent
    match P.stat s.disk path with
    | none => pure (s, 0)
    | some size => do
      let (sent, schedule) ← writeInPieces schedule (sizeBytes size)
      let s := s.append fd sent
      let (sent, _) ← sendInPieces size (content.length + 1) 0 content schedule
      pure (s.append fd sent, 1)

def executePutInPieces (env : Surroundings) (sock : Socket) (filename : Filename)
    (schedule : List Reply) : Outcome (Server Φ × ℕ) := do
  let path ← fullPath env filename
  match P.fopenWrite s.disk path with
  | none => pure (s, 0)
  | some save => do
    -- the announced size is read and not used
    let (_, input, schedule) ← readInPieces sock.ending 8 schedule sock.input
    let (content, schedule) ← receiveInPieces sock.ending (input.length + 1) input schedule
    let (sent, _) ← writeInPieces schedule okMessage
    let s := (s.setSocket fd { sock with input := [] }).append fd sent
    let fileList := if filename ∈ s.fileList then s.fileList else s.fileList ++ [filename]
    pure ({ s with fileList := fileList, disk := save (env.closed content) }, 1)

def executeListInPieces (schedule : List Reply) : Outcome (Server Φ × ℕ) := do
  let (ok, size, payload) ← sendList s.fileList schedule
  pure (((s.append fd ok).append fd size).append fd payload, 1)

/-- The end of `execute`. -/
def finish (executed : Outcome (Server Φ × ℕ)) : Outcome (Server Φ) := do
  let (s, result) ← executed
  if result = 0 then .exit else pure (s.close fd)

/-- One round of the loop, in which the files are moved in pieces. -/
def stepInPieces (event : Event × List Reply) : Outcome (Server Φ) :=
  match event.1 with
  | .accept fd input ending reader => .next (s.accept fd input ending reader)
  | .ready fd env =>
    match s.executing (.ready fd env), s.sockets fd with
    | some ⟨.GET, filename⟩, some _ => finish fd (s.executeGetInPieces P fd env filename event.2)
    | some ⟨.PUT, filename⟩, some sock =>
      finish fd (s.executePutInPieces P fd env sock filename event.2)
    | some ⟨.LIST, _⟩, some _ => finish fd (s.executeListInPieces fd event.2)
    | _, _ => s.handle P fd env

end Server

/-- The steps after which the loop goes on. -/
def StepInPieces {Φ : Type} (P : Platform Φ) (s : Server Φ) (event : Event × List Reply)
    (s' : Server Φ) : Prop :=
  s.Occurs event.1 ∧ s.stepInPieces P event = .next s'

variable {Φ : Type} {P : Platform Φ} {s s' : Server Φ} {fd k : ℕ} {sock : Socket}
  {name : Filename} {env : Surroundings} {schedule : List Reply} {event : Event × List Reply}

namespace Server

theorem finish_eq_next {executed : Outcome (Server Φ × ℕ)} (h : finish fd executed = .next s') :
    ∃ s₁ k, executed = .next (s₁, k) ∧ k ≠ 0 ∧ s' = s₁.close fd := by
  obtain ⟨⟨s₁, k⟩, hexecuted, h⟩ := Outcome.bind_eq_next_iff.mp h
  by_cases hk : k = 0
  · simp [hk] at h
  · simp only [if_neg hk, Outcome.pure_eq, Outcome.next.injEq] at h
    exact ⟨s₁, k, hexecuted, hk, h.symm⟩

theorem frame_append (s : Server Φ) (fd : ℕ) (data : List Byte) :
    Frame fd s (s.append fd data) where
  sockets _ hne := Function.update_of_ne hne _ _
  infos _ _ := rfl
  info := Or.inl rfl

theorem executeGetInPieces_eq_next
    (h : s.executeGetInPieces P fd env name schedule = .next (s', k)) :
    Frame fd s s' ∧ s'.fileList = s.fileList ∧ s'.disk = s.disk := by
  obtain ⟨path, -, h⟩ := Outcome.bind_eq_next_iff.mp h
  split at h
  · cases h
    exact ⟨Frame.refl fd s, rfl, rfl⟩
  · obtain ⟨⟨sent, schedule₁⟩, -, h⟩ := Outcome.bind_eq_next_iff.mp h
    simp only at h
    split at h
    · cases h
      exact ⟨frame_append s fd _, rfl, rfl⟩
    · obtain ⟨⟨sent₁, schedule₂⟩, -, h⟩ := Outcome.bind_eq_next_iff.mp h
      obtain ⟨⟨sent₂, schedule₃⟩, -, h⟩ := Outcome.bind_eq_next_iff.mp h
      cases h
      exact ⟨((frame_append s fd _).trans (frame_append _ fd _)).trans (frame_append _ fd _), rfl,
        rfl⟩

theorem executePutInPieces_eq_next
    (h : s.executePutInPieces P fd env sock name schedule = .next (s', k)) (hk : k ≠ 0) :
    Frame fd s s' ∧ FilesStep P s (.ready fd env) (some ⟨.PUT, name⟩) s' := by
  obtain ⟨path, hpath, h⟩ := Outcome.bind_eq_next_iff.mp h
  split at h
  · cases h
    exact absurd rfl hk
  · rename_i save hsave
    obtain ⟨⟨announced, input, schedule₁⟩, -, h⟩ := Outcome.bind_eq_next_iff.mp h
    obtain ⟨⟨content, schedule₂⟩, -, h⟩ := Outcome.bind_eq_next_iff.mp h
    obtain ⟨⟨sent, schedule₃⟩, -, h⟩ := Outcome.bind_eq_next_iff.mp h
    cases h
    exact ⟨((Frame.setSocket s fd _).trans (frame_append _ fd _)).files _ _,
      FilesStep.put hpath hsave rfl rfl⟩

theorem executeListInPieces_eq_next (h : s.executeListInPieces fd schedule = .next (s', k)) :
    Frame fd s s' ∧ s'.fileList = s.fileList ∧ s'.disk = s.disk := by
  obtain ⟨⟨ok, size, payload⟩, -, h⟩ := Outcome.bind_eq_next_iff.mp h
  cases h
  exact ⟨((frame_append s fd _).trans (frame_append _ fd _)).trans (frame_append _ fd _), rfl, rfl⟩

end Server

/-- However its transfers are cut, a step leaves the other connections alone and does to the
files what a command does. -/
theorem StepInPieces.frame (hinv : s.Inv) (h : StepInPieces P s (.ready fd env, schedule) s') :
    Frame fd s s' ∧ FilesStep P s (.ready fd env) (s.executing (.ready fd env)) s' := by
  have hkeep {header : Header} {s₁ : Server Φ}
      (hfiles : Frame fd s s₁ ∧ s₁.fileList = s.fileList ∧ s₁.disk = s.disk)
      (hcommand : s.executing (.ready fd env) = some header)
      (hread : header.command ≠ .PUT ∧ header.command ≠ .DELETE) : Frame fd s (s₁.close fd) ∧
        FilesStep P s (.ready fd env) (s.executing (.ready fd env)) (s₁.close fd) := by
    obtain ⟨hframe, hlist, hdisk⟩ := hfiles
    refine ⟨hframe.trans (Frame.close s₁ fd), .keep ?_ hlist hdisk⟩
    rintro header' hheader
    obtain rfl := Option.some.inj (hcommand.symm.trans hheader)
    exact hread
  obtain ⟨hoccurs, hstep⟩ := h
  simp only [Server.stepInPieces] at hstep
  split at hstep
  · rename_i name _ hcommand _
    obtain ⟨s₁, k, hget, -, rfl⟩ := Server.finish_eq_next hstep
    exact hkeep (Server.executeGetInPieces_eq_next hget) hcommand (by simp)
  · rename_i name sock hcommand _
    obtain ⟨s₁, k, hput, hk, rfl⟩ := Server.finish_eq_next hstep
    obtain ⟨hframe, hfiles⟩ := Server.executePutInPieces_eq_next hput hk
    rw [hcommand]
    exact ⟨hframe.trans (Frame.close s₁ fd), hfiles.congr rfl rfl⟩
  · rename_i hcommand _
    obtain ⟨s₁, k, hlist, -, rfl⟩ := Server.finish_eq_next hstep
    exact hkeep (Server.executeListInPieces_eq_next hlist) hcommand (by simp)
  · have ⟨sock, hsock, hopen, _⟩ := hoccurs
    exact ⟨Server.handle_eq_next hinv hsock hopen hstep, filesStep_of_step hinv ⟨hoccurs, hstep⟩⟩

theorem Server.Inv.stepInPieces (hinv : s.Inv) (h : StepInPieces P s event s') : s'.Inv := by
  obtain ⟨event, schedule⟩ := event
  cases event with
  | accept fd input ending reader =>
    obtain ⟨-, hstep⟩ := h
    cases hstep
    exact hinv.accept input ending reader
  | ready fd env =>
    obtain ⟨sock, hsock, hopen, -⟩ := h.1
    exact hinv.frame (h.frame hinv).1 hsock hopen

theorem filesStep_of_stepInPieces (hinv : s.Inv) (h : StepInPieces P s event s') :
    FilesStep P s event.1 (s.executing event.1) s' := by
  obtain ⟨event, schedule⟩ := event
  cases event with
  | accept fd input ending reader =>
    obtain ⟨-, hstep⟩ := h
    cases hstep
    exact .keep (by simp [Server.executing]) rfl rfl
  | ready fd env => exact (h.frame hinv).2

/-- A step that moves no file is the step of the other model. -/
theorem stepInPieces_of_step (hcommand : s.executing event.1 = none)
    (h : Step P s event.1 s') : StepInPieces P s event s' := by
  obtain ⟨event, schedule⟩ := event
  cases event with
  | accept fd input ending reader => exact h
  | ready fd env =>
    refine ⟨h.1, ?_⟩
    have hnone : s.executing (.ready fd env) = none := hcommand
    simp only [Server.stepInPieces, hnone]
    exact h.2

end SystemProgramming.NonstopNetworking
