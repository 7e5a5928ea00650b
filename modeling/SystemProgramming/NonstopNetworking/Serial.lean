import SystemProgramming.NonstopNetworking.Survival
import SystemProgramming.Lib.Serialization

/-!
# Interleaved clients of the server

The header of a connection is parsed at one event and its command is executed at a later
one, with other connections in between.  Until its command is executed a connection has
touched nothing but itself, and so the files and the answers are those of a server that
serves the connections one after the other.
-/

namespace SystemProgramming.NonstopNetworking

variable {Φ : Type} {P : Platform Φ} {s t u : Server Φ} {fd fd' : ℕ} {sock sock' : Socket}
  {cur : Info} {env : Surroundings} {data : List Byte} {k : ℕ} {e : Event} {a b : Option Socket}
  {i j : Option Info}

/-! ## One connection replaced -/

namespace Server

def put (s : Server Φ) (fd : ℕ) (a : Option Socket) (i : Option Info) : Server Φ :=
  { s with
    sockets := Function.update s.sockets fd a
    connectionsInfo := Function.update s.connectionsInfo fd i }

@[simp] theorem put_sockets_self : (s.put fd a i).sockets fd = a := Function.update_self ..

@[simp] theorem put_connectionsInfo_self : (s.put fd a i).connectionsInfo fd = i :=
  Function.update_self ..

theorem put_sockets_of_ne (h : fd' ≠ fd) : (s.put fd a i).sockets fd' = s.sockets fd' :=
  Function.update_of_ne h _ _

theorem put_connectionsInfo_of_ne (h : fd' ≠ fd) :
    (s.put fd a i).connectionsInfo fd' = s.connectionsInfo fd' :=
  Function.update_of_ne h _ _

@[simp] theorem put_same : s.put fd (s.sockets fd) (s.connectionsInfo fd) = s := by
  simp [put]

@[simp] theorem put_put : (s.put fd a i).put fd b j = s.put fd b j := by
  simp [put]

theorem put_comm (h : fd' ≠ fd) :
    (s.put fd a i).put fd' b j = (s.put fd' b j).put fd a i := by
  simp only [put, Function.update_comm h]

/-! Whatever is done to another connection, or to the files, may be done first. -/

theorem setSocket_put (h : fd' ≠ fd) (sock : Socket) :
    (s.put fd a i).setSocket fd' sock = (s.setSocket fd' sock).put fd a i := by
  simp only [put, setSocket, Function.update_comm h]

theorem send_put (h : fd' ≠ fd) (data : List Byte) :
    (s.put fd a i).send fd' data = (s.send fd' data).put fd a i := by
  simp only [put, send, Function.update_of_ne h, Function.update_comm h]

theorem write_put (hne : fd' ≠ fd) (h : s.write fd' data = .next t) :
    (s.put fd a i).write fd' data = .next (t.put fd a i) := by
  unfold write at h ⊢
  rw [put_sockets_of_ne hne]
  split at h
  · cases h
    rfl
  · split at h
    · rename_i htakes
      cases h
      simp only [if_pos htakes, send_put hne]
    · cases h

theorem close_put (h : fd' ≠ fd) :
    (s.put fd a i).close fd' = (s.close fd').put fd a i := by
  simp only [put, close, Function.update_of_ne h, Function.update_comm h]

theorem send_setSocket (sock : Socket) (data : List Byte) :
    (s.setSocket fd sock).send fd data = s.setSocket fd (sock.written data) := by
  simp [setSocket, send]

/-! ## The commands -/

theorem executeGet_put {name : Filename} (hne : fd' ≠ fd)
    (h : s.executeGet P fd' env name = .next (t, k)) :
    (s.put fd a i).executeGet P fd' env name = .next (t.put fd a i, k) := by
  obtain ⟨path, hpath, h⟩ := Outcome.bind_eq_next_iff.mp h
  refine Outcome.bind_eq_next_iff.mpr ⟨path, hpath, ?_⟩
  have hdisk : (s.put fd a i).disk = s.disk := rfl
  rw [hdisk]
  split at h
  · cases h
    rfl
  · obtain ⟨s₁, hwrite₁, h⟩ := Outcome.bind_eq_next_iff.mp h
    refine Outcome.bind_eq_next_iff.mpr ⟨_, write_put hne hwrite₁, ?_⟩
    have hdisk₁ : (s₁.put fd a i).disk = s₁.disk := rfl
    rw [hdisk₁]
    split at h
    · cases h
      rfl
    · obtain ⟨s₂, hwrite₂, h⟩ := Outcome.bind_eq_next_iff.mp h
      obtain ⟨sent, hsent, h⟩ := Outcome.bind_eq_next_iff.mp h
      obtain ⟨s₃, hwrite₃, h⟩ := Outcome.bind_eq_next_iff.mp h
      cases h
      simp only [write_put hne hwrite₂, hsent, write_put hne hwrite₃, Outcome.next_bind,
        Outcome.pure_eq]

theorem executePut_put {name : Filename} (hne : fd' ≠ fd)
    (h : s.executePut P fd' env sock name = .next (t, k)) :
    (s.put fd a i).executePut P fd' env sock name = .next (t.put fd a i, k) := by
  obtain ⟨path, hpath, h⟩ := Outcome.bind_eq_next_iff.mp h
  refine Outcome.bind_eq_next_iff.mpr ⟨path, hpath, ?_⟩
  have hdisk : (s.put fd a i).disk = s.disk := rfl
  rw [hdisk]
  split at h
  · cases h
    rfl
  · obtain ⟨⟨announced, input⟩, hread, h⟩ := Outcome.bind_eq_next_iff.mp h
    obtain ⟨content, hcontent, h⟩ := Outcome.bind_eq_next_iff.mp h
    obtain ⟨s₁, hwrite, h⟩ := Outcome.bind_eq_next_iff.mp h
    cases h
    simp only [hread, hcontent, setSocket_put hne, write_put hne hwrite, Outcome.next_bind,
      Outcome.pure_eq]
    rfl

theorem executeDelete_put {name : Filename} (hne : fd' ≠ fd)
    (h : s.executeDelete P fd' env name = .next (t, k)) :
    (s.put fd a i).executeDelete P fd' env name = .next (t.put fd a i, k) := by
  obtain ⟨path, hpath, h⟩ := Outcome.bind_eq_next_iff.mp h
  refine Outcome.bind_eq_next_iff.mpr ⟨path, hpath, ?_⟩
  have hdisk : (s.put fd a i).disk = s.disk := rfl
  have hlist : (s.put fd a i).fileList = s.fileList := rfl
  rw [hdisk, hlist]
  split at h
  · obtain ⟨s₁, -, h⟩ := Outcome.bind_eq_next_iff.mp h
    cases h
  · split at h
    · rename_i hmem
      obtain ⟨s₁, hwrite, h⟩ := Outcome.bind_eq_next_iff.mp h
      cases h
      simp only [if_pos hmem, write_put hne hwrite, Outcome.next_bind, Outcome.pure_eq]
      rfl
    · rename_i hmem
      obtain ⟨s₁, hwrite, h⟩ := Outcome.bind_eq_next_iff.mp h
      cases h
      simp only [if_neg hmem, write_put hne hwrite, Outcome.next_bind, Outcome.pure_eq]
      rfl

theorem executeList_put (hne : fd' ≠ fd) (h : s.executeList fd' = .next (t, k)) :
    (s.put fd a i).executeList fd' = .next (t.put fd a i, k) := by
  obtain ⟨s₁, hwrite₁, h⟩ := Outcome.bind_eq_next_iff.mp h
  obtain ⟨s₂, hwrite₂, h⟩ := Outcome.bind_eq_next_iff.mp h
  obtain ⟨s₃, hwrite₃, h⟩ := Outcome.bind_eq_next_iff.mp h
  cases h
  have hlist : (s.put fd a i).fileList = s.fileList := rfl
  simp only [executeList, hlist, write_put hne hwrite₁, write_put hne hwrite₂,
    write_put hne hwrite₃, Outcome.next_bind, Outcome.pure_eq]

theorem executeCommand_put {header : Header} (hne : fd' ≠ fd)
    (h : s.executeCommand P fd' env sock header = .next (t, k)) :
    (s.put fd a i).executeCommand P fd' env sock header = .next (t.put fd a i, k) := by
  unfold executeCommand at h ⊢
  split at h
  · exact executeGet_put hne h
  · exact executePut_put hne h
  · exact executeDelete_put hne h
  · exact executeList_put hne h
  · cases h
    rfl

theorem execute_put (hne : fd' ≠ fd) (h : s.execute P fd' env sock cur = .next (t, 0)) :
    (s.put fd a i).execute P fd' env sock cur = .next (t.put fd a i, 0) := by
  obtain ⟨header, s₁, n, hheader, hcommand, hn, rfl⟩ := execute_eq_next.mp h
  exact execute_eq_next.mpr ⟨header, s₁.put fd a i, n, hheader, executeCommand_put hne hcommand, hn,
    (close_put hne).symm⟩

/-! ## The header -/

/-- Parsing a header changes its own connection only, in a way that depends on nothing else. -/
theorem exists_put_of_parsingHeader (h : s.parsingHeader P fd sock = .next (t, k)) :
    ∃ f : Option Info → Option Socket × Option Info, ∀ s : Server Φ,
      s.parsingHeader P fd sock =
        .next (s.put fd (f (s.connectionsInfo fd)).1 (f (s.connectionsInfo fd)).2, k) := by
  obtain ⟨⟨buf, n, input⟩, hread, h⟩ := Outcome.bind_eq_next_iff.mp h
  obtain ⟨sock', hsock'⟩ : ∃ sock', ∀ s : Server Φ, (if n = BUFFER_SIZE then
      (s.setSocket fd { sock with input := input }).send fd P.errBadRequest
      else s.setSocket fd { sock with input := input }) = s.setSocket fd sock' := by
    by_cases hn : n = BUFFER_SIZE
    · exact ⟨_, fun s ↦ by rw [if_pos hn, send_setSocket]⟩
    · exact ⟨_, fun s ↦ by rw [if_neg hn]⟩
  simp only [hsock'] at h
  have hkeep (s : Server Φ) : s.put fd (some sock') (s.connectionsInfo fd) =
      s.setSocket fd sock' := by simp [put, setSocket]
  simp only [parsingHeader, hread, Outcome.next_bind, hsock']
  split at h
  · cases h
    exact ⟨fun i ↦ (some sock', i), fun s ↦ by rw [hkeep]; rfl⟩
  · cases h
    exact ⟨fun _ ↦ (some sock', some ⟨1, some ⟨.LIST, []⟩⟩), fun s ↦ rfl⟩
  · obtain ⟨name, hname, h⟩ := Outcome.bind_eq_next_iff.mp h
    cases h
    exact ⟨fun _ ↦ (some sock', _), fun s ↦ by simp only [hname, Outcome.next_bind]; rfl⟩

theorem handle_put (hne : fd' ≠ fd) (h : s.handle P fd' env = .next t) :
    (s.put fd a i).handle P fd' env = .next (t.put fd a i) := by
  unfold handle at h ⊢
  rw [put_sockets_of_ne hne, put_connectionsInfo_of_ne hne]
  split at h
  · rename_i cur sock hcur hsock
    split_ifs at h with hzero hone
    · obtain ⟨⟨s₁, n⟩, hparse, h⟩ := Outcome.bind_eq_next_iff.mp h
      obtain ⟨f, hf⟩ := exists_put_of_parsingHeader hparse
      obtain ⟨rfl, -⟩ : s₁ = _ ∧ n = n := by simpa [hf] using hparse.symm
      simp only [if_pos hzero, hf, put_connectionsInfo_of_ne hne, Outcome.next_bind]
      by_cases hn : n = 0
      · simp only [if_pos hn] at h ⊢
        cases h
        rw [put_comm hne]
        rfl
      · simp [hn] at h
    · obtain ⟨⟨s₁, n⟩, hexec, h⟩ := Outcome.bind_eq_next_iff.mp h
      by_cases hn : n = 0
      · subst hn
        cases h
        simp only [if_neg hzero, if_pos hone, execute_put hne hexec, Outcome.next_bind]
        rfl
      · simp [hn] at h
    · simp only [if_neg hzero, if_neg hone]
      cases h
      rfl
  · cases h

end Server

/-! ## Steps that are put off -/

def Event.connection : Event → ℕ
  | .accept fd _ _ _ => fd
  | .ready fd _ => fd

/-- A connection that is accepted, or whose header is parsed. -/
def Server.Defers (s : Server Φ) : Event → Prop
  | .accept _ _ _ _ => True
  | .ready fd _ => ∃ header, s.connectionsInfo fd = some ⟨0, header⟩

theorem occurs_put (h : e.connection ≠ fd) : (s.put fd a i).Occurs e ↔ s.Occurs e := by
  cases e with
  | accept fd' input ending reader =>
    have hne : fd' ≠ fd := h
    simp only [Server.Occurs, Server.put_sockets_of_ne hne]
  | ready fd' env =>
    have hne : fd' ≠ fd := h
    simp only [Server.Occurs, Server.put_sockets_of_ne hne, Server.put_connectionsInfo_of_ne hne]

theorem defers_put (h : e.connection ≠ fd) : (s.put fd a i).Defers e ↔ s.Defers e := by
  cases e with
  | accept fd' input ending reader => exact Iff.rfl
  | ready fd' env =>
    have hne : fd' ≠ fd := h
    simp only [Server.Defers, Server.put_connectionsInfo_of_ne hne]

theorem step_put (h : e.connection ≠ fd) (hstep : Step P s e t) :
    Step P (s.put fd a i) e (t.put fd a i) := by
  obtain ⟨hoccurs, hstep⟩ := hstep
  refine ⟨(occurs_put h).mpr hoccurs, ?_⟩
  cases e with
  | accept fd' input ending reader =>
    cases hstep
    exact congrArg Outcome.next (Server.put_comm (b := some ⟨input, ending, reader, [], true⟩)
      (j := some ⟨0, none⟩) h)
  | ready fd' env => exact Server.handle_put h hstep

/-- A step does not touch the other connections. -/
theorem put_of_step (h : e.connection ≠ fd) (hstep : Step P s e t) :
    t.put fd (s.sockets fd) (s.connectionsInfo fd) = t := by
  have hput := (step_put (a := s.sockets fd) (i := s.connectionsInfo fd) h hstep).2
  rw [Server.put_same, hstep.2] at hput
  exact (Outcome.next.inj hput).symm

theorem sockets_of_step (h : e.connection ≠ fd) (hstep : Step P s e t) :
    t.sockets fd = s.sockets fd := by
  rw [← put_of_step h hstep, Server.put_sockets_self]

theorem connectionsInfo_of_step (h : e.connection ≠ fd) (hstep : Step P s e t) :
    t.connectionsInfo fd = s.connectionsInfo fd := by
  rw [← put_of_step h hstep, Server.put_connectionsInfo_self]

/-- A step that is put off changes its own connection only, wherever it is taken. -/
theorem exists_put_of_defers (hdefers : s.Defers e) (hstep : Step P s e t) :
    ∃ a i, t = s.put e.connection a i ∧ ∀ s' : Server Φ,
      s'.sockets e.connection = s.sockets e.connection →
        s'.connectionsInfo e.connection = s.connectionsInfo e.connection →
          s'.Defers e ∧ Step P s' e (s'.put e.connection a i) := by
  obtain ⟨hoccurs, hstep⟩ := hstep
  cases e with
  | accept fd input ending reader =>
    cases hstep
    refine ⟨some ⟨input, ending, reader, [], true⟩, some ⟨0, none⟩, rfl,
      fun s' hsock _ ↦ ⟨trivial, ?_, rfl⟩⟩
    intro sock hsock'
    exact hoccurs sock (hsock.symm.trans hsock')
  | ready fd env =>
    obtain ⟨sock, hsock, hopen, hinput⟩ := hoccurs
    obtain ⟨header, hcur⟩ := hdefers
    rcases (Server.handle_eq hcur hsock (Or.inl rfl)).mp hstep with ⟨-, hparse⟩ | ⟨hone, -⟩
    · obtain ⟨f, hf⟩ := Server.exists_put_of_parsingHeader hparse
      refine ⟨(f (s.connectionsInfo fd)).1, (f (s.connectionsInfo fd)).2, ?_,
        fun s' hsock' hcur' ↦ ⟨⟨header, hcur'.trans hcur⟩,
          ⟨sock, hsock'.trans hsock, hopen, fun cur' hcur'' ↦ ?_⟩, ?_⟩⟩
      · exact (Prod.mk.inj (Outcome.next.inj (hparse.symm.trans (hf s)))).1
      · exact hinput cur' (hcur'.symm.trans hcur'')
      · refine (Server.handle_eq (hcur'.trans hcur) (hsock'.trans hsock) (Or.inl rfl)).mpr
          (Or.inl ⟨rfl, ?_⟩)
        have hparse' := hf s'
        rw [show s'.connectionsInfo fd = s.connectionsInfo fd from hcur'] at hparse'
        exact hparse'
    · cases hone

abbrev Deferred (P : Platform Φ) : Server Φ → Event → Server Φ → Prop :=
  Guarded (Step P) Server.Defers

theorem deferred_behind_step :
    MovesBehind (Deferred P) (Step P) fun e f ↦ e.connection ≠ f.connection := by
  rintro s t u e f hne ⟨hdefers, hfirst⟩ hsecond
  obtain ⟨a, i, ht, hlocal⟩ := exists_put_of_defers hdefers hfirst
  -- before `e`, its connection is as it was
  set v := u.put e.connection (s.sockets e.connection) (s.connectionsInfo e.connection) with hv
  have hback : t.put e.connection (s.sockets e.connection) (s.connectionsInfo e.connection) = s := by
    rw [ht, Server.put_put, Server.put_same]
  have hsecond' := step_put (a := s.sockets e.connection) (i := s.connectionsInfo e.connection)
    (Ne.symm hne) hsecond
  rw [hback] at hsecond'
  obtain ⟨hdefers', hfirst'⟩ := hlocal v (by simp [hv]) (by simp [hv])
  have hsame : v.put e.connection a i = u := by
    have hu := put_of_step (Ne.symm hne) hsecond
    rw [ht, Server.put_sockets_self, Server.put_connectionsInfo_self] at hu
    rw [hv, Server.put_put, hu]
  rw [hsame] at hfirst'
  exact ⟨v, hsecond', hdefers', hfirst'⟩

theorem deferred_behind_deferred :
    MovesBehind (Deferred P) (Deferred P) fun e f ↦ e.connection ≠ f.connection := by
  rintro s t u e f hne hfirst ⟨hdefers, hsecond⟩
  obtain ⟨a, i, ht, -⟩ := exists_put_of_defers hfirst.1 hfirst.2
  obtain ⟨v, hsecond', hfirst'⟩ := deferred_behind_step hne hfirst hsecond
  rw [ht] at hdefers
  exact ⟨v, ⟨(defers_put (Ne.symm hne)).mp hdefers, hsecond'⟩, hfirst'⟩

/-! ## The connections as transactions -/

/-- A connection is accepted, its header is parsed and its command is executed. -/
def Transaction (events : List Event) : Prop :=
  ∃ fd input ending reader env env',
    events = [.accept fd input ending reader, .ready fd env, .ready fd env']

/-- What the connection `fd` has done of a transaction. -/
inductive Own (s : Server Φ) (fd : ℕ) : List Event → Prop
  | free (h : ∀ sock, s.sockets fd = some sock → sock.isOpen = false) : Own s fd []
  | accepted {sock : Socket} {header : Option Header} (input : List Byte) (ending : Ending)
      (reader : Reader) (hsock : s.sockets fd = some sock) (hopen : sock.isOpen = true)
      (hcur : s.connectionsInfo fd = some ⟨0, header⟩) : Own s fd [.accept fd input ending reader]
  | parsed {sock : Socket} {header : Option Header} (input : List Byte) (ending : Ending)
      (reader : Reader) (env : Surroundings) (hsock : s.sockets fd = some sock)
      (hopen : sock.isOpen = true) (hcur : s.connectionsInfo fd = some ⟨1, header⟩) :
      Own s fd [.accept fd input ending reader, .ready fd env]

def complete (events : List Event) : Bool := decide (events.length = 3)

theorem Own.congr {events : List Event} (h : Own s fd events) (hsock : t.sockets fd = s.sockets fd)
    (hcur : t.connectionsInfo fd = s.connectionsInfo fd) : Own t fd events := by
  cases h with
  | free h => exact Own.free fun sock hsock' ↦ h sock (hsock.symm.trans hsock')
  | accepted input ending reader h hopen hinfo =>
    exact Own.accepted input ending reader (hsock.trans h) hopen (hcur.trans hinfo)
  | parsed input ending reader env h hopen hinfo =>
    exact Own.parsed input ending reader env (hsock.trans h) hopen (hcur.trans hinfo)

/-- A served connection is closed. -/
theorem isOpen_of_execute (h : s.execute P fd env sock cur = .next (t, 0)) :
    ∀ sock', t.sockets fd = some sock' → sock'.isOpen = false := by
  obtain ⟨header, s₁, n, -, -, -, rfl⟩ := Server.execute_eq_next.mp h
  intro sock' hsock'
  simp only [Server.close, Function.update_self, Option.map_eq_some_iff] at hsock'
  obtain ⟨sock₁, -, rfl⟩ := hsock'
  rfl

/-- What the next step of a connection does: it is accepted, or its header is parsed, or its
command is executed. -/
theorem Own.next {events : List Event} (h : Own s e.connection events) (hstep : Step P s e t) :
    (complete (events ++ [e]) = false ∧ s.Defers e ∧ Own t e.connection (events ++ [e])) ∨
      (complete (events ++ [e]) = true ∧ Own t e.connection [] ∧
        Transaction (events ++ [e])) := by
  obtain ⟨hoccurs, hstep⟩ := hstep
  cases e with
  | accept fd input ending reader =>
    cases hstep
    have hnew : Own (s.accept fd input ending reader) fd [.accept fd input ending reader] :=
      Own.accepted input ending reader (Function.update_self ..) rfl (Function.update_self ..)
    cases h with
    | free h => exact Or.inl ⟨rfl, trivial, hnew⟩
    | accepted _ _ _ hsock hopen _ => simp [hoccurs _ hsock] at hopen
    | parsed _ _ _ _ hsock hopen _ => simp [hoccurs _ hsock] at hopen
  | ready fd env =>
    obtain ⟨sock, hsock, hopen, -⟩ := hoccurs
    cases h with
    | free h => simp [h sock hsock] at hopen
    | accepted input ending reader _ _ hcur =>
      rcases (Server.handle_eq hcur hsock (Or.inl rfl)).mp hstep with ⟨-, hparse⟩ | ⟨hone, -⟩
      · obtain ⟨-, ⟨header, hcur'⟩, ⟨sock', hsock', hopen'⟩, -⟩ :=
          Server.parsingHeader_eq_next hparse
        exact Or.inl ⟨rfl, ⟨_, hcur⟩,
          Own.parsed input ending reader env hsock' (hopen'.trans hopen) hcur'⟩
      · cases hone
    | parsed input ending reader env' _ _ hcur =>
      rcases (Server.handle_eq hcur hsock (Or.inr rfl)).mp hstep with ⟨hzero, -⟩ | ⟨-, hexec⟩
      · cases hzero
      · exact Or.inr ⟨rfl, Own.free (isOpen_of_execute hexec), fd, input, ending, reader, env', env,
          rfl⟩

theorem transactional : Transactional (Deferred P) (Step P) Event.connection complete
    (Own (Φ := Φ)) Transaction where
  soft_behind_step := deferred_behind_step
  soft_behind_soft := deferred_behind_deferred
  own_completed hown hstep hcomplete := by
    rcases hown.next hstep with ⟨hnot, -⟩ | ⟨-, hfree, htransaction⟩
    · simp [hcomplete] at hnot
    · exact ⟨hfree, htransaction⟩
  own_extended hown hstep hincomplete := by
    rcases hown.next hstep with ⟨-, hdefers, hnext⟩ | ⟨hnot, -⟩
    · exact ⟨⟨hdefers, hstep⟩, hnext⟩
    · simp [hincomplete] at hnot
  own_other hown hstep hne :=
    hown.congr (sockets_of_step hne hstep) (connectionsInfo_of_step hne hstep)
  step_of_soft h := h.2

/-- What is put off leaves the files and the other connections alone. -/
theorem files_of_deferred {events : List Event} (h : Run (Deferred P) s events t) :
    t.fileList = s.fileList ∧ t.disk = s.disk ∧
      ∀ fd, (∀ e ∈ events, e.connection ≠ fd) → t.sockets fd = s.sockets fd := by
  induction h with
  | nil => exact ⟨rfl, rfl, fun _ _ ↦ rfl⟩
  | @snoc t u events e _ hlast ih =>
    obtain ⟨hlist, hdisk, hsockets⟩ := ih
    obtain ⟨a, i, rfl, -⟩ := exists_put_of_defers hlast.1 hlast.2
    refine ⟨hlist, hdisk, fun fd hfd ↦ ?_⟩
    rw [Server.put_sockets_of_ne (Ne.symm (hfd e (by simp)))]
    exact hsockets fd fun e' he' ↦ hfd e' (List.mem_append_left _ he')

/-! ## The serial order of a run -/

/-- The served connections, in the order in which their commands were executed. -/
def served (events : List Event) : List (List Event) :=
  (SerialLog.ofEvents Event.connection complete events).completed

/-- The events of the connections that have not been served. -/
def waiting (events : List Event) : List Event :=
  (SerialLog.ofEvents Event.connection complete events).pending

/-- Every run of the server ends as if the served connections had been served one after the
other, each from its arrival to its end before the next one came, and only then the others
had arrived.  The files, and the answers to the connections that are not waiting again, are
those that the served ones have left.  Each step finds the same surroundings in both runs. -/
theorem serializable {disk : Φ} {events : List Event}
    (hrun : Run (Step P) (Server.init disk) events s) :
    (∀ connection ∈ served events, Transaction connection) ∧
    (∀ fd, ((served events).flatten ++ waiting events).filter (fun e ↦ e.connection = fd) =
      events.filter fun e ↦ e.connection = fd) ∧
    ∃ v, Run (Step P) (Server.init disk) (served events).flatten v ∧
      Run (Step P) v (waiting events) s ∧
      s.fileList = v.fileList ∧ s.disk = v.disk ∧
      ∀ fd, (∀ e ∈ waiting events, e.connection ≠ fd) → s.sockets fd = v.sockets fd := by
  have hinit : ∀ fd, Own (Server.init disk) fd [] := fun fd ↦
    Own.free fun sock hsock ↦ by cases hsock
  obtain ⟨⟨v, hserved, hwaiting⟩, -, hshape⟩ := transactional.serialized_of_run hinit hrun
  exact ⟨hshape, SerialLog.serial_ofEvents events, v, hserved, hwaiting.of_guarded,
    files_of_deferred hwaiting⟩

/-- Two clients have arrived, and the first one is served. -/
theorem serializable_one : ∃ s v, Run (Step smallPlatform) (Server.init fun _ ↦ none)
      (twoClients ++ [.ready 4 calm, .ready 4 calm]) s ∧
    Run (Step smallPlatform) (Server.init fun _ ↦ none)
      [.accept 4 listLine .closed .all, .ready 4 calm, .ready 4 calm] v ∧
    Run (Step smallPlatform) v [.accept 5 getLine .closed .all] s ∧
    s.sockets 4 = v.sockets 4 := by
  let s' := (twoAccepted.setSocket 4 ⟨[], .closed, .all, [], true⟩).setInfo 4 ⟨1, some ⟨.LIST, []⟩⟩
  have hread : readRequestHeader 24 BUFFER_SIZE .closed [] listLine = .next (listLine, 4, []) := by
    have hline : ∀ b ∈ ascii ['L', 'I', 'S', 'T'], b ≠ 0 ∧ b ≠ newline := by
      simp [ascii, newline]
    exact readRequestHeader_line (by simp) hline (by decide) (by simp [ascii, BUFFER_SIZE])
  have hparse : twoAccepted.handle smallPlatform 4 calm = .next s' := by
    have hverb : verbOf listLine = some .LIST := rfl
    have hshort : ¬ 4 = BUFFER_SIZE := by simp [BUFFER_SIZE]
    refine (Server.handle_eq rfl rfl (Or.inl rfl)).mpr (Or.inl ⟨rfl, ?_⟩)
    simp only [Server.parsingHeader, smallPlatform, hread, Outcome.next_bind, hverb, if_neg hshort]
    rfl
  have hready : twoAccepted.Occurs (.ready 4 calm) :=
    ⟨_, rfl, rfl, fun _ _ _ ↦ Or.inr (by decide)⟩
  have hready' : s'.Occurs (.ready 4 calm) := ⟨_, rfl, rfl, fun _ _ _ ↦ Or.inr (by decide)⟩
  have hrun : Run (Step smallPlatform) (Server.init fun _ ↦ none)
      (twoClients ++ [.ready 4 calm, .ready 4 calm]) _ :=
    run_twoClients.append (Run.cons ⟨hready, hparse⟩ (Run.single ⟨hready', rfl⟩))
  obtain ⟨-, -, v, hserved, hwaiting, -, -, hsockets⟩ := serializable hrun
  refine ⟨_, v, hrun, hserved, hwaiting, hsockets 4 ?_⟩
  decide

end SystemProgramming.NonstopNetworking
