import SystemProgramming.CharmingChatroom.SlotTable

/-!
# What a broadcast writes

A slot holds the descriptor of its connection until it is cleared, also after the descriptor
has been closed.  While no new connection gets a number that is still in the table, every
byte of a broadcast goes to a connection that the table held when the broadcast began.
-/

namespace SystemProgramming.CharmingChatroom

/-- The bytes of a broadcast. -/
def tag (b : ℕ) (bytes : List Byte) : List (ℕ × Byte) := bytes.map fun byte ↦ (b, byte)

@[simp] theorem tag_nil (b : ℕ) : tag b [] = [] := rfl

theorem tag_append (b : ℕ) (left right : List Byte) :
    tag b (left ++ right) = tag b left ++ tag b right := List.map_append

/-- What is left to be written to a client. -/
def Write.rest (message : Message) : Write → List Byte
  | .slot => frame message
  | .header _ left => left ++ message
  | .body _ left => left

/-- The descriptor that is written to is in the slot. -/
def Write.InSlot (i : ℕ) (fd : ℤ) : Write → Prop
  | .slot => True
  | .header out _ | .body out _ => i < MAX_CLIENTS ∧ out = fd ∧ fd ≠ -1

namespace Server

variable (s : Server)

def pcOf (n : ℕ) : Option Pc := (s.threads n).map Thread.pc

def messageOf (broadcasts : List (Message × ℕ)) (b : ℕ) : Message :=
  (broadcasts[b]?.map Prod.fst).getD []

/-- The frames of some broadcasts, one after the other. -/
def whole (broadcasts : List (Message × ℕ)) (log : List ℕ) : List (ℕ × Byte) :=
  log.flatMap fun b ↦ tag b (frame (messageOf broadcasts b))

/-- A broadcast of a message that some client has sent, which began after the connection had
been accepted.  A broadcast begins when it gets the mutex. -/
def Addressed (b c : ℕ) : Prop :=
  ∃ message accepted, s.broadcasts[b]? = some (message, accepted) ∧ message ∈ s.sent ∧
    c < accepted

/-- The bytes on every wire are the frames of different broadcasts, none of which began before
the connection was accepted.  While a broadcast is under way, a part of its frame may follow. -/
def DeliversOnce : Prop :=
  ∀ c, ∃ log part, s.wire c = whole s.broadcasts log ++ part ∧ log.Nodup ∧
    (∀ b ∈ log, s.Addressed b c) ∧
    (part = [] ∨ ∃ n b message i write rest, s.mutex = some n ∧
      s.pcOf n = some (.writing b message i write) ∧ messageOf s.broadcasts b = message ∧
      b ∉ log ∧ s.Addressed b c ∧ part ++ rest = tag b (frame message))

/-- A call of `write` that fails. -/
def WriteFails (fd : ℤ) : Reply → Prop
  | .interrupted => False
  | .failed => True
  | .upTo _ => s.connection fd = none

instance (fd : ℤ) : ∀ reply, Decidable (s.WriteFails fd reply)
  | .interrupted => isFalse id
  | .failed => isTrue trivial
  | .upTo _ => inferInstanceAs (Decidable (_ = _))

/-- A call of `write` that fails is the first one for its frame. -/
def FailsFirst (reply : Reply) : Option Pc → Prop
  | some (.writing _ message _ (.header fd left)) =>
      s.WriteFails fd reply → left = bigEndian MESSAGE_SIZE_DIGITS message.length
  | some (.writing _ _ _ (.body fd _)) => ¬ s.WriteFails fd reply
  | _ => True

instance (reply : Reply) : ∀ pc, Decidable (s.FailsFirst reply pc)
  | some (.writing _ _ _ (.header ..)) => inferInstanceAs (Decidable (_ → _))
  | some (.writing _ _ _ (.body ..)) => inferInstanceAs (Decidable (¬ _))
  | none | some (.writing _ _ _ .slot) | some .reading | some (.handing _) | some .leaving
  | some .closed | some .gone => isTrue trivial

/-- A new connection gets a number that is not in the table, a connection that is admitted is
one and finds a free slot, and a body arrives as a whole. -/
def Proper (s : Server) : Event → Prop
  | .accept (some fd) => ∀ k, s.clients (slotIndex k) ≠ fd
  | .enroll => s.Admits .enroll
  | .receive _ message size => size = message.length
  | .write n reply => s.FailsFirst reply (s.pcOf n)
  | _ => True

instance (s : Server) : ∀ e, Decidable (s.Proper e)
  | .accept (some fd) => inferInstanceAs (Decidable (∀ k, s.clients (slotIndex k) ≠ fd))
  | .enroll => inferInstanceAs (Decidable (s.Admits .enroll))
  | .receive _ message size => inferInstanceAs (Decidable (size = message.length))
  | .write n reply => inferInstanceAs (Decidable (s.FailsFirst reply (s.pcOf n)))
  | .accept none | .lock _ | .advance _ | .leave _ | .close _ | .clear _ => isTrue trivial

variable {s} {s' : Server} {n : ℕ}

theorem pcOf_of_threads {t : Thread} (h : s.threads n = some t) : s.pcOf n = some t.pc := by
  rw [pcOf, h, Option.map_some]

theorem pcOf_setPc {t : Thread} {pc : Pc} (h : s.threads n = some t) :
    (s.setPc n pc).pcOf = Function.update s.pcOf n (some pc) := by
  funext m
  rcases eq_or_ne m n with rfl | hne
  · simp [pcOf, setPc, h]
  · simp [pcOf, setPc, hne]

/-! ## Descriptors -/

/-- A slot's descriptor designates the connection of the slot until it is closed, and nothing
from then on; the next connection has another descriptor; a writer holds the mutex. -/
structure ConnInv (s : Server) : Prop where
  table : s.TableInv
  own : ∀ n i fd, s.seat n = some (i, fd) →
    s.connection fd = if s.pcOf n = some .closed then none else some n
  pending : ∀ fd n, s.pending = some (fd, n) → fd ≠ -1 →
    s.connection fd = some n ∧ ∀ k, s.clients (slotIndex k) ≠ fd
  holds : ∀ n b message i write, s.pcOf n = some (.writing b message i write) →
    s.mutex = some n

/-- A thread that is somewhere else than the one that has just gone on. -/
theorem pcOf_of_update {m : ℕ} {pc pc' : Pc}
    (hpc : s'.pcOf = Function.update s.pcOf n (some pc)) (hne : pc ≠ pc')
    (hm : s'.pcOf m = some pc') : m ≠ n ∧ s.pcOf m = some pc' := by
  rw [hpc] at hm
  rcases eq_or_ne m n with rfl | hmn
  · rw [Function.update_self] at hm
    exact absurd (Option.some.inj hm) hne
  · rw [Function.update_of_ne hmn] at hm
    exact ⟨hmn, hm⟩

namespace ConnInv

theorem start : Server.start.ConnInv where
  table := TableInv.start
  own := by simp [Server.start, seat]
  pending := by simp [Server.start]
  holds := by simp [Server.start, pcOf]

/-- Without the mutex nobody writes. -/
theorem no_writer (h : s.ConnInv) (hmutex : s.mutex = none) (n : ℕ) (b : ℕ) (message : Message)
    (i : ℕ) (write : Write) : s.pcOf n ≠ some (.writing b message i write) := by
  intro hn
  rw [h.holds n b message i write hn] at hmutex
  cases hmutex

theorem writer_unique (h : s.ConnInv) {m b b' i i' : ℕ} {message message' : Message}
    {write write' : Write} (hm : s.pcOf m = some (.writing b message i write))
    (hn : s.pcOf n = some (.writing b' message' i' write')) : m = n :=
  Option.some.inj ((h.holds m _ _ _ _ hm).symm.trans (h.holds n _ _ _ _ hn))

/-- Two seats do not have the same descriptor. -/
theorem seat_fd_ne (h : s.ConnInv) {m i fd j fd'} (hn : s.seat n = some (i, fd))
    (hopen : s.pcOf n ≠ some .closed) (hm : s.seat m = some (j, fd')) (hne : m ≠ n) :
    fd' ≠ fd := by
  rintro rfl
  have hm' := h.own m j fd' hm
  rw [h.own n i fd' hn, if_neg hopen] at hm'
  split at hm'
  · cases hm'
  · exact hne (Option.some.inj hm').symm

/-- A thread goes on, and neither opens nor closes a descriptor. -/
theorem congr (h : s.ConnInv) (hsame : SameTable s s') (hconnection : s'.connection = s.connection)
    (hclosed : ∀ n, s'.pcOf n = some .closed ↔ s.pcOf n = some .closed)
    (hholds : ∀ n b message i write, s'.pcOf n = some (.writing b message i write) →
      s'.mutex = some n) : s'.ConnInv where
  table := h.table.congr hsame
  own := by
    intro n i fd hn
    rw [hsame.seat] at hn
    simpa only [hconnection, hclosed n] using h.own n i fd hn
  pending := by
    rw [hsame.pending, hconnection, hsame.clients]
    exact h.pending
  holds := hholds

theorem accept {fd : Option ℕ} (h : s.ConnInv) (hok : s.Proper (.accept fd))
    (haccept : s.accept fd = some s') : s'.ConnInv := by
  have htable := h.table.accept haccept
  obtain ⟨-, ⟨-, rfl⟩ | ⟨number, rfl, -, rfl⟩⟩ := accept_cases haccept
  · refine ⟨htable, h.own, ?_, h.holds⟩
    rintro fd n hpending hne
    rw [Option.some.injEq, Prod.mk.injEq] at hpending
    exact absurd hpending.1.symm hne
  · refine ⟨htable, ?_, ?_, h.holds⟩
    · intro n i fd hn
      obtain ⟨⟨k, rfl⟩, hfd, -⟩ := h.table.seated n i fd hn
      have hne : fd ≠ number := by
        rw [← hfd]
        exact hok k
      exact (Function.update_of_ne hne _ _).trans (h.own n _ fd hn)
    · intro fd n hpending _
      rw [Option.some.injEq, Prod.mk.injEq] at hpending
      obtain ⟨rfl, rfl⟩ := hpending
      exact ⟨Function.update_self .., hok⟩

theorem enroll (h : s.ConnInv) (hok : s.Admits .enroll) (henroll : s.enroll = some s') :
    s'.ConnInv := by
  have htable := h.table.enroll hok henroll
  obtain ⟨-, fd, m, hpending, ⟨hmany, -⟩ | ⟨-, rfl⟩⟩ := enroll_cases henroll
  · rw [h.table.count_eq] at hmany
    exact absurd hmany (not_lt.mpr (by exact_mod_cast card_taken_le))
  have hfd : fd ≠ -1 := by
    rintro rfl
    exact hok.2 (by rw [hpending, Option.map_some])
  refine ⟨htable, ?_, by simp, ?_⟩
  · intro n i fd' hn
    rcases eq_or_ne n m with rfl | hne
    · have hfd' : fd = fd' := by
        have hseat := (seat_of_threads (Function.update_self ..) (by simp)).symm.trans hn
        rw [Option.some.injEq, Prod.mk.injEq] at hseat
        exact hseat.2
      rw [← hfd']
      simpa [pcOf] using (h.pending fd n hpending hfd).1
    · have hold : s.seat n = some (i, fd') := by simpa [seat, hne] using hn
      simpa [pcOf, hne] using h.own n i fd' hold
  · intro n b message i write hn
    rcases eq_or_ne n m with rfl | hne
    · simp [pcOf] at hn
    · exact h.holds n b message i write (by simpa [pcOf, hne] using hn)

theorem close (h : s.ConnInv) (hclose : s.close n = some s') : s'.ConnInv := by
  have htable : s'.TableInv := h.table.step (e := .close n) trivial hclose
  obtain ⟨clientId, fd, hthread, rfl⟩ := close_cases hclose
  have hn : s.seat n = some (clientId, fd) := seat_of_threads hthread (by simp)
  have hopen : s.pcOf n ≠ some .closed := by simp [pcOf_of_threads hthread]
  obtain ⟨⟨k, hk⟩, hclients, -⟩ := h.table.seated n clientId fd hn
  rw [hclients] at htable ⊢
  have hpc : ((s.closeFd fd).setPc n .closed).pcOf = Function.update s.pcOf n (some .closed) :=
    pcOf_setPc (s := s.closeFd fd) hthread
  have hseat : ((s.closeFd fd).setPc n .closed).seat = s.seat :=
    seat_setPc (s := s.closeFd fd) hthread (by simp) (by simp)
  refine ⟨htable, ?_, ?_, ?_⟩
  · intro m i fd' hm
    rw [hseat] at hm
    rw [hpc]
    rcases eq_or_ne m n with rfl | hne
    · rw [hn, Option.some.injEq, Prod.mk.injEq] at hm
      rw [Function.update_self, if_pos rfl, ← hm.2]
      exact Function.update_self ..
    · rw [Function.update_of_ne hne, ← h.own m i fd' hm]
      exact Function.update_of_ne (h.seat_fd_ne hn hopen hm hne) _ _
  · intro fd' m hpending hne
    obtain ⟨hconnection, hnot⟩ := h.pending fd' m hpending hne
    have hfd : fd' ≠ fd := by
      rintro rfl
      rw [hk] at hclients
      exact hnot k hclients
    exact ⟨(Function.update_of_ne hfd _ _).trans hconnection, hnot⟩
  · intro m b message i write hm
    exact h.holds m b message i write (pcOf_of_update hpc Pc.noConfusion hm).2

theorem clear (h : s.ConnInv) (hclear : s.clear n = some s') : s'.ConnInv := by
  have htable := h.table.clear hclear
  obtain ⟨-, clientId, fd, hthread, rfl⟩ := clear_cases hclear
  refine ⟨htable, ?_, ?_, ?_⟩
  · intro m i fd' hm
    rcases eq_or_ne m n with rfl | hne
    · simp [seat, setPc, hthread] at hm
    · have hold : s.seat m = some (i, fd') := by simpa [seat, setPc, hne] using hm
      simpa [pcOf, setPc, hne] using h.own m i fd' hold
  · intro fd' m hpending hne
    obtain ⟨hconnection, hnot⟩ := h.pending fd' m hpending hne
    refine ⟨hconnection, fun k ↦ ?_⟩
    change Function.update s.clients clientId (-1) (slotIndex k) ≠ fd'
    by_cases hk : slotIndex k = clientId
    · rw [hk, Function.update_self]
      exact hne.symm
    · rw [Function.update_of_ne hk]
      exact hnot k
  · intro m b message i write hm
    rcases eq_or_ne m n with rfl | hne
    · simp [pcOf, setPc, hthread] at hm
    · exact h.holds m b message i write (by simpa [pcOf, setPc, hne] using hm)

/-- A thread goes on to a place that is not behind `close`. -/
theorem setPc (h : s.ConnInv) {t : Thread} {pc : Pc} (hthread : s.threads n = some t)
    (hold : t.pc ≠ .closed) (hpc : pc ≠ .closed) (hsame : SameTable s s')
    (hconnection : s'.connection = s.connection) (hthreads : s'.threads = (s.setPc n pc).threads)
    (hothers : ∀ m, m ≠ n → ∀ b message i write,
      s.pcOf m = some (.writing b message i write) → s'.mutex = some m)
    (hself : ∀ b message i write, pc = .writing b message i write → s'.mutex = some n) :
    s'.ConnInv := by
  have hpcOf : s'.pcOf = Function.update s.pcOf n (some pc) := by
    rw [← pcOf_setPc hthread]
    funext m
    rw [pcOf, pcOf, hthreads]
  refine h.congr hsame hconnection (fun m ↦ ?_) fun m b message i write hm ↦ ?_
  · rcases eq_or_ne m n with rfl | hne
    · simp [hpcOf, pcOf_of_threads hthread, hold, hpc]
    · simp [hpcOf, hne]
  · rcases eq_or_ne m n with rfl | hne
    · rw [hpcOf, Function.update_self, Option.some.injEq] at hm
      exact hself b message i write hm
    · rw [hpcOf, Function.update_of_ne hne] at hm
      exact hothers m hne b message i write hm

theorem step {e : Event} (h : s.ConnInv) (hok : s.Proper e) (hstep : s.step e = some s') :
    s'.ConnInv := by
  have hsame := sameTable_of_step hstep
  cases e with
  | accept fd => exact h.accept hok hstep
  | enroll => exact h.enroll hok hstep
  | close n => exact h.close hstep
  | clear n => exact h.clear hstep
  | receive n message size =>
      replace hsame := hsame.resolve_right (by simp)
      obtain ⟨clientId, fd, hthread, -, -, rfl⟩ := receive_cases hstep
      exact h.setPc hthread (by simp) (by simp) hsame rfl rfl
        (fun m _ ↦ h.holds m) (by simp)
  | leave n =>
      replace hsame := hsame.resolve_right (by simp)
      obtain ⟨clientId, fd, hthread, rfl⟩ := leave_cases hstep
      exact h.setPc hthread (by simp) (by simp) hsame rfl rfl (fun m _ ↦ h.holds m) (by simp)
  | lock n =>
      replace hsame := hsame.resolve_right (by simp)
      obtain ⟨hmutex, clientId, fd, message, hthread, rfl⟩ := lock_cases hstep
      refine h.setPc hthread (by simp) (by simp) hsame rfl rfl ?_ (fun _ _ _ _ _ ↦ rfl)
      exact fun m _ b message' i write hm ↦ absurd hm (h.no_writer hmutex m b message' i write)
  | advance n =>
      replace hsame := hsame.resolve_right (by simp)
      obtain ⟨clientId, fd, b, message, i, hthread, hcases⟩ := advance_cases hstep
      have hn := pcOf_of_threads hthread
      rcases hcases with ⟨-, -, rfl⟩ | ⟨-, -, rfl⟩ | ⟨-, rfl⟩
      · exact h.setPc hthread (by simp) (by simp) hsame rfl rfl (fun m _ ↦ h.holds m)
          fun _ _ _ _ _ ↦ h.holds n _ _ _ _ hn
      · exact h.setPc hthread (by simp) (by simp) hsame rfl rfl (fun m _ ↦ h.holds m)
          fun _ _ _ _ _ ↦ h.holds n _ _ _ _ hn
      · exact h.setPc hthread (by simp) (by simp) hsame rfl rfl
          (fun m hne _ _ _ _ hm ↦ absurd (h.writer_unique hm hn) hne) (by simp)
  | write n reply =>
      replace hsame := hsame.resolve_right (by simp)
      obtain ⟨clientId, fd, b, message, i, out, left, ⟨hthread, rfl⟩ | ⟨hthread, rfl⟩⟩ :=
        write_cases hstep
      all_goals
        obtain ⟨wire, hwire⟩ := s.writeCall_snd b out left reply
        rw [hwire] at hsame ⊢
        refine h.setPc hthread (by simp) ?_ hsame rfl rfl (fun m _ ↦ h.holds m)
          fun _ _ _ _ _ ↦ h.holds n b message i _ (pcOf_of_threads hthread)
      · unfold afterHeader
        split <;> exact Pc.noConfusion
      · unfold afterBody
        split <;> exact Pc.noConfusion

end ConnInv

/-! ## Wires -/

/-- What holds of the broadcast that is under way.  `log` names the frames that are complete. -/
structure Writes (s : Server) (log : ℕ → List ℕ) (b : ℕ) (message : Message) (i : ℕ)
    (write : Write) : Prop where
  begun : ∃ accepted, s.broadcasts[b]? = some (message, accepted) ∧
    ∀ c, s.seat c ≠ none → c < accepted
  inSlot : write.InSlot i (s.clients i)
  notYet : ∀ c k fd, s.seat c = some (slotIndex k, fd) → i ≤ k → b ∉ log c
  current : ∀ c fd, s.seat c = some ((i : ℤ), fd) → ∃ done, done ++ write.rest message =
    frame message ∧ s.wire c = whole s.broadcasts (log c) ++ tag b done

structure WireInv (s : Server) (log : ℕ → List ℕ) : Prop where
  handing : ∀ n message, s.pcOf n = some (.handing message) → message ∈ s.sent
  sent : ∀ p ∈ s.broadcasts, p.1 ∈ s.sent
  nodup : ∀ c, (log c).Nodup
  logged : ∀ c, ∀ b ∈ log c, ∃ p, s.broadcasts[b]? = some p ∧ c < p.2
  writer : ∀ n b message i write, s.pcOf n = some (.writing b message i write) →
    s.Writes log b message i write
  idle : ∀ c, (∀ n b message i write fd, s.pcOf n = some (.writing b message i write) →
    s.seat c ≠ some ((i : ℤ), fd)) → s.wire c = whole s.broadcasts (log c)

theorem messageOf_eq {broadcasts : List (Message × ℕ)} {b accepted : ℕ} {message : Message}
    (h : broadcasts[b]? = some (message, accepted)) : messageOf broadcasts b = message := by
  rw [messageOf, h, Option.map_some, Option.getD_some]

theorem whole_snoc (broadcasts : List (Message × ℕ)) (log : List ℕ) (b : ℕ) :
    whole broadcasts (log ++ [b]) =
      whole broadcasts log ++ tag b (frame (messageOf broadcasts b)) := by
  simp [whole]

/-- Later broadcasts do not change the frames of earlier ones. -/
theorem whole_append {broadcasts : List (Message × ℕ)} {log : List ℕ}
    (h : ∀ b ∈ log, b < broadcasts.length) (more : List (Message × ℕ)) :
    whole (broadcasts ++ more) log = whole broadcasts log := by
  induction log with
  | nil => simp [whole]
  | cons b log ih =>
      obtain ⟨hb, hlog⟩ := List.forall_mem_cons.mp h
      have hsame : messageOf (broadcasts ++ more) b = messageOf broadcasts b := by
        rw [messageOf, messageOf, List.getElem?_append_left hb]
      have hrest := ih hlog
      rw [whole] at hrest ⊢
      rw [List.flatMap_cons, hsame, hrest, whole, whole, List.flatMap_cons]

namespace WireInv

variable {log : ℕ → List ℕ}

theorem start : Server.start.WireInv fun _ ↦ [] := by
  constructor <;> simp [Server.start, pcOf, whole]

theorem lt_length (h : s.WireInv log) {c b : ℕ} (hb : b ∈ log c) : b < s.broadcasts.length := by
  obtain ⟨p, hp, -⟩ := h.logged c b hb
  exact (List.getElem?_eq_some_iff.mp hp).1

/-- What the wires promise to an observer. -/
theorem deliversOnce (h : s.WireInv log) (hconn : s.ConnInv) : s.DeliversOnce := by
  have haddressed : ∀ c, ∀ b ∈ log c, s.Addressed b c := by
    intro c b hb
    obtain ⟨⟨message, accepted⟩, hp, hlt⟩ := h.logged c b hb
    exact ⟨message, accepted, hp, h.sent _ (List.mem_of_getElem? hp), hlt⟩
  intro c
  by_cases hwriter : ∃ n b message i write fd,
      s.pcOf n = some (.writing b message i write) ∧ s.seat c = some ((i : ℤ), fd)
  · obtain ⟨n, b, message, i, write, fd, hn, hseat⟩ := hwriter
    have hwrites := h.writer n b message i write hn
    obtain ⟨accepted, hb, hlt⟩ := hwrites.begun
    obtain ⟨done, hframe, hwire⟩ := hwrites.current c fd hseat
    obtain ⟨⟨k, hk⟩, -, -⟩ := hconn.table.seated c _ fd hseat
    have hik : i = k := by simpa [slotIndex] using hk
    have hnot : b ∉ log c := hwrites.notYet c k fd (by rw [hseat, hk]) hik.le
    refine ⟨log c, tag b done, hwire, h.nodup c, haddressed c, Or.inr ?_⟩
    refine ⟨n, b, message, i, write, tag b (write.rest message), hconn.holds n _ _ _ _ hn, hn,
      messageOf_eq hb, hnot, ?_, ?_⟩
    · exact ⟨message, accepted, hb, h.sent _ (List.mem_of_getElem? hb), hlt c (by simp [hseat])⟩
    · rw [← tag_append, hframe]
  · refine ⟨log c, [], ?_, h.nodup c, haddressed c, Or.inl rfl⟩
    rw [List.append_nil]
    refine h.idle c fun n b message i write fd hn hseat ↦ hwriter ?_
    exact ⟨n, b, message, i, write, fd, hn, hseat⟩

/-- Nothing is written by a step of another thread. -/
theorem congr (h : s.WireInv log) (hseat : s'.seat = s.seat) (hclients : s'.clients = s.clients)
    (hwire : s'.wire = s.wire) (hbroadcasts : s'.broadcasts = s.broadcasts)
    (hsent : ∀ message ∈ s.sent, message ∈ s'.sent)
    (hhanding : ∀ n message, s'.pcOf n = some (.handing message) → message ∈ s'.sent)
    (hwriting : ∀ n b message i write, s'.pcOf n = some (.writing b message i write) ↔
      s.pcOf n = some (.writing b message i write)) : s'.WireInv log := by
  refine ⟨hhanding, ?_, h.nodup, ?_, ?_, ?_⟩
  · rw [hbroadcasts]
    exact fun p hp ↦ hsent _ (h.sent p hp)
  · rw [hbroadcasts]
    exact h.logged
  · intro n b message i write hn
    obtain ⟨hbegun, hslot, hnotYet, hcurrent⟩ := h.writer n b message i write
      ((hwriting ..).mp hn)
    refine ⟨?_, ?_, ?_, ?_⟩
    · rwa [hbroadcasts, hseat]
    · rwa [hclients]
    · rwa [hseat]
    · rwa [hseat, hwire, hbroadcasts]
  · intro c hc
    rw [hwire, hbroadcasts]
    rw [hseat] at hc
    exact h.idle c fun n b message i write fd hn ↦ hc n b message i write fd ((hwriting ..).mpr hn)

/-- Without a writer the table does not matter. -/
theorem congr_of_mutex (h : s.WireInv log) (hconn : s.ConnInv) (hmutex : s.mutex = none)
    (hwire : s'.wire = s.wire) (hbroadcasts : s'.broadcasts = s.broadcasts)
    (hsent : s'.sent = s.sent)
    (hhanding : ∀ n message, s'.pcOf n = some (.handing message) →
      s.pcOf n = some (.handing message))
    (hwriting : ∀ n b message i write, s'.pcOf n = some (.writing b message i write) →
      s.pcOf n = some (.writing b message i write)) : s'.WireInv log := by
  have hnone := hconn.no_writer hmutex
  refine ⟨?_, ?_, h.nodup, ?_, ?_, ?_⟩
  · rw [hsent]
    exact fun n message hn ↦ h.handing n message (hhanding n message hn)
  · rw [hbroadcasts, hsent]
    exact h.sent
  · rw [hbroadcasts]
    exact h.logged
  · exact fun n b message i write hn ↦ (hnone _ _ _ _ _ (hwriting n b message i write hn)).elim
  · intro c _
    rw [hwire, hbroadcasts]
    exact h.idle c fun n b message i write fd hn ↦ (hnone _ _ _ _ _ hn).elim

/-! ### The writer -/

variable {t : Thread} {b i : ℕ} {message : Message} {write : Write}

theorem idle_of_writer (h : s.WireInv log) (hconn : s.ConnInv)
    (hn : s.pcOf n = some (.writing b message i write)) {c : ℕ}
    (hc : ∀ fd, s.seat c ≠ some ((i : ℤ), fd)) : s.wire c = whole s.broadcasts (log c) := by
  refine h.idle c fun m b' message' i' write' fd hm ↦ ?_
  obtain rfl := hconn.writer_unique hm hn
  rw [hn, Option.some.injEq, Pc.writing.injEq] at hm
  obtain ⟨-, -, rfl, -⟩ := hm
  exact hc fd

/-- The writer goes on with its broadcast. -/
theorem writes (h : s.WireInv log) (hconn : s.ConnInv)
    (hn : s.pcOf n = some (.writing b message i write)) {log' : ℕ → List ℕ} {i' : ℕ}
    {write' : Write} (hpc : s'.pcOf = Function.update s.pcOf n (some (.writing b message i' write')))
    (hseat : s'.seat = s.seat) (hbroadcasts : s'.broadcasts = s.broadcasts)
    (hsent : s'.sent = s.sent) (hnodup : ∀ c, (log' c).Nodup)
    (hlogged : ∀ c, ∀ b ∈ log' c, ∃ p, s.broadcasts[b]? = some p ∧ c < p.2)
    (hwrites : s'.Writes log' b message i' write')
    (hidle : ∀ c, (∀ fd, s.seat c ≠ some ((i' : ℤ), fd)) →
      s'.wire c = whole s.broadcasts (log' c)) : s'.WireInv log' := by
  have hself : s'.pcOf n = some (.writing b message i' write') := by
    rw [hpc, Function.update_self]
  refine ⟨?_, ?_, hnodup, ?_, ?_, ?_⟩
  · intro m message' hm
    rw [hsent]
    exact h.handing m message' (pcOf_of_update hpc Pc.noConfusion hm).2
  · rw [hbroadcasts, hsent]
    exact h.sent
  · rwa [hbroadcasts]
  · intro m b' message' i'' write'' hm
    rcases eq_or_ne m n with rfl | hne
    · rw [hself, Option.some.injEq, Pc.writing.injEq] at hm
      obtain ⟨rfl, rfl, rfl, rfl⟩ := hm
      exact hwrites
    · rw [hpc, Function.update_of_ne hne] at hm
      exact absurd (hconn.writer_unique hm hn) hne
  · intro c hc
    rw [hbroadcasts]
    rw [hseat] at hc
    exact hidle c fun fd ↦ hc n b message i' write' fd hself

/-- Another place with the same bytes left. -/
theorem setWrite (h : s.WireInv log) (hconn : s.ConnInv) (hthread : s.threads n = some t)
    (hpc : t.pc = .writing b message i write) {write' : Write}
    (hrest : write'.rest message = write.rest message)
    (hslot : write'.InSlot i (s.clients i)) :
    (s.setPc n (.writing b message i write')).WireInv log := by
  have hn : s.pcOf n = some (.writing b message i write) := by rw [pcOf_of_threads hthread, hpc]
  obtain ⟨hbegun, -, hnotYet, hcurrent⟩ := h.writer n b message i write hn
  have hseat : (s.setPc n (.writing b message i write')).seat = s.seat :=
    seat_setPc hthread (by simp [hpc]) (by simp)
  refine h.writes hconn hn (pcOf_setPc hthread) hseat rfl rfl h.nodup h.logged ?_
    fun c hc ↦ h.idle_of_writer hconn hn hc
  refine ⟨?_, hslot, ?_, ?_⟩
  · rwa [hseat]
  · rwa [hseat]
  · rw [hseat, hrest]
    exact hcurrent

/-- A piece of the frame is written to the connection of the slot. -/
theorem wrote (h : s.WireInv log) (hconn : s.ConnInv) (hthread : s.threads n = some t)
    (hpc : t.pc = .writing b message i write) {c : ℕ} {fd : ℤ}
    (hc : s.seat c = some ((i : ℤ), fd)) {piece : List Byte} {write' : Write}
    (hrest : write.rest message = piece ++ write'.rest message)
    (hslot : write'.InSlot i (s.clients i)) :
    (({ s with wire := Function.update s.wire c (s.wire c ++ tag b piece) } : Server).setPc n
      (.writing b message i write')).WireInv log := by
  have hn : s.pcOf n = some (.writing b message i write) := by rw [pcOf_of_threads hthread, hpc]
  obtain ⟨hbegun, -, hnotYet, hcurrent⟩ := h.writer n b message i write hn
  set s₁ : Server := { s with wire := Function.update s.wire c (s.wire c ++ tag b piece) } with hs₁
  have hseat : (s₁.setPc n (.writing b message i write')).seat = s.seat :=
    seat_setPc (s := s₁) hthread (by simp [hpc]) (by simp)
  refine h.writes hconn hn (pcOf_setPc (s := s₁) hthread) hseat rfl rfl h.nodup h.logged ?_ ?_
  · refine ⟨?_, hslot, ?_, ?_⟩
    · rwa [hseat]
    · rwa [hseat]
    · intro c' fd' hc'
      rw [hseat] at hc'
      obtain rfl := hconn.table.unique c' c _ _ _ hc' hc
      obtain ⟨done, hframe, hwire⟩ := hcurrent c' fd hc
      refine ⟨done ++ piece, ?_, ?_⟩
      · rw [List.append_assoc, ← hrest, hframe]
      · change Function.update s.wire c' (s.wire c' ++ tag b piece) c' = _
        rw [Function.update_self, hwire, tag_append, List.append_assoc]
        rfl
  · intro c' hc'
    have hne : c' ≠ c := by
      rintro rfl
      exact hc' fd hc
    exact (Function.update_of_ne hne _ _).trans (h.idle_of_writer hconn hn hc')

/-- The loop goes to the next slot, and nothing has been written to this one. -/
theorem next_skipped (h : s.WireInv log) (hconn : s.ConnInv) (hthread : s.threads n = some t)
    (hpc : t.pc = .writing b message i write)
    (hskip : ∀ c fd, s.seat c = some ((i : ℤ), fd) → write.rest message = frame message) :
    (s.setPc n (.writing b message (i + 1) .slot)).WireInv log := by
  have hn : s.pcOf n = some (.writing b message i write) := by rw [pcOf_of_threads hthread, hpc]
  obtain ⟨hbegun, -, hnotYet, hcurrent⟩ := h.writer n b message i write hn
  have hseat : (s.setPc n (.writing b message (i + 1) .slot)).seat = s.seat :=
    seat_setPc hthread (by simp [hpc]) (by simp)
  have hwire (c : ℕ) : s.wire c = whole s.broadcasts (log c) := by
    by_cases hc : ∃ fd, s.seat c = some ((i : ℤ), fd)
    · obtain ⟨fd, hc⟩ := hc
      obtain ⟨done, hframe, hwire⟩ := hcurrent c fd hc
      rw [hskip c fd hc, List.append_left_eq_self] at hframe
      rw [hwire, hframe, tag_nil, List.append_nil]
    · exact h.idle_of_writer hconn hn fun fd hfd ↦ hc ⟨fd, hfd⟩
  refine h.writes hconn hn (pcOf_setPc hthread) hseat rfl rfl h.nodup h.logged ?_
    fun c _ ↦ hwire c
  refine ⟨by rwa [hseat], trivial, ?_, ?_⟩
  · intro c k fd hc hk
    rw [hseat] at hc
    exact hnotYet c k fd hc (Nat.le_of_succ_le hk)
  · intro c fd _
    refine ⟨[], rfl, ?_⟩
    rw [tag_nil, List.append_nil]
    exact hwire c

/-- The loop goes to the next slot, and the frame is complete on this one. -/
theorem next_written (h : s.WireInv log) (hconn : s.ConnInv) (hthread : s.threads n = some t)
    (hpc : t.pc = .writing b message i write) (hrest : write.rest message = []) {c : ℕ} {fd : ℤ}
    (hc : s.seat c = some ((i : ℤ), fd)) :
    (s.setPc n (.writing b message (i + 1) .slot)).WireInv
      (Function.update log c (log c ++ [b])) := by
  have hn : s.pcOf n = some (.writing b message i write) := by rw [pcOf_of_threads hthread, hpc]
  obtain ⟨hbegun, -, hnotYet, hcurrent⟩ := h.writer n b message i write hn
  obtain ⟨accepted, hb, hlt⟩ := hbegun
  have hseat : (s.setPc n (.writing b message (i + 1) .slot)).seat = s.seat :=
    seat_setPc hthread (by simp [hpc]) (by simp)
  obtain ⟨⟨k, hk⟩, -, -⟩ := hconn.table.seated c _ fd hc
  have hik : i = k := by simpa [slotIndex] using hk
  have hnot : b ∉ log c := hnotYet c k fd (by rw [hc, hk]) hik.le
  have hwire (c' : ℕ) : s.wire c' = whole s.broadcasts (Function.update log c (log c ++ [b]) c') := by
    rcases eq_or_ne c' c with rfl | hne
    · obtain ⟨done, hframe, hwire⟩ := hcurrent c' fd hc
      rw [hrest, List.append_nil] at hframe
      rw [Function.update_self, whole_snoc, messageOf_eq hb, hwire, hframe]
    · rw [Function.update_of_ne hne]
      refine h.idle_of_writer hconn hn fun fd' hc' ↦ hne ?_
      exact hconn.table.unique c' c _ _ _ hc' hc
  refine h.writes hconn hn (pcOf_setPc hthread) hseat rfl rfl ?_ ?_ ?_ fun c' _ ↦ hwire c'
  · intro c'
    rcases eq_or_ne c' c with rfl | hne
    · rw [Function.update_self]
      exact List.nodup_append_comm.mp (List.nodup_cons.mpr ⟨hnot, h.nodup c'⟩)
    · rw [Function.update_of_ne hne]
      exact h.nodup c'
  · intro c' b' hb'
    rcases eq_or_ne c' c with rfl | hne
    · rw [Function.update_self] at hb'
      rcases List.mem_append.mp hb' with hb' | hb'
      · exact h.logged c' b' hb'
      · obtain rfl := List.mem_singleton.mp hb'
        exact ⟨_, hb, hlt c' (by simp [hc])⟩
    · rw [Function.update_of_ne hne] at hb'
      exact h.logged c' b' hb'
  · refine ⟨?_, trivial, ?_, ?_⟩
    · rw [hseat]
      exact ⟨accepted, hb, hlt⟩
    · intro c' k' fd' hc' hk'
      rw [hseat] at hc'
      have hne : c' ≠ c := by
        rintro rfl
        rw [hc, Option.some.injEq, Prod.mk.injEq] at hc'
        have : i = k' := by simpa [slotIndex] using hc'.1
        omega
      rw [Function.update_of_ne hne]
      exact hnotYet c' k' fd' hc' (Nat.le_of_succ_le hk')
    · intro c' fd' _
      refine ⟨[], rfl, ?_⟩
      rw [tag_nil, List.append_nil]
      exact hwire c'

/-! ### Steps -/

theorem setPc_setPc (pc pc' : Pc) : (s.setPc n pc).setPc n pc' = s.setPc n pc' := by
  simp [setPc, Function.comp_def]

theorem writeCall_cases (b : ℕ) (fd : ℤ) (left : List Byte) (reply : Reply) :
    s.writeCall b fd left reply = (some left, s) ∨
      s.WriteFails fd reply ∧ s.writeCall b fd left reply = (none, s) ∨
      ∃ c piece left', s.connection fd = some c ∧ left = piece ++ left' ∧
        s.writeCall b fd left reply =
          (some left', { s with wire := Function.update s.wire c (s.wire c ++ tag b piece) }) := by
  cases reply with
  | interrupted => exact Or.inl rfl
  | failed => exact Or.inr (Or.inl ⟨trivial, rfl⟩)
  | upTo more =>
      rw [writeCall]
      cases hconnection : s.connection fd with
      | none => exact Or.inr (Or.inl ⟨hconnection, rfl⟩)
      | some c =>
          refine Or.inr (Or.inr ⟨c, left.take (more + 1), left.drop (more + 1), rfl, ?_, rfl⟩)
          rw [List.take_append_drop]

/-- The descriptor of a slot that is written to designates the connection of the slot. -/
theorem owner (hconn : s.ConnInv) (hi : i < MAX_CLIENTS) (hne : s.clients i ≠ -1)
    {c : ℕ} (hc : s.connection (s.clients i) = some c) : s.seat c = some ((i : ℤ), s.clients i) := by
  obtain ⟨n, fd, hn⟩ := hconn.table.owned ⟨i, hi⟩ (mem_taken.mpr hne)
  obtain ⟨-, hfd, -⟩ := hconn.table.seated n _ fd hn
  change s.clients i = fd at hfd
  have hown := hconn.own n _ fd hn
  rw [← hfd, hc] at hown
  split at hown
  · cases hown
  · obtain rfl := Option.some.inj hown
    rw [hn, hfd]
    rfl

theorem step_lock (h : s.WireInv log) (hconn : s.ConnInv) (hlock : s.lock n = some s') :
    s'.WireInv log := by
  obtain ⟨hmutex, clientId, fd, message, hthread, rfl⟩ := lock_cases hlock
  have hnone := hconn.no_writer hmutex
  set s' : Server := { s.setPc n (.writing s.broadcasts.length message 0 .slot) with
    mutex := some n
    broadcasts := s.broadcasts ++ [(message, s.accepted)] } with hs'
  have hpc : s'.pcOf = Function.update s.pcOf n
      (some (.writing s.broadcasts.length message 0 .slot)) := pcOf_setPc hthread
  have hseat : s'.seat = s.seat := seat_setPc hthread (by simp) (by simp)
  have hwire (c : ℕ) : s'.wire c = whole s'.broadcasts (log c) := by
    rw [hs', whole_append fun b hb ↦ h.lt_length hb]
    exact h.idle c fun m b message i write fd hm ↦ (hnone _ _ _ _ _ hm).elim
  refine ⟨?_, ?_, h.nodup, ?_, ?_, fun c _ ↦ hwire c⟩
  · exact fun m message' hm ↦ h.handing m message' (pcOf_of_update hpc Pc.noConfusion hm).2
  · intro p hp
    rcases List.mem_append.mp hp with hp | hp
    · exact h.sent p hp
    · obtain rfl := List.mem_singleton.mp hp
      exact h.handing n message (pcOf_of_threads hthread)
  · intro c b hb
    obtain ⟨p, hp, hlt⟩ := h.logged c b hb
    exact ⟨p, by rw [List.getElem?_append_left (h.lt_length hb), hp], hlt⟩
  · intro m b message' i write hm
    rcases eq_or_ne m n with rfl | hne
    · rw [hpc, Function.update_self, Option.some.injEq, Pc.writing.injEq] at hm
      obtain ⟨rfl, rfl, rfl, rfl⟩ := hm
      refine ⟨⟨s.accepted, List.getElem?_concat_length, ?_⟩, trivial, ?_, ?_⟩
      · rw [hseat]
        exact fun c hc ↦ (hconn.table.fresh c hc).1
      · exact fun c _ _ _ _ hmem ↦ absurd (h.lt_length hmem) (lt_irrefl _)
      · intro c fd _
        exact ⟨[], rfl, by rw [tag_nil, List.append_nil, hwire c]⟩
    · rw [hpc, Function.update_of_ne hne] at hm
      exact (hnone _ _ _ _ _ hm).elim

theorem step_advance (h : s.WireInv log) (hconn : s.ConnInv)
    (hadvance : s.advance n = some s') : s'.WireInv log := by
  obtain ⟨clientId, fd, b, message, i, hthread, hcases⟩ := advance_cases hadvance
  have hn := pcOf_of_threads hthread
  rcases hcases with ⟨hi, hne, rfl⟩ | ⟨hi, hfree, rfl⟩ | ⟨hi, rfl⟩
  · exact h.setWrite hconn hthread rfl rfl ⟨hi, rfl, hne⟩
  · refine h.next_skipped hconn hthread rfl fun c fd hc ↦ ?_
    obtain ⟨-, hfd, hne⟩ := hconn.table.seated c _ fd hc
    exact absurd (hfd.symm.trans hfree) hne
  · have hpc : ({ s.setPc n .reading with mutex := none } : Server).pcOf =
        Function.update s.pcOf n (some .reading) := pcOf_setPc hthread
    have hnone : ∀ m b message i write,
        ({ s.setPc n .reading with mutex := none } : Server).pcOf m ≠
          some (.writing b message i write) := by
      intro m b' message' i' write' hm
      obtain ⟨hne, hm⟩ := pcOf_of_update hpc Pc.noConfusion hm
      exact hne (hconn.writer_unique hm hn)
    refine ⟨?_, h.sent, h.nodup, h.logged, ?_, ?_⟩
    · exact fun m message' hm ↦ h.handing m message' (pcOf_of_update hpc Pc.noConfusion hm).2
    · exact fun m b message i write hm ↦ (hnone _ _ _ _ _ hm).elim
    · -- no slot has this index
      refine fun c _ ↦ h.idle_of_writer hconn hn fun fd hc ↦ ?_
      obtain ⟨⟨k, hk⟩, -, -⟩ := hconn.table.seated c _ fd hc
      have hik : i = k := by simpa [slotIndex] using hk
      have hlt := k.isLt
      omega

theorem step_write {reply : Reply} (h : s.WireInv log) (hconn : s.ConnInv)
    (hok : s.Proper (.write n reply)) (hwrite : s.write n reply = some s') :
    ∃ log', s'.WireInv log' := by
  obtain ⟨clientId, fd, b, message, i, out, left, ⟨hthread, rfl⟩ | ⟨hthread, rfl⟩⟩ :=
    write_cases hwrite
  · have hn := pcOf_of_threads hthread
    obtain ⟨hi, rfl, hne⟩ := (h.writer n b message i _ hn).inSlot
    rcases writeCall_cases b (s.clients i) left reply with hcall | ⟨hfails, hcall⟩ |
      ⟨c, piece, left', hc, rfl, hcall⟩ <;> rw [hcall]
    · refine ⟨log, ?_⟩
      cases left with
      | nil => exact h.setWrite hconn hthread rfl rfl ⟨hi, rfl, hne⟩
      | cons byte left => exact h.setWrite hconn hthread rfl rfl ⟨hi, rfl, hne⟩
    · change s.FailsFirst reply (s.pcOf n) at hok
      rw [hn] at hok
      exact ⟨log, h.next_skipped hconn hthread rfl fun _ _ _ ↦ by rw [hok hfails]; rfl⟩
    · refine ⟨log, ?_⟩
      have howner := owner hconn hi hne hc
      cases left' with
      | nil => exact h.wrote hconn hthread rfl howner (by simp [Write.rest]) ⟨hi, rfl, hne⟩
      | cons byte left' =>
          exact h.wrote hconn hthread rfl howner (by simp [Write.rest]) ⟨hi, rfl, hne⟩
  · have hn := pcOf_of_threads hthread
    obtain ⟨hi, rfl, hne⟩ := (h.writer n b message i _ hn).inSlot
    rcases writeCall_cases b (s.clients i) left reply with hcall | ⟨hfails, hcall⟩ |
      ⟨c, piece, left', hc, rfl, hcall⟩ <;> rw [hcall]
    · cases left with
      | nil =>
          obtain ⟨c, fd', hc⟩ := hconn.table.owned ⟨i, hi⟩ (mem_taken.mpr hne)
          exact ⟨_, h.next_written hconn hthread rfl rfl hc⟩
      | cons byte left => exact ⟨log, h.setWrite hconn hthread rfl rfl ⟨hi, rfl, hne⟩⟩
    · change s.FailsFirst reply (s.pcOf n) at hok
      rw [hn] at hok
      exact absurd hfails hok
    · have howner := owner hconn hi hne hc
      cases left' with
      | nil =>
          -- the last piece is written, and then the loop goes on
          have hrest : (Write.body (s.clients i) (piece ++ [])).rest message =
              piece ++ (Write.body (s.clients i) []).rest message := by simp [Write.rest]
          have hlast := h.wrote hconn hthread rfl howner hrest ⟨hi, rfl, hne⟩
          set s₁ : Server := { s with wire := Function.update s.wire c (s.wire c ++ tag b piece) }
          have hseat : (s₁.setPc n (.writing b message i (.body (s.clients i) []))).seat = s.seat :=
            seat_setPc (s := s₁) hthread (by simp) (by simp)
          have hconn' : (s₁.setPc n (.writing b message i (.body (s.clients i) []))).ConnInv :=
            hconn.setPc hthread (by simp) (by simp) ⟨rfl, rfl, rfl, hseat, rfl, rfl⟩ rfl rfl
              (fun m _ ↦ hconn.holds m) fun _ _ _ _ _ ↦ hconn.holds n _ _ _ _ hn
          have hthread' : (s₁.setPc n (.writing b message i (.body (s.clients i) []))).threads n =
              some ⟨clientId, fd, .writing b message i (.body (s.clients i) [])⟩ := by
            simp [setPc, s₁, hthread]
          have hnext := hlast.next_written hconn' hthread' rfl rfl (by rw [hseat]; exact howner)
          rw [setPc_setPc] at hnext
          exact ⟨_, hnext⟩
      | cons byte left' =>
          exact ⟨log, h.wrote hconn hthread rfl howner (by simp [Write.rest]) ⟨hi, rfl, hne⟩⟩

/-- Another thread goes on. -/
theorem congr_setPc (h : s.WireInv log) {pc : Pc} (hthread : s.threads n = some t)
    (hold : ∀ b message i write, t.pc ≠ .writing b message i write)
    (hpc : ∀ b message i write, pc ≠ .writing b message i write)
    (hpcOf : s'.pcOf = Function.update s.pcOf n (some pc)) (hseat : s'.seat = s.seat)
    (hclients : s'.clients = s.clients) (hwire : s'.wire = s.wire)
    (hbroadcasts : s'.broadcasts = s.broadcasts) (hsent : ∀ message ∈ s.sent, message ∈ s'.sent)
    (hhanding : ∀ message, pc = .handing message → message ∈ s'.sent) : s'.WireInv log := by
  refine h.congr hseat hclients hwire hbroadcasts hsent ?_ ?_
  · intro m message hm
    rcases eq_or_ne m n with rfl | hne
    · rw [hpcOf, Function.update_self, Option.some.injEq] at hm
      exact hhanding message hm
    · rw [hpcOf, Function.update_of_ne hne] at hm
      exact hsent message (h.handing m message hm)
  · intro m b message i write
    rcases eq_or_ne m n with rfl | hne
    · simp [hpcOf, pcOf_of_threads hthread, hold, hpc]
    · simp [hpcOf, hne]

theorem step {e : Event} (h : s.WireInv log) (hconn : s.ConnInv) (hok : s.Proper e)
    (hstep : s.step e = some s') : ∃ log', s'.WireInv log' := by
  cases e with
  | lock n => exact ⟨log, h.step_lock hconn hstep⟩
  | advance n => exact ⟨log, h.step_advance hconn hstep⟩
  | write n reply => exact h.step_write hconn hok hstep
  | accept fd =>
      obtain ⟨-, ⟨-, rfl⟩ | ⟨number, -, -, rfl⟩⟩ := accept_cases hstep
      · exact ⟨log, h.congr rfl rfl rfl rfl (fun _ hm ↦ hm) h.handing fun _ _ _ _ _ ↦ Iff.rfl⟩
      · exact ⟨log, h.congr rfl rfl rfl rfl (fun _ hm ↦ hm) h.handing fun _ _ _ _ _ ↦ Iff.rfl⟩
  | enroll =>
      obtain ⟨hmutex, fd, m, -, ⟨-, rfl⟩ | ⟨-, rfl⟩⟩ := enroll_cases hstep
      · exact ⟨log, h.congr rfl rfl rfl rfl (fun _ hm ↦ hm) h.handing fun _ _ _ _ _ ↦ Iff.rfl⟩
      · refine ⟨log, h.congr_of_mutex hconn hmutex rfl rfl rfl ?_ ?_⟩
        · intro n message hn
          rcases eq_or_ne n m with rfl | hne
          · simp [pcOf] at hn
          · simpa [pcOf, hne] using hn
        · intro n b message i write hn
          rcases eq_or_ne n m with rfl | hne
          · simp [pcOf] at hn
          · simpa [pcOf, hne] using hn
  | clear n =>
      obtain ⟨hmutex, clientId, fd, hthread, rfl⟩ := clear_cases hstep
      refine ⟨log, h.congr_of_mutex hconn hmutex rfl rfl rfl ?_ ?_⟩
      · intro m message hm
        rcases eq_or_ne m n with rfl | hne
        · simp [pcOf, setPc, hthread] at hm
        · simpa [pcOf, setPc, hne] using hm
      · intro m b message i write hm
        rcases eq_or_ne m n with rfl | hne
        · simp [pcOf, setPc, hthread] at hm
        · simpa [pcOf, setPc, hne] using hm
  | receive n message size =>
      obtain ⟨clientId, fd, hthread, -, -, rfl⟩ := receive_cases hstep
      have hseat : (s.setPc n (.handing (message.take size))).seat = s.seat :=
        seat_setPc hthread (by simp) (by simp)
      refine ⟨log, h.congr_setPc hthread (by simp) (by simp) (pcOf_setPc hthread) hseat rfl rfl rfl
        (fun _ hm ↦ List.mem_cons_of_mem _ hm) fun message' hm ↦ ?_⟩
      rw [Pc.handing.injEq] at hm
      -- the whole message has been read
      have hsize : size = message.length := hok
      rw [← hm, hsize, List.take_length]
      exact List.mem_cons_self
  | leave n =>
      obtain ⟨clientId, fd, hthread, rfl⟩ := leave_cases hstep
      exact ⟨log, h.congr_setPc hthread (by simp) (by simp) (pcOf_setPc hthread)
        (seat_setPc hthread (by simp) (by simp)) rfl rfl rfl (fun _ hm ↦ hm) (by simp)⟩
  | close n =>
      obtain ⟨clientId, fd, hthread, rfl⟩ := close_cases hstep
      exact ⟨log, h.congr_setPc hthread (by simp) (by simp)
        (pcOf_setPc (s := s.closeFd _) hthread)
        (seat_setPc (s := s.closeFd _) hthread (by simp) (by simp)) rfl rfl rfl
        (fun _ hm ↦ hm) (by simp)⟩

end WireInv

/-- In every run whose steps are proper, the bytes on every wire are the frames of different
broadcasts, each of a message that some client has sent, and none of which began before the
connection was accepted. -/
theorem delivers_once (events : List Event) (t : Server)
    (hrun : Run (Guarded (StepOf Server.step) Proper) Server.start events t) :
    t.DeliversOnce := by
  have hinv : t.ConnInv ∧ ∃ log, t.WireInv log := by
    refine hrun.invariant (I := fun s ↦ s.ConnInv ∧ ∃ log, s.WireInv log) ?_
      ⟨ConnInv.start, _, WireInv.start⟩
    rintro s e u ⟨hconn, log, hwire⟩ ⟨hok, hstep⟩
    exact ⟨hconn.step hok hstep, hwire.step hconn hok hstep⟩
  obtain ⟨hconn, log, hwire⟩ := hinv
  exact hwire.deliversOnce hconn

/-- A broadcast to the two connections in the first slots. -/
def broadcastEvents (n : ℕ) : List Event :=
  [.lock n, .advance n, .write n (.upTo 9), .write n (.upTo 0), .advance n, .write n (.upTo 1),
    .write n .interrupted, .write n (.upTo 1), .write n (.upTo 9), .advance n, .advance n,
    .advance n, .advance n, .advance n, .advance n, .advance n]

/-- Two clients, one of which sends a message of one byte. -/
theorem delivers_once_two : ∃ t : Server, t.DeliversOnce ∧
    (t.mutex, t.wire 0, t.wire 1) = (none, tag 0 [0, 0, 0, 1, 104], tag 0 [0, 0, 0, 1, 104]) := by
  let events : List Event := [.accept (some 5), .enroll, .accept (some 6), .enroll,
    .receive 1 [104] 1] ++ broadcastEvents 1
  have hfields : (execute (guarded Server.step Proper) Server.start events).map
      (fun t ↦ (t.mutex, t.wire 0, t.wire 1)) =
        some (none, tag 0 [0, 0, 0, 1, 104], tag 0 [0, 0, 0, 1, 104]) := by decide +kernel
  obtain ⟨t, hexec, hfields⟩ := Option.map_eq_some_iff.mp hfields
  exact ⟨t, delivers_once events t (Run.execute_guarded_eq_some_iff.mp hexec), hfields⟩

/-- The first client has left and its descriptor is closed, but its slot is not cleared yet when
the second client gets the same number.  A message of the second client reaches it twice. -/
theorem delivered_twice : ∃ t : Server,
    Run (StepOf Server.step) Server.start ([.accept (some 5), .enroll, .leave 0, .close 0,
      .accept (some 5), .enroll, .receive 1 [104] 1] ++ broadcastEvents 1) t ∧
    t.wire 1 = tag 0 [0, 0, 0, 1, 104, 0, 0, 0, 1, 104] ∧ ¬ t.DeliversOnce := by
  have hfields : (execute Server.step Server.start ([.accept (some 5), .enroll, .leave 0, .close 0,
      .accept (some 5), .enroll, .receive 1 [104] 1] ++ broadcastEvents 1)).map
        (fun t ↦ (t.mutex, t.broadcasts, t.wire 1)) =
      some (none, [([104], 2)], tag 0 [0, 0, 0, 1, 104, 0, 0, 0, 1, 104]) := by decide +kernel
  obtain ⟨t, hexec, hfields⟩ := Option.map_eq_some_iff.mp hfields
  simp only [Prod.mk.injEq] at hfields
  obtain ⟨hmutex, hbroadcasts, hwire⟩ := hfields
  refine ⟨t, Run.execute_eq_some_iff.mp hexec, hwire, fun hdelivers ↦ ?_⟩
  obtain ⟨log, part, heq, hnodup, haddressed, hpart⟩ := hdelivers 1
  obtain rfl : part = [] := by
    refine hpart.resolve_right ?_
    rintro ⟨n, b, message, i, write, rest, hheld, -⟩
    rw [hmutex] at hheld
    cases hheld
  have hzero : ∀ b ∈ log, b = 0 := by
    intro b hb
    obtain ⟨message, accepted, hlookup, -⟩ := haddressed b hb
    have hlt := (List.getElem?_eq_some_iff.mp hlookup).1
    rw [hbroadcasts] at hlt
    exact Nat.lt_one_iff.mp hlt
  have hframe : frame (messageOf t.broadcasts 0) = [0, 0, 0, 1, 104] := by
    rw [hbroadcasts]
    decide
  rw [hwire, List.append_nil] at heq
  have htotal := congrArg List.length heq
  cases log with
  | nil => simp [whole, tag] at htotal
  | cons b log =>
      obtain rfl := hzero b (by simp)
      cases log with
      | nil => simp [whole, tag, hframe] at htotal
      | cons b' log =>
          obtain rfl := hzero b' (by simp)
          simp at hnodup

end Server

end SystemProgramming.CharmingChatroom
