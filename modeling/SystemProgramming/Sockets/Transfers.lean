import SystemProgramming.Lib.Records
import SystemProgramming.CharmingChatroom.Framing

/-!
# The loops around `read` and `write`

`read_all_from_socket` and `write_all_to_socket` are the same in `utils.c` and in `common.c`.
Here they run on bytes of memory, with the pointer that moves, the count that shrinks and the
sum that is returned.  They do what the transfers of the other modules do.
-/

namespace SystemProgramming.Sockets

abbrev Byte := UInt8

/-- The numbers that a `size_t` can have. -/
def SIZE_RANGE : ℕ := 2 ^ 64

/-- A number as a `ssize_t`. -/
def ssize (n : ℤ) : ℤ := n.bmod (2 ^ 64)

theorem ssize_of_lt {n : ℕ} (h : n < 2 ^ 63) : ssize n = n := by
  unfold ssize
  apply Int.bmod_eq_of_le
  · omega
  · omega

/-- The `count` bytes from `start` on.  An object lies in the lower half of the addresses. -/
structure Buffer where
  start : ℕ
  count : ℕ
  fits : start + count < 2 ^ 63

/-! ## The source -/

/-- What a system call can move from or to a place in memory, and what becomes of the state when
it has moved some bytes. -/
structure SystemCall (σ : Type) where
  source : σ → ℕ → ℕ → List Byte
  after : σ → ℕ → List Byte → σ
  after_nil : ∀ s buffer, after s buffer [] = s
  after_append : ∀ s buffer front behind,
    after (after s buffer front) (buffer + front.length) behind = after s buffer (front ++ behind)
  source_after : ∀ s buffer count piece,
    source (after s buffer piece) (buffer + piece.length) (count - piece.length) =
      (source s buffer count).drop piece.length

/-- The result of a function, the state, and the replies that are left. -/
structure Finished (σ : Type) where
  retval : ℤ
  state : σ
  schedule : List Reply

variable {σ : Type}

/-- The loop of `read_all_from_socket` and of `write_all_to_socket`.  Without a result it waits
for the next reply. -/
def transferLoop (call : SystemCall σ) : List Reply → σ → ℕ → ℕ → ℤ → Option (Finished σ)
  | [], _, _, _, _ => none
  | .interrupted :: schedule, s, buffer, count, totalSize =>
      transferLoop call schedule s buffer count totalSize
  | .failed :: schedule, s, _, _, _ => some ⟨-1, s, schedule⟩
  | .upTo more :: schedule, s, buffer, count, totalSize =>
      let piece := (call.source s buffer count).take (min (more + 1) count)
      let currSize := piece.length
      let s := call.after s buffer piece
      if currSize = 0 then some ⟨totalSize, s, schedule⟩
      else
        let totalSize := ssize (totalSize + currSize)
        let count := (count + SIZE_RANGE - currSize) % SIZE_RANGE
        if count ≤ 0 then some ⟨totalSize, s, schedule⟩
        else transferLoop call schedule s (buffer + currSize) count totalSize

/-- The memory of the process, and what comes in before the end of the stream. -/
structure Receiver where
  memory : Bytes
  stream : List Byte

/-- The memory of the process, what it has sent, and how much more is taken before `write`
returns 0. -/
structure Sender where
  memory : Bytes
  wire : List Byte
  room : ℕ

def read : SystemCall Receiver where
  source r _ _ := r.stream
  after r buffer piece := ⟨memcpy r.memory buffer piece, r.stream.drop piece.length⟩
  after_nil r buffer := by rw [memcpy_nil, List.length_nil, List.drop_zero]
  after_append r buffer front behind := by
    simp only [memcpy_append, List.drop_drop, List.length_append]
  source_after _ _ _ _ := rfl

def write : SystemCall Sender where
  source s buffer count := (bytesAt s.memory buffer count).take s.room
  after s _ piece := { s with wire := s.wire ++ piece, room := s.room - piece.length }
  after_nil s _ := by simp
  after_append s _ front behind := by
    simp only [List.append_assoc, List.length_append, Nat.sub_sub]
  source_after s buffer count piece := by
    simp only [← bytesAt_drop, List.drop_take]

def readAllFromSocket (schedule : List Reply) (r : Receiver) (buffer : Buffer) :
    Option (Finished Receiver) :=
  transferLoop read schedule r buffer.start buffer.count 0

def writeAllToSocket (schedule : List Reply) (s : Sender) (buffer : Buffer) :
    Option (Finished Sender) :=
  transferLoop write schedule s buffer.start buffer.count 0

/-! ## The loop is a transfer -/

/-- The bytes that have been moved, the pointer behind them, the count without them and their
number as the sum are the invariant of the loop. -/
theorem transferLoop_eq (call : SystemCall σ) {schedule : List Reply} {s : σ} {buffer count : ℕ}
    {moved : List Byte} (hfits : moved.length + count < 2 ^ 63) :
    transferLoop call schedule (call.after s buffer moved) (buffer + moved.length) count
        moved.length =
      (transferAll schedule
        (call.source (call.after s buffer moved) (buffer + moved.length) count) count moved).map
        fun t ↦ ⟨if t.failed then -1 else t.moved.length, call.after s buffer t.moved, t.schedule⟩ := by
  induction schedule generalizing moved count with
  | nil => rfl
  | cons reply schedule ih =>
      cases reply with
      | interrupted => exact ih hfits
      | failed => rfl
      | upTo more =>
          set source := call.source (call.after s buffer moved) (buffer + moved.length) count
            with hsource
          set piece := source.take (min (more + 1) count) with hpiece
          have hlength : piece.length ≤ count := by
            rw [hpiece, List.length_take]
            omega
          have hafter := call.after_append s buffer moved piece
          have hsum : (moved.length : ℤ) + piece.length = ((moved ++ piece).length : ℕ) := by
            rw [List.length_append, Nat.cast_add]
          have htotal : ssize ((moved ++ piece).length : ℕ) = ((moved ++ piece).length : ℕ) := by
            apply ssize_of_lt
            rw [List.length_append]
            omega
          have hcount : (count + SIZE_RANGE - piece.length) % SIZE_RANGE = count - piece.length := by
            unfold SIZE_RANGE
            omega
          rw [transferLoop, transferAll, ← hsource, ← hpiece, hsum, htotal, hcount, hafter]
          by_cases hempty : piece = []
          · simp [hempty]
          have hpos := List.length_pos_iff.mpr hempty
          rw [if_neg hempty, if_neg (Nat.ne_of_gt hpos)]
          by_cases hdone : count ≤ piece.length
          · rw [if_pos hdone, if_pos (by omega)]
            rfl
          · have hrest := call.source_after (call.after s buffer moved) (buffer + moved.length) count
              piece
            have hbuffer : buffer + moved.length + piece.length =
                buffer + (moved ++ piece).length := by
              rw [List.length_append, Nat.add_assoc]
            rw [if_neg hdone, if_neg (by omega), hbuffer, ih (by rw [List.length_append]; omega),
              hsource, ← hrest, hafter, hbuffer]

theorem transferLoop_start (call : SystemCall σ) (schedule : List Reply) (s : σ)
    (buffer : Buffer) :
    transferLoop call schedule s buffer.start buffer.count 0 =
      (transferAll schedule (call.source s buffer.start buffer.count) buffer.count []).map
        fun t ↦ ⟨if t.failed then -1 else t.moved.length, call.after s buffer.start t.moved,
          t.schedule⟩ := by
  have hfits := buffer.fits
  have hloop := @transferLoop_eq σ call schedule s buffer.start buffer.count []
    (by rw [List.length_nil]; omega)
  rw [call.after_nil, List.length_nil, Nat.add_zero, Nat.cast_zero] at hloop
  exact hloop

/-- The memory and the stream show what the transfer has moved. -/
theorem readAllFromSocket_eq (schedule : List Reply) (r : Receiver) (buffer : Buffer) :
    readAllFromSocket schedule r buffer =
      (CharmingChatroom.readAllFromSocket schedule r.stream buffer.count).map fun t ↦
        ⟨CharmingChatroom.retval t,
          ⟨memcpy r.memory buffer.start t.moved, r.stream.drop t.moved.length⟩, t.schedule⟩ :=
  transferLoop_start read schedule r buffer

theorem writeAllToSocket_eq (schedule : List Reply) (s : Sender) (buffer : Buffer) :
    writeAllToSocket schedule s buffer =
      (transferAll schedule ((bytesAt s.memory buffer.start buffer.count).take s.room) buffer.count
        []).map fun t ↦
        ⟨CharmingChatroom.retval t,
          { s with wire := s.wire ++ t.moved, room := s.room - t.moved.length }, t.schedule⟩ :=
  transferLoop_start write schedule s buffer

/-! ## Complete transfers -/

/-- The result is -1 exactly if one of the replies that were used is a failure.  Without one it
is the number of bytes asked for, or of those before the end, and these have been stored in order.
No other byte of the memory is touched. -/
structure ReadAll (r : Receiver) (buffer : Buffer) (schedule : List Reply)
    (t : Finished Receiver) : Prop where
  error : ∃ used, schedule = used ++ t.schedule ∧ (t.retval = -1 ↔ .failed ∈ used)
  total : t.retval ≠ -1 → t.retval = (min buffer.count r.stream.length : ℕ)
  stored : t.retval ≠ -1 →
    bytesAt t.state.memory buffer.start (min buffer.count r.stream.length) =
      r.stream.take buffer.count
  left : t.retval ≠ -1 → t.state.stream = r.stream.drop buffer.count
  frame : ∀ a, a < buffer.start ∨ buffer.start + buffer.count ≤ a →
    t.state.memory a = r.memory a

/-- The same for bytes that are sent, and the memory is as before. -/
structure WriteAll (s : Sender) (buffer : Buffer) (schedule : List Reply)
    (t : Finished Sender) : Prop where
  error : ∃ used, schedule = used ++ t.schedule ∧ (t.retval = -1 ↔ .failed ∈ used)
  total : t.retval ≠ -1 → t.retval = (min buffer.count s.room : ℕ)
  sent : t.retval ≠ -1 →
    t.state.wire = s.wire ++ (bytesAt s.memory buffer.start buffer.count).take s.room
  frame : t.state.memory = s.memory

/-- The result of a transfer that is over. -/
theorem retval_eq_neg_one_iff (t : Transfer Byte) :
    CharmingChatroom.retval t = -1 ↔ t.failed = true := by
  unfold CharmingChatroom.retval
  split
  · next hfailed => simp [hfailed]
  · next hok =>
    constructor
    · intro h
      omega
    · exact fun h ↦ absurd h hok

theorem retval_of_ne {t : Transfer Byte} (h : CharmingChatroom.retval t ≠ -1) :
    t.failed = false ∧ CharmingChatroom.retval t = t.moved.length := by
  have hok : ¬ t.failed = true := mt (retval_eq_neg_one_iff t).mpr h
  exact ⟨by simpa using hok, if_neg hok⟩

theorem readAll_of_eq_some {schedule : List Reply} {r : Receiver} {buffer : Buffer}
    {t : Finished Receiver} (h : readAllFromSocket schedule r buffer = some t) :
    ReadAll r buffer schedule t := by
  rw [readAllFromSocket_eq] at h
  obtain ⟨tr, htr, rfl⟩ := Option.map_eq_some_iff.mp h
  obtain ⟨n, hn, hmoved, hleft, hall, used, hused, hfail⟩ := transferAll_moved htr
  rw [List.nil_append] at hmoved
  have hlength : tr.moved.length = n := by
    rw [hmoved, List.length_take]
    omega
  have hmin : r.stream.take (min buffer.count r.stream.length) = r.stream.take buffer.count :=
    List.take_eq_take_min.symm
  refine ⟨⟨used, hused, (retval_eq_neg_one_iff tr).trans hfail⟩, fun hok ↦ ?_, fun hok ↦ ?_,
    fun hok ↦ ?_, fun a ha ↦ ?_⟩
  · obtain ⟨hok, hretval⟩ := retval_of_ne hok
    rw [hretval, hlength, hall hok]
  · have hall := hall (retval_of_ne hok).1
    have hstored := bytesAt_memcpy r.memory buffer.start tr.moved
    rw [hlength] at hstored
    rw [← hall, hstored, hmoved, hall, hmin]
  · have hall := hall (retval_of_ne hok).1
    have hdrop : r.stream.drop n = r.stream.drop buffer.count := by
      rw [hall]
      exact List.drop_eq_drop_min.symm
    simpa only [hlength] using hdrop
  · apply memcpy_outside
    omega

theorem writeAll_of_eq_some {schedule : List Reply} {s : Sender} {buffer : Buffer}
    {t : Finished Sender} (h : writeAllToSocket schedule s buffer = some t) :
    WriteAll s buffer schedule t := by
  rw [writeAllToSocket_eq] at h
  obtain ⟨tr, htr, rfl⟩ := Option.map_eq_some_iff.mp h
  obtain ⟨n, hn, hmoved, -, hall, used, hused, hfail⟩ := transferAll_moved htr
  rw [List.nil_append] at hmoved
  have hlength : tr.moved.length = n := by
    rw [hmoved, List.length_take]
    omega
  have hsource : ((bytesAt s.memory buffer.start buffer.count).take s.room).length =
      min buffer.count s.room := by
    rw [List.length_take, length_bytesAt, Nat.min_comm]
  have hmin : min buffer.count (min buffer.count s.room) = min buffer.count s.room := by omega
  rw [hsource, hmin] at hall
  refine ⟨⟨used, hused, (retval_eq_neg_one_iff tr).trans hfail⟩, fun hok ↦ ?_, fun hok ↦ ?_, rfl⟩
  · obtain ⟨hok, hretval⟩ := retval_of_ne hok
    rw [hretval, hlength, hall hok]
  · have hall := hall (retval_of_ne hok).1
    rw [hmoved, List.take_of_length_le (by rw [hsource]; exact hall.ge)]

/-- Interrupts are the only replies that do not bring the loop closer to its end. -/
theorem exists_transferLoop {results : ℕ → Reply} (h : {k | results k = .interrupted}.Finite)
    (call : SystemCall σ) (s : σ) (buffer : Buffer) :
    ∃ n, (transferLoop call ((List.range n).map results) s buffer.start buffer.count 0).isSome := by
  obtain ⟨n, t, ht⟩ := exists_transferAll_of_finite h
    (call.source s buffer.start buffer.count) buffer.count []
  exact ⟨n, by simp [transferLoop_start, ht]⟩

/-- Both loops come to their end, and what they have done then is what was asked for. Bytes that
are written completely are the bytes that are read. -/
theorem transfers_complete :
    (∀ (r : Receiver) (buffer : Buffer),
      (∀ results : ℕ → Reply, {k | results k = .interrupted}.Finite →
        ∃ n, (readAllFromSocket ((List.range n).map results) r buffer).isSome) ∧
      ∀ schedule t, readAllFromSocket schedule r buffer = some t → ReadAll r buffer schedule t) ∧
    (∀ (s : Sender) (buffer : Buffer),
      (∀ results : ℕ → Reply, {k | results k = .interrupted}.Finite →
        ∃ n, (writeAllToSocket ((List.range n).map results) s buffer).isSome) ∧
      ∀ schedule t, writeAllToSocket schedule s buffer = some t → WriteAll s buffer schedule t) ∧
    ∀ (s : Sender) (source target : Buffer) (memory : Bytes) (later : List Byte)
      (schedule schedule' : List Reply) (t : Finished Sender) (u : Finished Receiver),
      source.count ≤ s.room → target.count = source.count →
      writeAllToSocket schedule s source = some t → t.retval ≠ -1 →
      readAllFromSocket schedule' ⟨memory, t.state.wire.drop s.wire.length ++ later⟩ target =
        some u → u.retval ≠ -1 →
      t.retval = source.count ∧ u.retval = source.count ∧
        bytesAt u.state.memory target.start target.count =
          bytesAt s.memory source.start source.count ∧ u.state.stream = later := by
  refine ⟨fun r buffer ↦ ⟨fun results h ↦ exists_transferLoop h read r buffer,
    fun schedule t ↦ readAll_of_eq_some⟩, fun s buffer ↦ ⟨fun results h ↦
    exists_transferLoop h write s buffer, fun schedule t ↦ writeAll_of_eq_some⟩, ?_⟩
  intro s source target memory later schedule schedule' t u hroom hcount hwrite hsent hread hread'
  have hwritten := writeAll_of_eq_some hwrite
  have hall := readAll_of_eq_some hread
  have hwire : t.state.wire.drop s.wire.length = bytesAt s.memory source.start source.count := by
    have htake : (bytesAt s.memory source.start source.count).take s.room =
        bytesAt s.memory source.start source.count := by
      apply List.take_of_length_le
      rwa [length_bytesAt]
    rw [hwritten.sent hsent, List.drop_left, htake]
  have hlength : target.count = (bytesAt s.memory source.start source.count).length := by
    rw [length_bytesAt, hcount]
  have hmin : min target.count
      (bytesAt s.memory source.start source.count ++ later).length = target.count := by
    rw [List.length_append]
    omega
  have htotal := hall.total hread'
  have hstored := hall.stored hread'
  have hleft := hall.left hread'
  simp only [hwire, hmin] at htotal hstored hleft
  refine ⟨?_, ?_, ?_, ?_⟩
  · rw [hwritten.total hsent, min_eq_left hroom]
  · rw [htotal, hcount]
  · rw [hstored, List.take_left' hlength.symm]
  · rw [hleft, List.drop_left' hlength.symm]

/-- A process that has three bytes to send, which are the numbers of their addresses. -/
def threeBytes : Sender := ⟨fun a ↦ UInt8.ofNat a, [], 3⟩

def bufferAt (start : ℕ) (h : start + 3 < 2 ^ 63) : Buffer := ⟨start, 3, h⟩

/-- They are written and read in pieces, with interrupts, and one more byte follows. -/
theorem transfers_complete_interrupted :
    ∃ t u, writeAllToSocket [.upTo 0, .interrupted, .upTo 4] threeBytes
        (bufferAt 65 (by decide)) = some t ∧
      readAllFromSocket [.interrupted, .upTo 1, .upTo 1]
        ⟨fun _ ↦ 0, t.state.wire.drop threeBytes.wire.length ++ [7]⟩ (bufferAt 8 (by decide)) =
          some u ∧
      t.retval = 3 ∧ u.retval = 3 ∧ bytesAt u.state.memory 8 3 = bytesAt threeBytes.memory 65 3 ∧
      u.state.stream = [7] := by
  have hwrite : (writeAllToSocket [.upTo 0, .interrupted, .upTo 4] threeBytes
      (bufferAt 65 (by decide))).map (fun t ↦ (t.retval, t.state.wire)) =
        some (3, [65, 66, 67]) := by decide +kernel
  obtain ⟨t, ht, hfields⟩ := Option.map_eq_some_iff.mp hwrite
  obtain ⟨hretval, hwire⟩ := Prod.mk.inj hfields
  have hread : (readAllFromSocket [.interrupted, .upTo 1, .upTo 1]
      ⟨fun _ ↦ 0, t.state.wire.drop threeBytes.wire.length ++ [7]⟩
        (bufferAt 8 (by decide))).map Finished.retval = some 3 := by
    rw [hwire]
    decide +kernel
  obtain ⟨u, hu, hretval'⟩ := Option.map_eq_some_iff.mp hread
  refine ⟨t, u, ht, hu, ?_⟩
  exact transfers_complete.2.2 threeBytes (bufferAt 65 (by decide)) (bufferAt 8 (by decide))
    (fun _ ↦ 0) [7] _ _ t u le_rfl rfl ht (by rw [hretval]; decide) hu (by rw [hretval']; decide)

end SystemProgramming.Sockets
