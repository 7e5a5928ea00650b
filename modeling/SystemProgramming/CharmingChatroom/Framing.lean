import SystemProgramming.Lib.ByteStream

/-!
# The framing of the chat

`utils.c` and the two receiving loops.  A message travels as its size in network byte order
and its bytes.  The schedules say what each call of `read` and `write` does.
-/

namespace SystemProgramming.CharmingChatroom

abbrev Byte := UInt8

abbrev Message := List Byte

def MESSAGE_SIZE_DIGITS : ℕ := 4

/-! ## `utils.c` -/

/-- The result of `read_all_from_socket` and `write_all_to_socket`. -/
def retval (t : Transfer Byte) : ℤ := if t.failed then -1 else t.moved.length

def readAllFromSocket (schedule : List Reply) (stream : List Byte) (count : ℕ) :
    Option (Transfer Byte) :=
  transferAll schedule stream count []

def writeAllToSocket (schedule : List Reply) (buffer : List Byte) : Option (Transfer Byte) :=
  transferAll schedule buffer buffer.length []

/-- `htonl` keeps the low 32 bits of the size. -/
def writeMessageSize (schedule : List Reply) (size : ℕ) : Option (Transfer Byte) :=
  writeAllToSocket schedule (bigEndian MESSAGE_SIZE_DIGITS size)

/-- The result, the bytes left in the stream and the calls left.  Bytes of `size` that were
not read are those that were there before. -/
def getMessageSize (uninit : Vector Byte 4) (schedule : List Reply) (stream : List Byte) :
    Option (ℤ × List Byte × List Reply) :=
  (readAllFromSocket schedule stream MESSAGE_SIZE_DIGITS).map fun t ↦
    (if retval t = 0 ∨ retval t = -1 then retval t
      else (ofBigEndian (t.moved ++ uninit.toList.drop t.moved.length) : ℤ), t.left, t.schedule)

/-! ## The loops -/

/-- A message is sent as in `write_to_server` and `write_to_clients`. -/
def writeMessage (schedule : List Reply) (message : Message) :
    Option (ℤ × List Byte × List Reply) :=
  (writeMessageSize schedule message.length).bind fun header ↦
    if retval header > 0 then
      (writeAllToSocket header.schedule message).map fun body ↦
        (retval body, header.moved ++ body.moved, body.schedule)
    else some (retval header, header.moved, header.schedule)

/-- The bytes on the wire when the user has entered the messages. -/
def writeToServer : List Reply → List Message → List Byte → Option (List Byte)
  | _, [], wire => some wire
  | schedule, message :: messages, wire =>
      match writeMessage schedule message with
      | none => none
      | some (retval, written, schedule) =>
          if retval > 0 then writeToServer schedule messages (wire ++ written)
          else some (wire ++ written)

/-- A buffer from `calloc`, with all its bytes, and the number of bytes read into it. -/
structure Delivery where
  buffer : List Byte
  size : ℕ
  deriving DecidableEq

/-- `write_to_clients(buffer, retval)` -/
def Delivery.broadcast (d : Delivery) : Message := d.buffer.take d.size

/-- `%s` shows the bytes in front of the first NUL.  The buffer ends with the message, so
without a NUL in it the bytes behind it are read. -/
def Delivery.print (d : Delivery) : Option (List Byte) :=
  if 0 ∈ d.buffer then some (d.buffer.takeWhile (· ≠ 0)) else none

structure Received where
  deliveries : List Delivery
  returned : Bool
  deriving DecidableEq

/-- The loop of `process_client` and `read_from_server`.  Every round takes a call from the
schedule, so a schedule of `rounds` calls is used up first. -/
def receive (uninit : ℕ → Vector Byte 4) :
    ℕ → List Reply → List Byte → List Delivery → Received
  | 0, _, _, deliveries => ⟨deliveries, false⟩
  | rounds + 1, schedule, stream, deliveries =>
      match getMessageSize (uninit rounds) schedule stream with
      | none => ⟨deliveries, false⟩
      | some (size, left, schedule) =>
          if size > 0 then
            match readAllFromSocket schedule left size.toNat with
            | none => ⟨deliveries, false⟩
            | some t =>
                if retval t > 0 then
                  let unread := List.replicate (size.toNat - t.moved.length) 0
                  receive uninit rounds t.schedule t.left
                    (deliveries ++ [⟨t.moved ++ unread, (retval t).toNat⟩])
                else ⟨deliveries, true⟩
          else ⟨deliveries, true⟩

/-- What is broadcast. -/
def processClient (uninit : ℕ → Vector Byte 4) (schedule : List Reply) (stream : List Byte) :
    List Message × Bool :=
  let r := receive uninit schedule.length schedule stream []
  (r.deliveries.map Delivery.broadcast, r.returned)

/-- What is printed. -/
def readFromServer (uninit : ℕ → Vector Byte 4) (schedule : List Reply) (stream : List Byte) :
    Option (List (List Byte) × Bool) :=
  let r := receive uninit schedule.length schedule stream []
  (r.deliveries.mapM Delivery.print).map fun texts ↦ (texts, r.returned)

/-! ## What the stream contains -/

def frame (message : Message) : List Byte :=
  bigEndian MESSAGE_SIZE_DIGITS message.length ++ message

def frames (messages : List Message) : List Byte := messages.flatMap frame

@[simp] theorem frames_nil : frames [] = [] := rfl

@[simp] theorem frames_cons (message : Message) (messages : List Message) :
    frames (message :: messages) = frame message ++ frames messages := rfl

@[simp] theorem length_frame (message : Message) :
    (frame message).length = MESSAGE_SIZE_DIGITS + message.length := by
  simp [frame]

/-- The messages that are wholly in the first bytes of the stream. -/
def contained : List Message → ℕ → List Message
  | [], _ => []
  | message :: messages, cut =>
      if (frame message).length ≤ cut then
        message :: contained messages (cut - (frame message).length)
      else []

/-- The last of the first bytes is in the body of a message, and is not its last one. -/
def EndsInBody : List Message → ℕ → Prop
  | [], _ => False
  | message :: messages, cut =>
      if (frame message).length ≤ cut then EndsInBody messages (cut - (frame message).length)
      else MESSAGE_SIZE_DIGITS < cut

def Delivery.whole (message : Message) : Delivery := ⟨message, message.length⟩

/-- What a stream that ends in a body delivers besides. -/
def partialDelivery : List Message → ℕ → List Delivery
  | [], _ => []
  | message :: messages, cut =>
      if (frame message).length ≤ cut then partialDelivery messages (cut - (frame message).length)
      else if MESSAGE_SIZE_DIGITS < cut then
        let size := cut - MESSAGE_SIZE_DIGITS
        [⟨message.take size ++ List.replicate (message.length - size) 0, size⟩]
      else []

instance decidableEndsInBody : ∀ messages cut, Decidable (EndsInBody messages cut)
  | [], _ => isFalse id
  | message :: messages, cut =>
      have := decidableEndsInBody messages (cut - (frame message).length)
      inferInstanceAs (Decidable (if (frame message).length ≤ cut then
        EndsInBody messages (cut - (frame message).length) else MESSAGE_SIZE_DIGITS < cut))

theorem partialDelivery_eq_nil_iff (messages : List Message) (cut : ℕ) :
    partialDelivery messages cut = [] ↔ ¬ EndsInBody messages cut := by
  induction messages generalizing cut with
  | nil => simp [partialDelivery, EndsInBody]
  | cons message messages ih =>
      rw [partialDelivery, EndsInBody]
      by_cases hwhole : (frame message).length ≤ cut
      · rw [if_pos hwhole, if_pos hwhole, ih]
      · rw [if_neg hwhole, if_neg hwhole]
        simp

theorem contained_of_le {messages : List Message} {cut : ℕ} (h : (frames messages).length ≤ cut) :
    contained messages cut = messages := by
  induction messages generalizing cut with
  | nil => rfl
  | cons message messages ih =>
      rw [frames_cons, List.length_append] at h
      rw [contained, if_pos (by omega), ih (by omega)]

theorem not_endsInBody_of_le {messages : List Message} {cut : ℕ}
    (h : (frames messages).length ≤ cut) : ¬ EndsInBody messages cut := by
  induction messages generalizing cut with
  | nil => exact id
  | cons message messages ih =>
      rw [frames_cons, List.length_append] at h
      rw [EndsInBody, if_pos (by omega)]
      exact ih (by omega)

/-! ## Sending -/

/-- What a loop needs of its schedule: no call fails, and enough of them move something. -/
structure Enough (schedule : List Reply) (calls : ℕ) : Prop where
  not_failed : .failed ∉ schedule
  le_progress : calls ≤ progress schedule

theorem Enough.mono {schedule : List Reply} {calls fewer : ℕ} (h : Enough schedule calls)
    (hle : fewer ≤ calls) : Enough schedule fewer :=
  ⟨h.not_failed, hle.trans h.le_progress⟩

variable {schedule : List Reply}

theorem writeAllToSocket_spec (buffer : List Byte) {more : ℕ}
    (h : Enough schedule (buffer.length + more)) (hbuffer : buffer ≠ []) :
    ∃ rest, writeAllToSocket schedule buffer = some ⟨buffer, false, [], rest⟩ ∧
      Enough rest more := by
  have hprogress := h.le_progress
  obtain ⟨rest, heq, hfail, hleft⟩ := transferAll_spec buffer h.not_failed
    (List.length_pos_iff.mpr hbuffer) (by omega) []
  refine ⟨rest, ?_, hfail, by omega⟩
  rw [writeAllToSocket, heq, List.nil_append, List.take_length, List.drop_length]

theorem bigEndian_ne_nil (size : ℕ) : bigEndian MESSAGE_SIZE_DIGITS size ≠ [] := by
  rw [← List.length_pos_iff, length_bigEndian]
  decide

theorem writeMessage_spec {message : Message} {more : ℕ}
    (h : Enough schedule ((frame message).length + more)) (hmessage : message ≠ []) :
    ∃ rest, writeMessage schedule message = some ((message.length : ℤ), frame message, rest) ∧
      Enough rest more := by
  rw [length_frame, add_assoc] at h
  obtain ⟨mid, hheader, hmid⟩ := writeAllToSocket_spec
    (bigEndian MESSAGE_SIZE_DIGITS message.length) (by simpa using h) (bigEndian_ne_nil _)
  obtain ⟨rest, hbody, hrest⟩ := writeAllToSocket_spec message hmid hmessage
  refine ⟨rest, ?_, hrest⟩
  have hret : retval ⟨bigEndian MESSAGE_SIZE_DIGITS message.length, false, [], mid⟩ > 0 := by
    simp [retval, MESSAGE_SIZE_DIGITS]
  rw [writeMessage, writeMessageSize, hheader, Option.bind_some, if_pos hret, hbody]
  simp [retval, frame]

theorem writeToServer_eq {messages : List Message}
    (h : Enough schedule (frames messages).length) (hmessages : ∀ m ∈ messages, m ≠ [])
    (wire : List Byte) :
    writeToServer schedule messages wire = some (wire ++ frames messages) := by
  induction messages generalizing schedule wire with
  | nil => simp [writeToServer]
  | cons message messages ih =>
      rw [frames_cons, List.length_append] at h
      obtain ⟨hmessage, hrest⟩ := List.forall_mem_cons.mp hmessages
      obtain ⟨rest, hwrite, henough⟩ := writeMessage_spec h hmessage
      have hpos : (message.length : ℤ) > 0 := mod_cast List.length_pos_iff.mpr hmessage
      rw [writeToServer, hwrite]
      simp only [if_pos hpos]
      rw [ih henough hrest, frames_cons, List.append_assoc]

/-! ## Receiving -/

theorem digits_pos : 0 < MESSAGE_SIZE_DIGITS := by decide

variable {uninit : ℕ → Vector Byte 4} {stream : List Byte} {rounds more : ℕ}

theorem readAllFromSocket_spec (stream : List Byte) {count : ℕ} (hcount : 0 < count) (more : ℕ)
    (h : Enough schedule (min count (stream.length + 1) + more)) :
    ∃ rest, readAllFromSocket schedule stream count =
        some ⟨stream.take count, false, stream.drop count, rest⟩ ∧ Enough rest more := by
  have hprogress := h.le_progress
  obtain ⟨rest, heq, hfail, hleft⟩ :=
    transferAll_spec stream h.not_failed hcount (by omega) []
  exact ⟨rest, heq, hfail, by omega⟩

/-- A size of which bytes are missing is some number. -/
theorem getMessageSize_of_length_lt (u : Vector Byte 4) (more : ℕ)
    (hshort : stream.length < MESSAGE_SIZE_DIGITS)
    (h : Enough schedule (stream.length + 1 + more)) :
    ∃ (size : ℕ) (rest : List Reply),
      getMessageSize u schedule stream = some ((size : ℤ), [], rest) ∧ Enough rest more := by
  have hmin : min MESSAGE_SIZE_DIGITS (stream.length + 1) = stream.length + 1 := by omega
  obtain ⟨rest, hread, hrest⟩ := readAllFromSocket_spec stream digits_pos more (by rwa [hmin])
  rw [List.take_of_length_le hshort.le, List.drop_of_length_le hshort.le] at hread
  rw [getMessageSize, hread, Option.map_some]
  by_cases hempty : stream = []
  · exact ⟨0, rest, by simp [retval, hempty], hrest⟩
  · exact ⟨_, rest, by rw [if_neg (by simp [retval, hempty])], hrest⟩

theorem getMessageSize_bigEndian (u : Vector Byte 4) {size : ℕ}
    (hlt : size < 2 ^ 32) (left : List Byte) (h : Enough schedule (MESSAGE_SIZE_DIGITS + more)) :
    ∃ rest, getMessageSize u schedule (bigEndian MESSAGE_SIZE_DIGITS size ++ left) =
        some ((size : ℤ), left, rest) ∧ Enough rest more := by
  have hlength := length_bigEndian MESSAGE_SIZE_DIGITS size
  have hmin : min MESSAGE_SIZE_DIGITS
      ((bigEndian MESSAGE_SIZE_DIGITS size ++ left).length + 1) = MESSAGE_SIZE_DIGITS := by
    rw [List.length_append, hlength]
    omega
  obtain ⟨rest, hread, hrest⟩ := readAllFromSocket_spec
    (bigEndian MESSAGE_SIZE_DIGITS size ++ left) digits_pos more (by rwa [hmin])
  refine ⟨rest, ?_, hrest⟩
  rw [List.take_left' hlength, List.drop_left' hlength] at hread
  have hret : retval ⟨bigEndian MESSAGE_SIZE_DIGITS size, false, left, rest⟩ = 4 := by
    simp [retval, MESSAGE_SIZE_DIGITS]
  have hnone : u.toList.drop MESSAGE_SIZE_DIGITS = [] := by simp [MESSAGE_SIZE_DIGITS]
  rw [getMessageSize, hread, Option.map_some, hret, if_neg (by norm_num), hlength, hnone,
    List.append_nil, ofBigEndian_bigEndian (by rwa [MESSAGE_SIZE_DIGITS] at *)]

/-- A stream that ends in a header, or before it, delivers nothing more. -/
theorem receive_of_length_lt (hshort : stream.length < MESSAGE_SIZE_DIGITS)
    (h : Enough schedule (stream.length + 2)) (deliveries : List Delivery) :
    receive uninit (rounds + 1) schedule stream deliveries = ⟨deliveries, true⟩ := by
  obtain ⟨size, mid, hsize, hmid⟩ := getMessageSize_of_length_lt (uninit rounds) 1 hshort h
  rw [receive, hsize]
  by_cases hpos : (size : ℤ) > 0
  · -- the body is read from a stream that is at its end
    have hsize' : 0 < size := by exact_mod_cast hpos
    have hmin : min size (([] : List Byte).length + 1) + 0 = 1 := by
      rw [List.length_nil]
      omega
    obtain ⟨rest, hread, -⟩ := readAllFromSocket_spec [] hsize' 0 (by rwa [hmin])
    simp only [if_pos hpos, Int.toNat_natCast, hread]
    simp [retval]
  · simp only [if_neg hpos]

/-- A whole frame delivers its message. -/
theorem receive_frame (uninit : ℕ → Vector Byte 4) (rounds : ℕ) {message : Message}
    (hpos : message ≠ []) (hlt : message.length < 2 ^ 32) (left : List Byte)
    (h : Enough schedule ((frame message).length + more))
    (deliveries : List Delivery) :
    ∃ rest, receive uninit (rounds + 1) schedule (frame message ++ left) deliveries =
        receive uninit rounds rest left (deliveries ++ [Delivery.whole message]) ∧
      Enough rest more := by
  have hlength := List.length_pos_iff.mpr hpos
  rw [length_frame, add_assoc] at h
  obtain ⟨mid, hsize, hmid⟩ := getMessageSize_bigEndian (uninit rounds) hlt
    (message ++ left) h
  have hmin : min message.length ((message ++ left).length + 1) = message.length := by
    rw [List.length_append]
    omega
  obtain ⟨rest, hread, hrest⟩ := readAllFromSocket_spec (message ++ left) hlength more
    (by rwa [hmin])
  rw [List.take_left, List.drop_left] at hread
  refine ⟨rest, ?_, hrest⟩
  have hret : retval ⟨message, false, left, rest⟩ > 0 := by simpa [retval] using hlength
  rw [frame, List.append_assoc, receive, hsize]
  simp only [if_pos (by exact_mod_cast hlength : (message.length : ℤ) > 0), Int.toNat_natCast,
    hread, if_pos hret]
  simp [retval, Delivery.whole]

/-- A stream that ends in a body delivers the part that is there, unless there is none. -/
theorem receive_body {size : ℕ} (hlt : size < 2 ^ 32) {body : List Byte}
    (hcut : body.length < size) (h : Enough schedule (MESSAGE_SIZE_DIGITS + (body.length + 3)))
    (deliveries : List Delivery) :
    receive uninit (rounds + 2) schedule (bigEndian MESSAGE_SIZE_DIGITS size ++ body) deliveries =
      ⟨deliveries ++ if body = [] then []
        else [⟨body ++ List.replicate (size - body.length) 0, body.length⟩], true⟩ := by
  obtain ⟨mid, hsize, hmid⟩ := getMessageSize_bigEndian (uninit (rounds + 1)) hlt body h
  have hsize' : 0 < size := (Nat.zero_le _).trans_lt hcut
  have hmin : min size (body.length + 1) + 2 = body.length + 3 := by omega
  obtain ⟨rest, hread, hrest⟩ := readAllFromSocket_spec body hsize' 2 (by rwa [hmin])
  rw [List.take_of_length_le hcut.le, List.drop_of_length_le hcut.le] at hread
  have hpos : (size : ℤ) > 0 := by exact_mod_cast (Nat.zero_le _).trans_lt hcut
  rw [receive, hsize]
  simp only [if_pos hpos, Int.toNat_natCast, hread]
  by_cases hempty : body = []
  · simp [retval, hempty]
  · have hret : retval ⟨body, false, [], rest⟩ > 0 := by
      simpa [retval] using List.length_pos_iff.mpr hempty
    rw [if_pos hret, receive_of_length_lt (by decide) (by simpa using hrest), if_neg hempty]
    simp [retval]

/-- All that a stream delivers. -/
theorem receive_take {messages : List Message}
    (hmessages : ∀ m ∈ messages, m ≠ [] ∧ m.length < 2 ^ 32) (cut : ℕ)
    (h : Enough schedule (((frames messages).take cut).length + 3))
    (hrounds : ((frames messages).take cut).length + 2 ≤ rounds) (deliveries : List Delivery) :
    receive uninit rounds schedule ((frames messages).take cut) deliveries =
      ⟨deliveries ++ (contained messages cut).map Delivery.whole ++ partialDelivery messages cut,
        true⟩ := by
  induction messages generalizing cut rounds schedule deliveries with
  | nil =>
      obtain ⟨rounds, rfl⟩ := Nat.exists_eq_add_of_le' (Nat.one_le_of_lt hrounds)
      rw [frames_nil, List.take_nil] at h ⊢
      rw [receive_of_length_lt (by decide) (h.mono (Nat.le_succ _))]
      simp [contained, partialDelivery]
  | cons message messages ih =>
      obtain ⟨⟨hne, hlt⟩, hrest⟩ := List.forall_mem_cons.mp hmessages
      have hframe := length_frame message
      rw [frames_cons, List.take_append] at h hrounds ⊢
      rw [contained, partialDelivery]
      by_cases hwhole : (frame message).length ≤ cut
      · rw [List.take_of_length_le hwhole, List.length_append] at h hrounds
        rw [List.take_of_length_le hwhole, if_pos hwhole, if_pos hwhole]
        obtain ⟨rounds, rfl⟩ := Nat.exists_eq_add_of_le' (Nat.one_le_of_lt hrounds)
        obtain ⟨rest, hfirst, henough⟩ := receive_frame uninit rounds hne hlt
          ((frames messages).take (cut - (frame message).length)) (by rwa [add_assoc] at h)
          deliveries
        have hpos : 0 < (frame message).length := by
          rw [hframe, MESSAGE_SIZE_DIGITS]
          omega
        have hfewer : ((frames messages).take (cut - (frame message).length)).length + 2 ≤ rounds := by
          omega
        rw [hfirst, ih hrest _ henough hfewer]
        simp
      · have hnone : cut - (frame message).length = 0 := by omega
        rw [hnone, List.take_zero, List.append_nil] at h hrounds ⊢
        rw [if_neg hwhole, if_neg hwhole, List.map_nil, List.append_nil]
        by_cases hheader : MESSAGE_SIZE_DIGITS ≤ cut
        · -- the stream ends in the body
          have hbody : (frame message).take cut = bigEndian MESSAGE_SIZE_DIGITS message.length ++
              message.take (cut - MESSAGE_SIZE_DIGITS) := by
            rw [frame, List.take_append, length_bigEndian,
              List.take_of_length_le (by rwa [length_bigEndian])]
          have hsize : (message.take (cut - MESSAGE_SIZE_DIGITS)).length =
              cut - MESSAGE_SIZE_DIGITS := by
            rw [List.length_take]
            omega
          rw [hbody, List.length_append, length_bigEndian] at h hrounds
          obtain ⟨rounds, rfl⟩ := Nat.exists_eq_add_of_le' (show 2 ≤ rounds by omega)
          rw [hbody, receive_body hlt (by omega) (by rwa [add_assoc] at h), hsize]
          by_cases hlast : MESSAGE_SIZE_DIGITS < cut
          · rw [if_pos hlast, if_neg]
            rw [← List.length_eq_zero_iff, hsize]
            omega
          · rw [if_neg hlast, if_pos]
            rw [← List.length_eq_zero_iff, hsize]
            omega
        · have hshort : ((frame message).take cut).length < MESSAGE_SIZE_DIGITS := by
            rw [List.length_take]
            omega
          obtain ⟨rounds, rfl⟩ := Nat.exists_eq_add_of_le' (Nat.one_le_of_lt hrounds)
          rw [receive_of_length_lt hshort (h.mono (Nat.le_succ _)),
            if_neg (by omega), List.append_nil]

/-! ## Showing -/

/-- A string with its NUL, and nothing behind it. -/
def IsText (message : Message) : Prop := message = message.takeWhile (· ≠ 0) ++ [0]

instance decidableIsText (message : Message) : Decidable (IsText message) :=
  inferInstanceAs (Decidable (_ = _))

/-- The text is the message, with or without a NUL at its end. -/
def ShownAs (text : List Byte) (message : Message) : Prop :=
  message = text ∨ message = text ++ [0]

/-- The client has printed the messages, one text for each of them, and has returned. -/
def Shows (printed : Option (List (List Byte) × Bool)) (messages : List Message) : Prop :=
  ∃ texts, printed = some (texts, true) ∧ List.Forall₂ ShownAs texts messages

@[simp] theorem Delivery.broadcast_whole (message : Message) :
    (Delivery.whole message).broadcast = message := List.take_length

/-- A message is printed as it is if it is a text. -/
theorem Delivery.exists_print_whole_iff (message : Message) :
    (∃ text, (Delivery.whole message).print = some text ∧ ShownAs text message) ↔
      IsText message := by
  constructor
  · rintro ⟨text, hprint, hshown⟩
    obtain ⟨hmem, htext⟩ := Option.ite_none_right_eq_some.mp hprint
    obtain rfl := Option.some.inj htext
    rcases hshown with hwhole | hnul
    · -- the text has no NUL, but the message has one
      change message = message.takeWhile _ at hwhole
      change 0 ∈ message at hmem
      rw [hwhole] at hmem
      simpa using List.mem_takeWhile_imp hmem
    · exact hnul
  · intro htext
    have hmem : 0 ∈ message := by
      rw [IsText] at htext
      rw [htext]
      exact List.mem_append_right _ (List.mem_singleton_self 0)
    exact ⟨_, if_pos hmem, Or.inr htext⟩

/-- The messages are shown exactly if they are texts and there is nothing else to print. -/
theorem forall₂_shownAs_iff (messages : List Message) (more : List Delivery) :
    (∃ texts, (messages.map Delivery.whole ++ more).mapM Delivery.print = some texts ∧
        List.Forall₂ ShownAs texts messages) ↔
      more = [] ∧ ∀ m ∈ messages, IsText m := by
  induction messages with
  | nil =>
      cases more with
      | nil => simp
      | cons d more => simp [List.mapM_cons, Option.bind_eq_some_iff]
  | cons message messages ih =>
      rw [List.forall_mem_cons, and_left_comm, ← ih, ← Delivery.exists_print_whole_iff]
      simp only [List.map_cons, List.cons_append, List.mapM_cons, List.forall₂_cons_right_iff]
      constructor
      · rintro ⟨_, hprint, text, texts, hshown, hrest, rfl⟩
        obtain ⟨text', htext, hprint⟩ := Option.bind_eq_some_iff.mp hprint
        obtain ⟨texts', htexts, heq⟩ := Option.bind_eq_some_iff.mp hprint
        cases heq
        exact ⟨⟨text, htext, hshown⟩, texts, htexts, hrest⟩
      · rintro ⟨⟨text, htext, hshown⟩, texts, htexts, hrest⟩
        exact ⟨text :: texts, by rw [htext, htexts]; rfl, text, texts, hshown, hrest, rfl⟩

/-- The messages that are sent arrive, however the transfers are split and interrupted.  A
stream that ends early delivers the messages that it wholly contains, and nothing else, if and
only if it does not end in a body.  Broadcast are the messages themselves, and the client
prints those, and only those, that are texts. -/
theorem delivers_contained_iff (messages : List Message)
    (hmessages : ∀ m ∈ messages, 0 < m.length ∧ m.length < 2 ^ 32) (writes : List Reply)
    (hwrites : Enough writes (frames messages).length) :
    ∃ sent, writeToServer writes messages [] = some sent ∧
      ∀ (uninit : ℕ → Vector Byte 4) (reads : List Reply), Enough reads (sent.length + 3) →
        processClient uninit reads sent = (messages, true) ∧
        (Shows (readFromServer uninit reads sent) messages ↔ ∀ m ∈ messages, IsText m) ∧
        ∀ cut,
          (processClient uninit reads (sent.take cut) = (contained messages cut, true) ↔
            ¬ EndsInBody messages cut) ∧
          (Shows (readFromServer uninit reads (sent.take cut)) (contained messages cut) ↔
            ¬ EndsInBody messages cut ∧ ∀ m ∈ contained messages cut, IsText m) := by
  have hne : ∀ m ∈ messages, m ≠ [] ∧ m.length < 2 ^ 32 :=
    fun m hm ↦ ⟨List.length_pos_iff.mp (hmessages m hm).1, (hmessages m hm).2⟩
  refine ⟨frames messages, writeToServer_eq hwrites (fun m hm ↦ (hne m hm).1) [], ?_⟩
  intro uninit reads hreads
  have hall (cut : ℕ) : receive uninit reads.length reads ((frames messages).take cut) [] =
      ⟨(contained messages cut).map Delivery.whole ++ partialDelivery messages cut, true⟩ := by
    have hle : ((frames messages).take cut).length ≤ (frames messages).length :=
      List.length_take_le' ..
    have hrounds := hreads.le_progress.trans (progress_le_length reads)
    exact receive_take hne cut (hreads.mono (Nat.add_le_add_right hle 3)) (by omega) []
  have hcut (cut : ℕ) :
      (processClient uninit reads ((frames messages).take cut) = (contained messages cut, true) ↔
        ¬ EndsInBody messages cut) ∧
      (Shows (readFromServer uninit reads ((frames messages).take cut)) (contained messages cut) ↔
        ¬ EndsInBody messages cut ∧ ∀ m ∈ contained messages cut, IsText m) := by
    rw [← partialDelivery_eq_nil_iff, ← forall₂_shownAs_iff]
    constructor
    · simp [processClient, hall cut, Function.comp_def]
    · simp only [Shows, readFromServer, hall cut, Option.map_eq_some_iff, Prod.mk.injEq, and_true,
        exists_eq_right]
  have hwhole := hcut (frames messages).length
  have hends := not_endsInBody_of_le (le_refl (frames messages).length)
  rw [List.take_length, contained_of_le le_rfl] at hwhole
  exact ⟨hwhole.1.mpr hends, hwhole.2.trans (and_iff_right hends), hcut⟩

/-- Two messages, of which the client sees the one with a NUL, and a stream that ends in the
header of the second one. -/
theorem delivers_contained_iff_two : ∃ sent,
    writeToServer (List.replicate 20 (.upTo 2)) [[104, 105, 0], [111]] [] = some sent ∧
      processClient (fun _ ↦ Vector.replicate 4 255)
        (.interrupted :: List.replicate 20 (.upTo 0)) sent = ([[104, 105, 0], [111]], true) ∧
      ¬ Shows (readFromServer (fun _ ↦ Vector.replicate 4 255)
        (.interrupted :: List.replicate 20 (.upTo 0)) sent) [[104, 105, 0], [111]] ∧
      Shows (readFromServer (fun _ ↦ Vector.replicate 4 255)
        (.interrupted :: List.replicate 20 (.upTo 0)) (sent.take 9)) [[104, 105, 0]] := by
  obtain ⟨sent, hsent, hreceived⟩ := delivers_contained_iff [[104, 105, 0], [111]] (by decide)
    (List.replicate 20 (.upTo 2)) ⟨by decide, by decide⟩
  have hlength : sent = frames [[104, 105, 0], [111]] := by
    have heq : writeToServer (List.replicate 20 (.upTo 2)) [[104, 105, 0], [111]] [] =
        some (frames [[104, 105, 0], [111]]) := by decide
    exact Option.some.inj (hsent.symm.trans heq)
  obtain ⟨hbroadcast, hprint, hcut⟩ := hreceived (fun _ ↦ Vector.replicate 4 255)
    (.interrupted :: List.replicate 20 (.upTo 0)) ⟨by decide, by rw [hlength]; decide⟩
  exact ⟨sent, hsent, hbroadcast, fun h ↦ absurd (hprint.mp h) (by decide),
    (hcut 9).2.mpr (by decide)⟩

/-- The server closes the connection after the first byte of a body of three, and the byte is
printed and broadcast.  A message without a NUL is broadcast, but the client reads behind it. -/
theorem half_body_delivered :
    frames [[104, 105, 0]] = [0, 0, 0, 3, 104, 105, 0] ∧ contained [[104, 105, 0]] 5 = [] ∧
      processClient (fun _ ↦ Vector.replicate 4 0) (List.replicate 4 (.upTo 9))
        ((frames [[104, 105, 0]]).take 5) = ([[104]], true) ∧
      readFromServer (fun _ ↦ Vector.replicate 4 0) (List.replicate 4 (.upTo 9))
        ((frames [[104, 105, 0]]).take 5) = some ([[104]], true) ∧
      processClient (fun _ ↦ Vector.replicate 4 0) (List.replicate 4 (.upTo 9))
        (frames [[104]]) = ([[104]], true) ∧
      readFromServer (fun _ ↦ Vector.replicate 4 0) (List.replicate 4 (.upTo 9))
        (frames [[104]]) = none := by
  decide

end SystemProgramming.CharmingChatroom
