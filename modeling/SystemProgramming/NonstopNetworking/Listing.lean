import SystemProgramming.NonstopNetworking.RoundTrip

/-!
# The list of files on its way to the client

`execute_list` computes the length of its answer in one loop and sends it in another.  The
client prints each block that it receives as a string, from a buffer on the stack that it has not
initialised and that has no room for a terminator.
-/

namespace SystemProgramming.NonstopNetworking

/-! ## The text of the list -/

/-- The names, separated by newlines. -/
def listText (names : List Filename) : List Byte := (names.intersperse [newline]).flatten

/-! ## The client -/

namespace Client

/-- `printf("%s", buf)`, which looks for the end of the string in the buffer. -/
def printString (buf : List Byte) : Outcome (List Byte) :=
  if 0 ∈ buf then .next (buf.takeWhile (· ≠ 0)) else .undefined

/-- The loop of `list_request`: what has been printed, and how many bytes have been read. -/
def printBlocks : ℕ → List Byte → ℕ → List Byte → List Reply → Outcome (List Byte × ℕ)
  | 0, _, _, _, _ => .hang
  | fuel + 1, buf, total, input, schedule => do
      let (block, rest, schedule) ← readInPieces .closed BUFFER_SIZE schedule input
      match block with
      | none => .next ([], total)
      | some [] => .next ([], total)
      | some block => do
        let buf := block ++ buf.drop block.length
        let printed ← printString buf
        let (more, total) ← printBlocks fuel buf (total + block.length) rest schedule
        pure (printed ++ more, total)

/-- What is printed, and the result of `check_read_byte`.  The terminator is stored at the end,
behind as many bytes as have been read altogether. -/
def listRequest (uninit : Vector Byte BUFFER_SIZE) (answer : List Byte) (schedule : List Reply) :
    Outcome (List Byte × ℕ) := do
  let (size, rest, schedule) ← readInPieces .closed 8 schedule answer
  match size with
  | none => .undefined
  | some size =>
    -- fewer bytes leave a part of `file_size` as it was
    if size.length < 8 then .undefined
    else do
      let (printed, total) ← printBlocks (rest.length + 1) uninit.toList 0 rest schedule
      if total < BUFFER_SIZE then pure (printed, checkReadByte total (ofSizeBytes size))
      else .undefined

/-- What `main` does with the answer when it asks for the list. -/
def mainList (uninit : Vector Byte BUFFER_SIZE) (answer : List Byte) (schedule : List Reply) :
    Outcome (Option (List Byte × ℕ)) := do
  let (result, rest, schedule) ← checkResponse answer schedule
  if result = 0 then pure none
  else do
    let (printed, check) ← listRequest uninit rest schedule
    pure (some (printed, check))

end Client

/-- The announced size is the number of bytes that follow it, and the client that gets the answer
prints the names and has nothing to complain about. -/
def ListRoundTrip (names : List Filename) (uninit : Vector Byte BUFFER_SIZE)
    (schedule schedule' : List Reply) : Prop :=
  ∃ size payload, sendList names schedule = .next (okMessage, size, payload) ∧
    ofSizeBytes size = payload.length ∧
    Client.mainList uninit (okMessage ++ (size ++ payload)) schedule' =
      .next (some (listText names, 0))

/-! ## What the server sends -/

section Server

variable {names : List Filename} {name : Filename} {schedule : List Reply} {data : List Byte}

theorem exists_writeInPieces_of_lt (data : List Byte) (hfail : .failed ∉ schedule)
    (hprogress : data.length < progress schedule) :
    ∃ rest, writeInPieces schedule data = .next (data, rest) ∧ .failed ∉ rest ∧
      progress schedule ≤ progress rest + (data.length + 1) := by
  by_cases hdata : data = []
  · subst hdata
    obtain ⟨rest, htransfer, hrest, hleft⟩ := transferAll_zero [] hfail hprogress []
    refine ⟨rest, ?_, hrest, by simpa using hleft⟩
    rw [writeInPieces, List.length_nil, htransfer]
  · obtain ⟨rest, hwrite, hrest, hleft⟩ := exists_writeInPieces hdata hfail hprogress.le
    exact ⟨rest, hwrite, hrest, by omega⟩

/-- The number of calls that the names need at most. -/
def listCalls (names : List Filename) : ℕ := (names.map fun name ↦ name.length + 3).sum

theorem listText_cons_cons (name name' : Filename) (names : List Filename) :
    listText (name :: name' :: names) = name ++ newline :: listText (name' :: names) := by
  simp [listText]

theorem sendNames_eq (hfail : .failed ∉ schedule) (hprogress : listCalls names ≤ progress schedule) :
    ∃ rest, sendNames names schedule = .next (listText names, rest) := by
  induction names generalizing schedule with
  | nil => exact ⟨schedule, rfl⟩
  | cons name names ih =>
      rw [listCalls, List.map_cons, List.sum_cons, ← listCalls] at hprogress
      obtain ⟨schedule₁, hname, hfail₁, hleft₁⟩ :=
        exists_writeInPieces_of_lt name hfail (by omega)
      cases names with
      | nil =>
          refine ⟨schedule₁, ?_⟩
          simp only [sendNames, hname, Outcome.next_bind, ne_eq, not_true_eq_false, if_false,
            Outcome.pure_eq, listText]
          simp
      | cons name' names =>
          have hne : name' :: names ≠ [] := List.cons_ne_nil _ _
          obtain ⟨schedule₂, hseparator, hfail₂, hleft₂⟩ :=
            exists_writeInPieces_of_lt [newline] hfail₁ (by rw [List.length_singleton]; omega)
          rw [List.length_singleton] at hleft₂
          obtain ⟨rest, hmore⟩ := ih hfail₂ (by omega)
          refine ⟨rest, ?_⟩
          rw [sendNames, hname, listText_cons_cons]
          simp only [Outcome.next_bind, if_pos hne, hseparator, hmore, Outcome.pure_eq,
            List.append_assoc, List.singleton_append]

theorem sendList_eq (hfail : .failed ∉ schedule)
    (hprogress : listCalls names + 13 ≤ progress schedule) :
    sendList names schedule = .next (okMessage, sizeBytes (listSize names), listText names) := by
  have hok : okMessage.length = 3 := rfl
  have height := length_sizeBytes (listSize names)
  obtain ⟨schedule₁, hwrite₁, hfail₁, hleft₁⟩ :=
    exists_writeInPieces_of_lt okMessage hfail (by omega)
  obtain ⟨schedule₂, hwrite₂, hfail₂, hleft₂⟩ :=
    exists_writeInPieces_of_lt (sizeBytes (listSize names)) hfail₁ (by omega)
  obtain ⟨rest, hnames⟩ : ∃ rest, sendNames names schedule₂ = .next (listText names, rest) :=
    sendNames_eq hfail₂ (by omega)
  simp only [sendList, hwrite₁, hwrite₂, hnames, Outcome.next_bind, Outcome.pure_eq]

/-- The sum of the first loop, in which every name counts with a newline. -/
theorem sumSizes_eq (names : List Filename) :
    sumSizes names = (names.map fun name ↦ name.length + 1).sum % 2 ^ 64 := by
  have hsum (total : ℕ) : names.foldl (fun size name ↦ (size + (name.length + 1)) % 2 ^ 64)
      (total % 2 ^ 64) = (total + (names.map fun name ↦ name.length + 1).sum) % 2 ^ 64 := by
    induction names generalizing total with
    | nil => simp
    | cons name names ih =>
        rw [List.foldl_cons, Nat.mod_add_mod, ih, List.map_cons, List.sum_cons, Nat.add_assoc]
  simpa [sumSizes] using hsum 0

theorem length_listText (hne : names ≠ []) :
    (listText names).length + 1 = (names.map fun name ↦ name.length + 1).sum := by
  induction names with
  | nil => exact absurd rfl hne
  | cons name names ih =>
      cases names with
      | nil => simp [listText]
      | cons name' names =>
          have hrest := ih (List.cons_ne_nil _ _)
          rw [List.map_cons, List.sum_cons, ← hrest, listText_cons_cons, List.length_append,
            List.length_cons]
          omega

/-- The two loops agree. -/
theorem listSize_eq (hfits : (listText names).length + 1 < 2 ^ 64) :
    listSize names = (listText names).length := by
  by_cases hne : names = []
  · subst hne
    rfl
  · have hsum : sumSizes names = (listText names).length + 1 := by
      rw [sumSizes_eq, ← length_listText hne]
      exact Nat.mod_eq_of_lt hfits
    rw [listSize, hsum, if_pos (Nat.succ_pos _), Nat.add_sub_cancel]

theorem zero_not_mem_listText (hnames : ∀ name ∈ names, (0 : Byte) ∉ name) :
    (0 : Byte) ∉ listText names := by
  induction names with
  | nil => simp [listText]
  | cons name names ih =>
      have hname := hnames name List.mem_cons_self
      cases names with
      | nil => simpa [listText] using hname
      | cons name' names =>
          have hrest := ih fun other hother ↦ hnames other (List.mem_cons_of_mem _ hother)
          have hnewline : (0 : Byte) ≠ newline := by decide
          rw [listText_cons_cons, List.mem_append, List.mem_cons]
          rintro (hmem | hmem | hmem)
          · exact hname hmem
          · exact hnewline hmem
          · exact hrest hmem

end Server

/-! ## What the client prints -/

namespace Client

variable {schedule : List Reply} {payload buf : List Byte}

theorem printString_append (hpayload : (0 : Byte) ∉ payload) (rest : List Byte) :
    printString (payload ++ rest) =
      if 0 ∈ rest then .next (payload ++ rest.takeWhile (· ≠ 0)) else .undefined := by
  have htake : (payload ++ rest).takeWhile (· ≠ 0) = payload ++ rest.takeWhile (· ≠ 0) := by
    apply List.takeWhile_append_of_pos
    intro b hb
    have hne : b ≠ 0 := fun heq ↦ hpayload (heq ▸ hb)
    simpa using hne
  have hmem : (0 : Byte) ∈ payload ++ rest ↔ 0 ∈ rest := by
    rw [List.mem_append]
    exact or_iff_right hpayload
  simp only [printString, hmem, htake]

theorem printBlocks_nil (fuel : ℕ) (buf : List Byte) (total : ℕ) (hfail : .failed ∉ schedule)
    (hprogress : 0 < progress schedule) :
    printBlocks (fuel + 1) buf total [] schedule = .next ([], total) := by
  obtain ⟨rest, hread, -, -⟩ := exists_readInPieces [] hfail (show 0 < BUFFER_SIZE by decide)
    (by rw [List.length_nil]; omega)
  rw [printBlocks, hread]
  rfl

/-- A text that is shorter than the buffer is followed by what was in the buffer before. -/
theorem printBlocks_of_lt (fuel : ℕ) (buf : List Byte) (hpayload : (0 : Byte) ∉ payload)
    (hne : payload ≠ []) (hlt : payload.length < BUFFER_SIZE) (hfail : .failed ∉ schedule)
    (hprogress : payload.length + 2 ≤ progress schedule) :
    printBlocks (fuel + 2) buf 0 payload schedule =
      if 0 ∈ buf.drop payload.length then
        .next (payload ++ (buf.drop payload.length).takeWhile (· ≠ 0), payload.length)
      else .undefined := by
  obtain ⟨rest, hread, hfail', hleft⟩ :=
    exists_readInPieces payload hfail (show 0 < BUFFER_SIZE by decide) (by omega)
  rw [List.take_of_length_le hlt.le, List.drop_eq_nil_of_le hlt.le] at hread
  cases hcons : payload with
  | nil => exact absurd hcons hne
  | cons b block =>
      rw [← hcons, printBlocks, hread, Outcome.next_bind]
      have hlast := printBlocks_nil fuel (payload ++ buf.drop payload.length)
        (0 + payload.length) hfail' (by omega)
      simp only [hcons, Nat.zero_add] at hlast ⊢
      rw [printString_append (hcons ▸ hpayload)]
      split
      · simp only [Outcome.next_bind, hlast, Outcome.pure_eq, List.append_nil]
      · rfl

/-- A text that fills the buffer leaves no room for a terminator. -/
theorem printBlocks_of_le (fuel : ℕ) (hpayload : (0 : Byte) ∉ payload)
    (hle : BUFFER_SIZE ≤ payload.length) (hbuf : buf.length = BUFFER_SIZE)
    (hfail : .failed ∉ schedule) (hprogress : payload.length ≤ progress schedule) :
    printBlocks (fuel + 1) buf 0 payload schedule = .undefined := by
  obtain ⟨rest, hread, -, -⟩ :=
    exists_readInPieces payload hfail (show 0 < BUFFER_SIZE by decide) (by omega)
  have hlength : (payload.take BUFFER_SIZE).length = BUFFER_SIZE := by
    rw [List.length_take]
    omega
  have hblock : (0 : Byte) ∉ payload.take BUFFER_SIZE :=
    fun hmem ↦ hpayload (List.mem_of_mem_take hmem)
  have hall : buf.drop BUFFER_SIZE = [] := List.drop_eq_nil_of_le hbuf.le
  rw [printBlocks, hread, Outcome.next_bind]
  cases hcons : payload.take BUFFER_SIZE with
  | nil =>
      rw [hcons] at hlength
      exact absurd hlength (by decide)
  | cons b block =>
      simp only
      rw [← hcons, hlength, hall, printString_append hblock]
      rfl

/-- The first line and the size are read before the names. -/
theorem mainList_eq (uninit : Vector Byte BUFFER_SIZE) (n : ℕ) (hfail : .failed ∉ schedule)
    (hprogress : payload.length + 13 ≤ progress schedule) :
    ∃ rest, .failed ∉ rest ∧ payload.length + 2 ≤ progress rest ∧
      mainList uninit (okMessage ++ (sizeBytes n ++ payload)) schedule = (do
        let (printed, total) ← printBlocks (payload.length + 1) uninit.toList 0 payload rest
        if total < BUFFER_SIZE then
          pure (some (printed, checkReadByte total (ofSizeBytes (sizeBytes n))))
        else .undefined) := by
  have hok : okMessage.length = 3 := rfl
  have height := length_sizeBytes n
  obtain ⟨schedule₁, hread₁, hfail₁, hleft₁⟩ := exists_readInPieces
    (okMessage ++ (sizeBytes n ++ payload)) hfail (show 0 < okMessage.length by omega) (by omega)
  rw [List.take_left' rfl, List.drop_left' rfl] at hread₁
  obtain ⟨schedule₂, hread₂, hfail₂, hleft₂⟩ := exists_readInPieces (sizeBytes n ++ payload) hfail₁
    (show 0 < 8 by omega) (by omega)
  rw [List.take_left' height, List.drop_left' height] at hread₂
  refine ⟨schedule₂, hfail₂, by omega, ?_⟩
  simp only [mainList, checkResponse, listRequest, hread₁, hread₂, Outcome.next_bind,
    Outcome.pure_eq, if_true, if_neg one_ne_zero, height, lt_irrefl, if_false]
  cases printBlocks (payload.length + 1) uninit.toList 0 payload schedule₂ with
  | next result =>
      simp only [Outcome.next_bind]
      split <;> rfl
  | exit => rfl
  | hang => rfl
  | undefined => rfl

end Client

/-! ## The condition -/

variable {names : List Filename} {uninit : Vector Byte BUFFER_SIZE}
  {schedule schedule' : List Reply}

/-- A byte of the buffer that is 0 stands right behind the text. -/
theorem takeWhile_drop_eq_nil_iff (buf : List Byte) (n : ℕ) :
    0 ∈ buf.drop n ∧ (buf.drop n).takeWhile (· ≠ 0) = [] ↔ buf[n]? = some 0 := by
  rw [← List.head?_drop]
  cases buf.drop n with
  | nil => simp
  | cons b rest =>
      by_cases hb : b = 0
      · simp [hb]
      · simp [hb]

/-- The client prints the names and finds the size right, and both stay in the buffer, exactly if
there is nothing to print, or the byte of the buffer behind the text happens to be 0. -/
theorem listRoundTrip_iff (hnames : ∀ name ∈ names, (0 : Byte) ∉ name)
    (hfail : .failed ∉ schedule) (hprogress : listCalls names + 13 ≤ progress schedule)
    (hfail' : .failed ∉ schedule') (hprogress' : (listText names).length + 13 ≤ progress schedule') :
    ListRoundTrip names uninit schedule schedule' ↔
      listText names = [] ∨ uninit.toList[(listText names).length]? = some 0 := by
  have hzero := zero_not_mem_listText hnames
  have hbuf : uninit.toList.length = BUFFER_SIZE := uninit.length_toList
  obtain ⟨rest, hrest, hleft, hmain⟩ :=
    Client.mainList_eq uninit (listSize names) hfail' hprogress'
  have hsend := sendList_eq hfail hprogress
  have hiff : ListRoundTrip names uninit schedule schedule' ↔
      ofSizeBytes (sizeBytes (listSize names)) = (listText names).length ∧
        Client.mainList uninit (okMessage ++ (sizeBytes (listSize names) ++ listText names))
          schedule' = .next (some (listText names, 0)) := by
    constructor
    · rintro ⟨size, payload, hsent, hsize, hclient⟩
      rw [hsend] at hsent
      cases hsent
      exact ⟨hsize, hclient⟩
    · rintro ⟨hsize, hclient⟩
      exact ⟨_, _, hsend, hsize, hclient⟩
  have hannounced (hlt : (listText names).length < BUFFER_SIZE) :
      ofSizeBytes (sizeBytes (listSize names)) = (listText names).length := by
    have hsmall : (listText names).length + 1 < 2 ^ 64 := by
      rw [BUFFER_SIZE] at hlt
      omega
    rw [listSize_eq hsmall]
    exact ofSizeBytes_sizeBytes (by omega)
  rw [hiff, hmain]
  by_cases hempty : listText names = []
  · have hpos : (listText names).length < BUFFER_SIZE := by
      rw [hempty]
      decide
    have hsize := hannounced hpos
    rw [hempty] at hsize
    rw [hempty, List.length_nil, Client.printBlocks_nil _ _ _ hrest (by omega)]
    simp only [true_or, iff_true]
    refine ⟨hsize, ?_⟩
    simp only [Outcome.next_bind, hsize, List.length_nil, checkReadByte_self, Outcome.pure_eq]
    rfl
  · simp only [hempty, false_or]
    obtain ⟨n, hn⟩ := Nat.exists_eq_succ_of_ne_zero (mt List.length_eq_zero_iff.mp hempty)
    by_cases hlt : (listText names).length < BUFFER_SIZE
    · have hblocks := Client.printBlocks_of_lt n uninit.toList hzero hempty hlt hrest hleft
      have hfuel : (listText names).length + 1 = n + 2 := by omega
      rw [hfuel, hblocks, ← takeWhile_drop_eq_nil_iff]
      by_cases hmem : 0 ∈ uninit.toList.drop (listText names).length
      · rw [if_pos hmem]
        simp only [Outcome.next_bind, if_pos hlt, Outcome.pure_eq, hannounced hlt, true_and,
          checkReadByte_self, Outcome.next.injEq, Option.some.injEq, Prod.mk.injEq, and_true,
          List.append_right_eq_self, hmem]
      · simp only [hmem, false_and, iff_false, not_and]
        rintro - hundefined
        cases hundefined
    · have hnone : uninit.toList[(listText names).length]? = none :=
        List.getElem?_eq_none (by omega)
      have hblocks := Client.printBlocks_of_le (listText names).length hzero
        (not_lt.mp hlt) hbuf hrest (by omega)
      rw [hblocks, hnone]
      constructor
      · rintro ⟨-, hundefined⟩
        cases hundefined
      · exact fun h ↦ by cases h

/-- Two files are listed, and the buffer happens to be empty. -/
theorem listRoundTrip_cleared : ListRoundTrip [ascii ['a'], ascii ['b']] (Vector.replicate _ 0)
    (List.replicate 30 (.upTo 0)) (List.replicate 30 (.upTo 1)) := by
  refine (listRoundTrip_iff ?_ ?_ ?_ ?_ ?_).mpr (Or.inr ?_)
  · decide
  · decide
  · decide
  · decide
  · decide
  · decide

/-- Where the buffer held letters, they are printed behind the name. -/
theorem stale_bytes_are_printed :
    ¬ ∀ (names : List Filename) (uninit : Vector Byte BUFFER_SIZE) (schedule schedule' : List Reply),
      (∀ name ∈ names, (0 : Byte) ∉ name) → .failed ∉ schedule →
        listCalls names + 13 ≤ progress schedule → .failed ∉ schedule' →
        (listText names).length + 13 ≤ progress schedule' →
        ListRoundTrip names uninit schedule schedule' := by
  intro h
  set uninit : Vector Byte BUFFER_SIZE := Vector.replicate _ 120 with huninit
  have hfail : .failed ∉ List.replicate 30 (Reply.upTo 0) := by decide
  have hprogress : listCalls [ascii ['a']] + 13 ≤ progress (List.replicate 30 (.upTo 0)) := by decide
  have hprogress' : (ascii ['a']).length + 13 ≤ progress (List.replicate 30 (.upTo 0)) := by decide
  obtain ⟨size, payload, hsent, -, hclient⟩ :=
    h [ascii ['a']] uninit _ _ (by decide) hfail hprogress hfail hprogress'
  rw [sendList_eq hfail hprogress] at hsent
  cases hsent
  obtain ⟨rest, hrest, hleft, hmain⟩ :=
    Client.mainList_eq uninit (listSize [ascii ['a']]) hfail hprogress'
  have hletters : ¬ 0 ∈ uninit.toList.drop (ascii ['a']).length := by
    rw [huninit, Vector.toList_replicate, List.drop_replicate]
    simp
  have hletter : (0 : Byte) ∉ ascii ['a'] := by decide
  have hblocks := Client.printBlocks_of_lt 0 uninit.toList hletter (by decide) (by decide) hrest
    hleft
  rw [if_neg hletters] at hblocks
  have hundefined := hmain.symm.trans hclient
  rw [show (ascii ['a']).length + 1 = 0 + 2 from rfl, hblocks] at hundefined
  cases hundefined

end SystemProgramming.NonstopNetworking
