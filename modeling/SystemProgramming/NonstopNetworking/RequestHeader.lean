import SystemProgramming.NonstopNetworking.Survival
import SystemProgramming.Lib.Substring

/-!
# The grammar of the request line

The client formats a line, and the server compares prefixes and cuts a name out at a fixed
offset.  The buffer is taken to be as long as the limit of `read_request_header`.
-/

namespace SystemProgramming.NonstopNetworking

/-! ## The client's side -/

def Verb.text : Verb → List Byte
  | GET => ascii ['G', 'E', 'T']
  | PUT => ascii ['P', 'U', 'T']
  | DELETE => ascii ['D', 'E', 'L', 'E', 'T', 'E']
  | LIST => ascii ['L', 'I', 'S', 'T']
  | V_UNKNOWN => []

def space : Byte := 32

/-- What `main` prints into its buffer: `"%s %s\n"`, or `"%s\n"` for LIST. -/
def requestLine (header : Header) : List Byte :=
  match header.command with
  | .LIST => Verb.text .LIST ++ [newline]
  | verb => verb.text ++ space :: header.filename ++ [newline]

/-- Neither the end of a string nor the end of a line. -/
def Plain (bytes : List Byte) : Prop := ∀ b ∈ bytes, b ≠ 0 ∧ b ≠ newline

/-- A request with a name of 1 to 255 bytes, or LIST. -/
def Header.Valid (header : Header) : Prop :=
  match header.command with
  | .V_UNKNOWN => False
  | .LIST => header.filename = []
  | _ => header.filename ≠ [] ∧ header.filename.length ≤ 255 ∧ Plain header.filename

/-! ## Streams -/

/-- The string in the buffer has a last character whenever it is looked at: the first byte is
not NUL, a reset does not come first, and the buffer is not filled without a NUL and without a
newline before its last byte. -/
structure Readable (ending : Ending) (input : List Byte) : Prop where
  head : input.head? ≠ some 0
  reset : input = [] → ending ≠ .reset
  full : BUFFER_SIZE ≤ input.length →
    0 ∈ input.take BUFFER_SIZE ∨ newline ∈ input.take (BUFFER_SIZE - 1)

/-- The client sends nothing more, and the server still waits for the end of the line. -/
def Waits (ending : Ending) (input : List Byte) : Prop :=
  ending = .stalled ∧ input.length < BUFFER_SIZE ∧ newline ∉ input.takeWhile (· ≠ 0)

/-- What the comparisons of `parsing_header` look for. -/
def prefixes : List (List Byte) :=
  [Verb.text .GET, Verb.text .PUT, Verb.text .LIST ++ [newline], Verb.text .DELETE]

/-- The request is not executed: the caller exits, or the server waits for ever. -/
def Refused {α : Type} : Outcome (α × ℕ) → Prop
  | .next (_, result) => result ≠ 0
  | .exit | .hang => True
  | .undefined => False

variable {ending : Ending} {buf pre input rest : List Byte} {b : Byte}

theorem Plain.not_mem (h : Plain pre) : 0 ∉ pre := fun hmem ↦ (h 0 hmem).1 rfl

theorem Plain.newline_not_mem (h : Plain pre) : newline ∉ pre := fun hmem ↦ (h newline hmem).2 rfl

theorem Plain.takeWhile_append (h : Plain pre) (rest : List Byte) :
    (pre ++ rest).takeWhile (· ≠ 0) = pre ++ rest.takeWhile (· ≠ 0) :=
  List.takeWhile_append_of_pos fun b hb ↦ by simpa using (h b hb).1

theorem Plain.takeWhile_append_nul (h : Plain pre) (rest : List Byte) :
    (pre ++ 0 :: rest).takeWhile (· ≠ 0) = pre := by
  rw [h.takeWhile_append]
  simp

/-- A stream is cut at its first NUL or newline. -/
theorem exists_plain (input : List Byte) : ∃ pre rest, Plain pre ∧ input = pre ++ rest ∧
    ∀ b, rest.head? = some b → b = 0 ∨ b = newline := by
  refine ⟨input.takeWhile fun b ↦ b ≠ 0 ∧ b ≠ newline, input.dropWhile fun b ↦ b ≠ 0 ∧ b ≠ newline,
    ?_, List.takeWhile_append_dropWhile.symm, ?_⟩
  · intro b hb
    simpa using List.mem_takeWhile_imp hb
  · intro b hb
    have hnot := List.head?_dropWhile_not (fun b : Byte ↦ b ≠ 0 ∧ b ≠ newline) input
    rw [hb] at hnot
    by_contra hne
    push Not at hne
    simp [hne] at hnot

/-! ## Reading -/

theorem readRequestHeader_of_le {usable bytes : ℕ} (h : bytes ≤ buf.length) :
    readRequestHeader usable bytes ending buf input = .next (buf, buf.length, input) := by
  unfold readRequestHeader
  exact if_pos h

/-- The buffer is filled without a NUL. -/
theorem readRequestHeader_full (hplain : Plain pre) (hlength : pre.length + 1 = BUFFER_SIZE)
    (hb : b ≠ 0) (rest : List Byte) :
    readRequestHeader BUFFER_SIZE BUFFER_SIZE ending [] (pre ++ b :: rest) = .undefined := by
  have hnul : 0 ∉ pre ++ [b] := by simp [hplain.not_mem, hb.symm]
  have hfull : ¬ (pre ++ [b]).length < BUFFER_SIZE := by
    rw [List.length_append, List.length_singleton]
    omega
  rw [readRequestHeader_append (by simp) hplain (by simp; omega) (by simp; omega), List.nil_append,
    readRequestHeader, if_neg (by omega), lastChar, cString, if_neg hnul, if_neg hfull,
    Option.bind_none]
  simp

/-- The last character of a string before a NUL. -/
theorem lastChar_behind_nul (hplain : Plain pre) (more : List Byte) :
    lastChar BUFFER_SIZE (pre ++ 0 :: more) = pre.getLast? := by
  rw [lastChar, cString, if_pos (by simp), hplain.takeWhile_append_nul, Option.bind_some]

/-- Behind a NUL the string does not change, and bytes are read up to the limit. -/
theorem readRequestHeader_behind_nul (hplain : Plain pre) (hne : pre ≠ []) {more : List Byte}
    (hlength : (pre ++ 0 :: more).length ≤ BUFFER_SIZE) :
    (ending = .stalled ∧ (pre ++ 0 :: (more ++ input)).length < BUFFER_SIZE) ∧
        readRequestHeader BUFFER_SIZE BUFFER_SIZE ending (pre ++ 0 :: more) input = .hang ∨
      ¬ (ending = .stalled ∧ (pre ++ 0 :: (more ++ input)).length < BUFFER_SIZE) ∧
        ∃ behind n rest,
          readRequestHeader BUFFER_SIZE BUFFER_SIZE ending (pre ++ 0 :: more) input =
            .next (pre ++ 0 :: behind, n, rest) := by
  induction input generalizing more with
  | nil =>
      rw [List.append_nil]
      by_cases hfull : BUFFER_SIZE ≤ (pre ++ 0 :: more).length
      · refine Or.inr ⟨fun h ↦ absurd h.2 (not_lt.mpr hfull), more, (pre ++ 0 :: more).length, [], ?_⟩
        exact readRequestHeader_of_le hfull
      · cases ending with
        | closed =>
            refine Or.inr ⟨by simp, more, (pre ++ 0 :: more).length, [], ?_⟩
            rw [readRequestHeader, if_neg hfull]
        | stalled =>
            refine Or.inl ⟨⟨rfl, not_le.mp hfull⟩, ?_⟩
            rw [readRequestHeader, if_neg hfull]
        | reset =>
            refine Or.inr ⟨by simp, more, (pre ++ 0 :: more).length, [], ?_⟩
            rw [readRequestHeader, if_neg hfull, lastChar_behind_nul hplain,
              if_pos (by simpa using hne)]
  | cons b input ih =>
      by_cases hfull : BUFFER_SIZE ≤ (pre ++ 0 :: more).length
      · refine Or.inr ⟨fun h ↦ ?_, more, (pre ++ 0 :: more).length, b :: input,
          readRequestHeader_of_le hfull⟩
        have hlt := h.2
        simp only [List.length_append, List.length_cons] at hlt hfull
        omega
      · have hlast : pre.getLast hne ≠ newline := (hplain _ (List.getLast_mem hne)).2
        have hbuf : pre ++ 0 :: more ++ [b] = pre ++ 0 :: (more ++ [b]) := by simp
        have hstep : readRequestHeader BUFFER_SIZE BUFFER_SIZE ending (pre ++ 0 :: more)
            (b :: input) =
              readRequestHeader BUFFER_SIZE BUFFER_SIZE ending (pre ++ 0 :: (more ++ [b])) input := by
          rw [readRequestHeader, if_neg hfull, hbuf, lastChar_behind_nul hplain,
            List.getLast?_eq_some_getLast hne]
          simp only [if_neg hfull, if_neg hlast]
        have hmore : more ++ b :: input = more ++ [b] ++ input := by simp
        rw [hstep, hmore]
        refine ih ?_
        simp only [List.length_append, List.length_cons, List.length_nil] at hfull ⊢
        omega

/-- A word whose newline can only be its last byte. -/
theorem prefix_line_iff {word : List Byte} (h : newline ∉ word.dropLast) :
    word <+: pre ++ newline :: rest ↔ word <+: pre ++ [newline] := by
  have hline : pre ++ [newline] <+: pre ++ newline :: rest := ⟨rest, by simp⟩
  constructor
  · intro hprefix
    by_cases hle : word.length ≤ (pre ++ [newline]).length
    · exact List.prefix_of_prefix_length_le hprefix hline hle
    · have hlonger : pre ++ [newline] <+: word.dropLast := by
        refine List.prefix_of_prefix_length_le hline ((List.dropLast_prefix word).trans hprefix) ?_
        rw [List.length_dropLast]
        omega
      exact absurd (hlonger.subset (by simp)) h
  · exact fun hprefix ↦ hprefix.trans hline

theorem not_readable_of_full (hplain : Plain pre) (hlength : pre.length + 1 = BUFFER_SIZE)
    (hb : b ≠ 0) (rest : List Byte) : ¬ Readable ending (pre ++ b :: rest) := by
  intro hreadable
  have hsize : BUFFER_SIZE ≤ (pre ++ b :: rest).length := by
    simp only [List.length_append, List.length_cons]
    omega
  have htake : (pre ++ b :: rest).take BUFFER_SIZE = pre ++ [b] := by
    rw [List.append_cons, List.take_left' (by simpa using hlength)]
  have htake' : (pre ++ b :: rest).take (BUFFER_SIZE - 1) = pre := List.take_left' (by omega)
  rcases hreadable.full hsize with hnul | hline
  · rw [htake] at hnul
    simp [hplain.not_mem, hb.symm] at hnul
  · rw [htake'] at hline
    exact hplain.newline_not_mem hline

theorem Plain.head_ne (hplain : Plain pre) (hne : pre ≠ []) (rest : List Byte) :
    (pre ++ rest).head? ≠ some 0 := by
  cases pre with
  | nil => exact absurd rfl hne
  | cons b pre => simpa using (hplain b (by simp)).1

/-- What becomes of a stream: the string in the buffer has no last character, or the server
waits, or the string that has been read begins with the same words. -/
def Reads (ending : Ending) (input : List Byte) : Prop :=
  readRequestHeader BUFFER_SIZE BUFFER_SIZE ending [] input = .undefined ∧
      ¬ Readable ending input ∨
    readRequestHeader BUFFER_SIZE BUFFER_SIZE ending [] input = .hang ∧
      Readable ending input ∧ Waits ending input ∨
    ∃ buf n rest, readRequestHeader BUFFER_SIZE BUFFER_SIZE ending [] input = .next (buf, n, rest) ∧
      Readable ending input ∧ ¬ Waits ending input ∧
      ∀ word : List Byte, 0 ∉ word → newline ∉ word.dropLast →
        (word <+: buf.takeWhile (· ≠ 0) ↔ word <+: input)

/-- The buffer is filled without a NUL. -/
theorem reads_full (hplain : Plain pre) (hlength : pre.length + 1 = BUFFER_SIZE) (hb : b ≠ 0)
    (rest : List Byte) : Reads ending (pre ++ b :: rest) :=
  Or.inl ⟨readRequestHeader_full hplain hlength hb rest, not_readable_of_full hplain hlength hb rest⟩

theorem readRequestHeader_plain (hplain : Plain pre) (hlength : pre.length < BUFFER_SIZE)
    (rest : List Byte) :
    readRequestHeader BUFFER_SIZE BUFFER_SIZE ending [] (pre ++ rest) =
      readRequestHeader BUFFER_SIZE BUFFER_SIZE ending pre rest := by
  rw [readRequestHeader_append (by simp) hplain (by simpa using hlength)
    (by simpa using hlength.le), List.nil_append]

/-- The stream ends behind plain bytes. -/
theorem reads_end (hplain : Plain pre) (hlength : pre.length < BUFFER_SIZE) : Reads ending pre := by
  have hread : readRequestHeader BUFFER_SIZE BUFFER_SIZE ending [] pre =
      readRequestHeader BUFFER_SIZE BUFFER_SIZE ending pre [] := by
    simpa using readRequestHeader_plain hplain hlength []
  have hfull : ¬ BUFFER_SIZE ≤ pre.length := not_le.mpr hlength
  have htake : pre.takeWhile (· ≠ 0) = pre := by simpa using hplain.takeWhile_append []
  have hhead : pre.head? ≠ some 0 := by
    by_cases hempty : pre = []
    · simp [hempty]
    · simpa using hplain.head_ne hempty []
  rw [Reads, hread]
  cases ending with
  | closed =>
      refine Or.inr (Or.inr ⟨pre, pre.length, [], ?_, ⟨hhead, by simp, ?_⟩, ?_, ?_⟩)
      · rw [readRequestHeader, if_neg hfull]
      · exact fun h ↦ absurd h hfull
      · simp [Waits]
      · exact fun word _ _ ↦ by rw [htake]
  | stalled =>
      refine Or.inr (Or.inl ⟨?_, ⟨hhead, by simp, ?_⟩, rfl, hlength, ?_⟩)
      · rw [readRequestHeader, if_neg hfull]
      · exact fun h ↦ absurd h hfull
      · rw [htake]
        exact hplain.newline_not_mem
  | reset =>
      have hlast : lastChar BUFFER_SIZE pre = pre.getLast? := by
        rw [lastChar, cString, if_neg hplain.not_mem, if_pos hlength, Option.bind_some]
      by_cases hempty : pre = []
      · refine Or.inl ⟨?_, fun h ↦ h.reset hempty rfl⟩
        rw [readRequestHeader, if_neg hfull, hlast, if_neg (by simp [hempty])]
      · refine Or.inr (Or.inr ⟨pre, pre.length, [], ?_, ⟨hhead, ?_, ?_⟩, ?_, ?_⟩)
        · rw [readRequestHeader, if_neg hfull, hlast, if_pos (by simpa using hempty)]
        · exact fun h ↦ absurd h hempty
        · exact fun h ↦ absurd h hfull
        · simp [Waits]
        · exact fun word _ _ ↦ by rw [htake]

/-- A NUL comes first. -/
theorem reads_nul (hplain : Plain pre) (hlength : pre.length < BUFFER_SIZE) (rest : List Byte) :
    Reads ending (pre ++ 0 :: rest) := by
  have hread : readRequestHeader BUFFER_SIZE BUFFER_SIZE ending [] (pre ++ 0 :: rest) =
      readRequestHeader BUFFER_SIZE BUFFER_SIZE ending pre (0 :: rest) :=
    readRequestHeader_plain hplain hlength _
  have hroom : ¬ BUFFER_SIZE ≤ pre.length := not_le.mpr hlength
  by_cases hempty : pre = []
  · subst hempty
    refine Or.inl ⟨?_, fun h ↦ h.head rfl⟩
    rw [hread, readRequestHeader, if_neg hroom]
    simp [lastChar, cString, BUFFER_SIZE]
  have hstep : readRequestHeader BUFFER_SIZE BUFFER_SIZE ending pre (0 :: rest) =
      readRequestHeader BUFFER_SIZE BUFFER_SIZE ending (pre ++ [0]) rest := by
    have hlast : pre.getLast hempty ≠ newline := (hplain _ (List.getLast_mem hempty)).2
    rw [readRequestHeader, if_neg hroom, lastChar_behind_nul hplain,
      List.getLast?_eq_some_getLast hempty]
    simp only [if_neg hroom, if_neg hlast]
  have hreadable : Readable ending (pre ++ 0 :: rest) := by
    refine ⟨hplain.head_ne hempty _, by simp, fun _ ↦ Or.inl ?_⟩
    rw [List.take_append, List.take_of_length_le hlength.le, List.mem_append]
    refine Or.inr ?_
    obtain ⟨k, hk⟩ := Nat.exists_eq_add_of_lt hlength
    rw [show BUFFER_SIZE - pre.length = k + 1 by omega]
    simp
  have hwaits : Waits ending (pre ++ 0 :: rest) ↔
      ending = .stalled ∧ (pre ++ 0 :: ([] ++ rest)).length < BUFFER_SIZE := by
    rw [Waits, hplain.takeWhile_append_nul, List.nil_append]
    simp [hplain.newline_not_mem]
  have hnul : (pre ++ [0]).length ≤ BUFFER_SIZE := by simpa using hlength
  rw [Reads, hread, hstep]
  rcases readRequestHeader_behind_nul hplain hempty hnul with
    ⟨hwait, hhang⟩ | ⟨hwait, behind, n, left, hnext⟩
  · exact Or.inr (Or.inl ⟨hhang, hreadable, hwaits.mpr hwait⟩)
  · refine Or.inr (Or.inr ⟨_, n, left, hnext, hreadable, fun h ↦ hwait (hwaits.mp h), ?_⟩)
    intro word hword _
    rw [hplain.takeWhile_append_nul, prefix_append_cons_iff hword]

/-- A newline comes first. -/
theorem reads_line (hplain : Plain pre) (hlength : pre.length + 1 < BUFFER_SIZE)
    (rest : List Byte) : Reads ending (pre ++ newline :: rest) := by
  have hnl : newline ≠ 0 := by decide
  have htake (more : List Byte) : (pre ++ newline :: more).takeWhile (· ≠ 0) =
      pre ++ newline :: more.takeWhile (· ≠ 0) := by
    rw [hplain.takeWhile_append, List.takeWhile_cons_of_pos (by simpa using hnl)]
  refine Or.inr (Or.inr ⟨pre ++ [newline], pre.length, rest, ?_, ⟨?_, by simp, ?_⟩, ?_, ?_⟩)
  · rw [readRequestHeader_line (by simp) hplain (by simpa using hlength) (by simp; omega)]
    simp
  · by_cases hempty : pre = []
    · simp [hempty, hnl]
    · exact hplain.head_ne hempty _
  · intro _
    refine Or.inr ?_
    rw [List.take_append, List.take_of_length_le (by omega), List.mem_append]
    refine Or.inr ?_
    rw [show BUFFER_SIZE - 1 - pre.length = BUFFER_SIZE - 2 - pre.length + 1 by omega]
    simp
  · rintro ⟨-, -, hnot⟩
    rw [htake] at hnot
    simp at hnot
  · intro word _ hword
    rw [htake, List.takeWhile_nil]
    exact (prefix_line_iff hword).symm

theorem reads (ending : Ending) (input : List Byte) : Reads ending input := by
  obtain ⟨pre, rest, hplain, rfl, hrest⟩ := exists_plain input
  by_cases hlong : BUFFER_SIZE ≤ pre.length
  · -- the buffer is filled by plain bytes
    have hlt : BUFFER_SIZE - 1 < pre.length := by
      rw [BUFFER_SIZE] at hlong ⊢
      omega
    have hsplit : pre ++ rest = pre.take (BUFFER_SIZE - 1) ++ pre[BUFFER_SIZE - 1] ::
        (pre.drop (BUFFER_SIZE - 1 + 1) ++ rest) := by
      rw [← List.cons_append, ← List.append_assoc, List.getElem_cons_drop, List.take_append_drop]
    have hplain' : Plain (pre.take (BUFFER_SIZE - 1)) := fun b hb ↦
      hplain b (List.mem_of_mem_take hb)
    have hlength : (pre.take (BUFFER_SIZE - 1)).length + 1 = BUFFER_SIZE := by
      rw [List.length_take, BUFFER_SIZE] at *
      omega
    rw [hsplit]
    exact reads_full hplain' hlength (hplain _ (List.getElem_mem hlt)).1 _
  rw [not_le] at hlong
  cases rest with
  | nil =>
      rw [List.append_nil]
      exact reads_end hplain hlong
  | cons b rest =>
      rcases hrest b rfl with rfl | rfl
      · exact reads_nul hplain hlong rest
      · by_cases hfits : pre.length + 1 < BUFFER_SIZE
        · exact reads_line hplain hfits rest
        · exact reads_full hplain (by omega) (by decide) rest

/-! ## Looking for a command -/

theorem strncmp_iff {buf word : List Byte} :
    strncmp buf word = true ↔ word <+: buf.takeWhile (· ≠ 0) :=
  List.isPrefixOf_iff_prefix

theorem verbOf_eq_none_iff {buf : List Byte} :
    verbOf buf = none ↔ ∀ word ∈ prefixes, ¬ word <+: buf.takeWhile (· ≠ 0) := by
  have hlist : (strncmp buf (ascii ['L', 'I', 'S', 'T']) &&
      strncmp buf (ascii ['L', 'I', 'S', 'T', '\n'])) =
        strncmp buf (ascii ['L', 'I', 'S', 'T', '\n']) := by
    rw [Bool.and_eq_right_iff_imp, strncmp_iff, strncmp_iff]
    exact (List.prefix_append (Verb.text .LIST) [newline]).trans
  simp only [prefixes, List.forall_mem_cons, ← strncmp_iff, verbOf, hlist]
  split_ifs <;> simp_all [Verb.text, ascii, newline]

theorem verbOf_text {verb : Verb} (hverb : verb = .GET ∨ verb = .PUT ∨ verb = .DELETE)
    (rest : List Byte) : verbOf (verb.text ++ rest) = some verb := by
  rcases hverb with rfl | rfl | rfl <;> rfl

theorem copyFilename_cases (usable : ℕ) (buf : List Byte) (offset : ℕ) :
    copyFilename usable buf offset = .undefined ∨
      ∃ name, copyFilename usable buf offset = .next name := by
  unfold copyFilename
  split
  · exact Or.inl rfl
  · split
    · exact Or.inl rfl
    · split
      · exact Or.inl rfl
      · exact Or.inr ⟨_, rfl⟩

variable {Φ : Type} {P : Platform Φ} {s : Server Φ} {fd : ℕ} {sock : Socket} {header : Header}
  {body : List Byte}

/-- Once a command is recognised, the request is not refused any more. -/
theorem Server.refused_iff (husable : P.usable = BUFFER_SIZE) :
    Refused (s.parsingHeader P fd sock) ↔ Readable sock.ending sock.input ∧
      (Waits sock.ending sock.input ∨ ∀ word ∈ prefixes, ¬ word <+: sock.input) := by
  rw [parsingHeader, husable]
  rcases reads sock.ending sock.input with
    ⟨hread, hreadable⟩ | ⟨hread, hreadable, hwaits⟩ |
      ⟨buf, n, rest, hread, hreadable, hwaits, hwords⟩
  · rw [hread]
    exact ⟨False.elim, fun h ↦ hreadable h.1⟩
  · rw [hread]
    exact ⟨fun _ ↦ ⟨hreadable, Or.inl hwaits⟩, fun _ ↦ trivial⟩
  · have hverb : verbOf buf = none ↔ ∀ word ∈ prefixes, ¬ word <+: sock.input := by
      rw [verbOf_eq_none_iff]
      refine forall₂_congr fun word hmem ↦ not_congr (hwords word ?_ ?_)
      · revert word
        decide
      · revert word
        decide
    rw [hread, Outcome.next_bind]
    refine Iff.trans ?_ (hverb.trans ⟨fun h ↦ ⟨hreadable, Or.inr h⟩, fun h ↦ h.2.resolve_left hwaits⟩)
    cases hbuf : verbOf buf with
    | none =>
        simp only [hbuf]
        exact ⟨fun _ ↦ trivial, fun _ ↦ one_ne_zero⟩
    | some verb =>
        rw [iff_false_right (by simp)]
        have hcopy := copyFilename_cases BUFFER_SIZE buf verb.offset
        cases verb <;> simp only [hbuf]
        case LIST => exact fun h ↦ h rfl
        all_goals
          rcases hcopy with hcopy | ⟨name, hcopy⟩
          · rw [hcopy]
            exact id
          · rw [hcopy]
            exact fun h ↦ h rfl

/-! ## A line of the client -/

/-- The header has been read, and the body is left in the socket. -/
def Server.parsed (s : Server Φ) (fd : ℕ) (sock : Socket) (header : Header) (body : List Byte) :
    Server Φ :=
  (s.setSocket fd { sock with input := body }).setInfo fd ⟨1, some header⟩

theorem Verb.text_plain (verb : Verb) : Plain verb.text := by
  unfold Plain
  cases verb <;> simp [Verb.text, ascii, newline]

theorem plain_line {verb : Verb} {name : Filename} (hname : Plain name) :
    Plain (verb.text ++ space :: name) := by
  intro b hb
  rcases List.mem_append.mp hb with hb | hb
  · exact verb.text_plain b hb
  · rcases List.mem_cons.mp hb with rfl | hb
    · decide
    · exact hname b hb

theorem requestLine_eq {verb : Verb} (hverb : verb = .GET ∨ verb = .PUT ∨ verb = .DELETE)
    (name : Filename) : requestLine ⟨verb, name⟩ = verb.text ++ space :: name ++ [newline] := by
  rcases hverb with rfl | rfl | rfl <;> rfl

theorem Verb.offset_le (verb : Verb) : verb.offset ≤ 7 := by
  cases verb <;> decide

/-- The verb is found, and what is copied depends on the length of the name. -/
theorem Server.parsingHeader_line {verb : Verb}
    (hverb : verb = .GET ∨ verb = .PUT ∨ verb = .DELETE) {name : Filename} (hname : Plain name)
    (hlength : name.length ≤ 255) (hroom : verb.offset + name.length + 1 < P.usable)
    (hinput : sock.input = verb.text ++ space :: name ++ newline :: body) :
    s.parsingHeader P fd sock =
      if name.length < 255 then .next (s.parsed fd sock ⟨verb, name⟩ body, 0) else .undefined := by
  have hplain : Plain (verb.text ++ space :: name) := plain_line hname
  have hoffset : verb.text.length + 1 = verb.offset := by
    rcases hverb with rfl | rfl | rfl <;> rfl
  have hseven := verb.offset_le
  have hline : (verb.text ++ space :: name).length = verb.offset + name.length := by
    rw [List.length_append, List.length_cons]
    omega
  have husable : (verb.text ++ space :: name).length + 1 < P.usable := by omega
  have hshort : (verb.text ++ space :: name).length < BUFFER_SIZE := by
    rw [BUFFER_SIZE]
    omega
  have hdrop : (verb.text ++ space :: name).drop verb.offset = name := by
    rw [List.append_cons, List.drop_left' (by simpa using hoffset)]
  have hread : readRequestHeader P.usable BUFFER_SIZE sock.ending [] sock.input =
      .next (verb.text ++ space :: name ++ [newline], (verb.text ++ space :: name).length, body) := by
    rw [hinput, readRequestHeader_line (by simp) hplain (by simpa using husable)
      (by simpa using hshort)]
    simp
  have hfound : verbOf (verb.text ++ space :: name ++ [newline]) = some verb := by
    rw [List.append_assoc]
    exact verbOf_text hverb _
  have hcopy : copyFilename P.usable (verb.text ++ space :: name ++ [newline]) verb.offset =
      if name.length < 255 then .next name else .undefined := by
    rw [copyFilename_line hplain husable (by omega), hdrop]
    simp only [hline, Nat.add_lt_add_iff_left]
  rw [parsingHeader, hread, Outcome.next_bind]
  rcases hverb with rfl | rfl | rfl
  all_goals
    simp only [hfound, if_neg hshort.ne, hcopy]
    split <;> rfl

theorem Server.parsingHeader_list (husable : P.usable = BUFFER_SIZE)
    (hinput : sock.input = Verb.text .LIST ++ newline :: body) :
    s.parsingHeader P fd sock = .next (s.parsed fd sock ⟨.LIST, []⟩ body, 0) := by
  have hread : readRequestHeader BUFFER_SIZE BUFFER_SIZE sock.ending [] sock.input =
      .next (Verb.text .LIST ++ [newline], 4, body) := by
    rw [hinput, readRequestHeader_line (by simp) (Verb.text_plain .LIST) (by decide) (by decide)]
    rfl
  have hfound : verbOf (Verb.text .LIST ++ [newline]) = some .LIST := rfl
  have hshort : ¬ 4 = BUFFER_SIZE := by decide
  rw [parsingHeader, husable, hread, Outcome.next_bind]
  simp only [hfound, if_neg hshort]
  rfl

theorem Header.Valid.length_le (hvalid : header.Valid) :
    header.filename.length ≤ (requestLine header).length := by
  obtain ⟨verb, name⟩ := header
  cases verb
  case LIST =>
    obtain rfl : name = [] := hvalid
    exact Nat.zero_le _
  all_goals
    simp only [requestLine, List.length_append, List.length_cons]
    omega

/-- Of all lines only those with the longest name are not parsed. -/
theorem Server.parsingHeader_requestLine_iff (husable : P.usable = BUFFER_SIZE)
    (hvalid : header.Valid) (hinput : sock.input = requestLine header ++ body) :
    s.parsingHeader P fd sock = .next (s.parsed fd sock header body, 0) ↔
      header.filename.length < 255 := by
  obtain ⟨verb, name⟩ := header
  by_cases hlist : verb = .LIST
  · subst hlist
    obtain rfl : name = [] := hvalid
    rw [parsingHeader_list husable (hinput.trans (List.append_assoc ..))]
    simp
  have hverb : verb = .GET ∨ verb = .PUT ∨ verb = .DELETE := by
    cases verb
    case V_UNKNOWN => exact hvalid.elim
    all_goals simp at hlist ⊢
  have hname : name.length ≤ 255 ∧ Plain name := by
    rcases hverb with rfl | rfl | rfl <;> exact hvalid.2
  have hline : sock.input = verb.text ++ space :: name ++ newline :: body := by
    rw [hinput, requestLine_eq hverb, ← List.append_cons]
  have hroom : verb.offset + name.length + 1 < P.usable := by
    have hseven := verb.offset_le
    rw [husable, BUFFER_SIZE]
    omega
  rw [parsingHeader_line hverb hname.2 hname.1 hroom hline]
  split <;> simp_all

/-- The grammar is the server's for the streams that begin with a line whose name can be copied,
and for those on which the server waits or does not find what it looks for. -/
theorem Server.grammar_iff (husable : P.usable = BUFFER_SIZE) :
    ((∀ header body, header.Valid → sock.input = requestLine header ++ body →
          s.parsingHeader P fd sock = .next (s.parsed fd sock header body, 0)) ∧
        ((∀ header : Header, header.Valid → ¬ requestLine header <+: sock.input) →
          Refused (s.parsingHeader P fd sock))) ↔
      (∀ header : Header, header.Valid → requestLine header <+: sock.input →
          header.filename.length < 255) ∧
        ((∀ header : Header, header.Valid → ¬ requestLine header <+: sock.input) →
          Readable sock.ending sock.input ∧
            (Waits sock.ending sock.input ∨ ∀ word ∈ prefixes, ¬ word <+: sock.input)) := by
  rw [refused_iff husable]
  refine and_congr_left fun _ ↦ ⟨?_, ?_⟩
  · rintro hparsed header hvalid ⟨body, hbody⟩
    exact (parsingHeader_requestLine_iff husable hvalid hbody.symm).mp
      (hparsed header body hvalid hbody.symm)
  · intro hshort header body hvalid hinput
    have hprefix : requestLine header <+: sock.input := ⟨body, hinput.symm⟩
    exact (parsingHeader_requestLine_iff husable hvalid hinput).mpr
      (hshort header hvalid hprefix)

/-! ## Two streams -/

/-- A buffer as long as the limit. -/
def roomyPlatform : Platform (Path → Option (List Byte)) :=
  { smallPlatform with usable := BUFFER_SIZE, usable_pos := Nat.succ_pos 1023 }

/-- A name that can be copied. -/
theorem Server.grammar_iff_get :
    (Server.init fun _ ↦ none).parsingHeader roomyPlatform 5
        ⟨requestLine ⟨.GET, ascii ['a']⟩ ++ ascii ['o', 'k'], .closed, .all, [], true⟩ =
      .next ((Server.init fun _ ↦ none).parsed 5
        ⟨requestLine ⟨.GET, ascii ['a']⟩ ++ ascii ['o', 'k'], .closed, .all, [], true⟩
        ⟨.GET, ascii ['a']⟩ (ascii ['o', 'k']), 0) := by
  have hvalid : Header.Valid ⟨.GET, ascii ['a']⟩ := by
    simp [Header.Valid, ascii, Plain, newline]
  refine ((Server.grammar_iff rfl).mpr ⟨?_, ?_⟩).1 _ _ hvalid rfl
  · intro header hheader hprefix
    have hle : (requestLine header).length ≤ 8 := hprefix.length_le
    have hname := hheader.length_le
    omega
  · intro hnone
    exact absurd (List.prefix_append _ _) (hnone _ hvalid)

/-- No space stands behind the verb, and the name is taken from behind the next byte. -/
theorem Server.space_not_checked : ∃ sock : Socket,
    (∀ header : Header, header.Valid → ¬ requestLine header <+: sock.input) ∧
      (Server.init fun _ ↦ none).parsingHeader roomyPlatform 5 sock =
        .next ((Server.init fun _ ↦ none).parsed 5 sock ⟨.GET, ascii ['a']⟩ [], 0) := by
  refine ⟨⟨ascii ['G', 'E', 'T', 'x', 'a', '\n'], .closed, .all, [], true⟩, ?_, ?_⟩
  · rintro ⟨verb, name⟩ hvalid
    cases verb
    case V_UNKNOWN => exact hvalid.elim
    all_goals simp [requestLine, Verb.text, ascii, space]
  · have hline : Plain (ascii ['G', 'E', 'T', 'x', 'a']) := by
      simp [ascii, Plain, newline]
    have hread : readRequestHeader BUFFER_SIZE BUFFER_SIZE .closed []
        (ascii ['G', 'E', 'T', 'x', 'a', '\n']) =
          .next (ascii ['G', 'E', 'T', 'x', 'a'] ++ [newline], 5, []) :=
      readRequestHeader_line (by simp) hline (by decide) (by decide)
    have hverb : verbOf (ascii ['G', 'E', 'T', 'x', 'a'] ++ [newline]) = some .GET := rfl
    have hcopy : copyFilename BUFFER_SIZE (ascii ['G', 'E', 'T', 'x', 'a'] ++ [newline]) 4 =
        .next (ascii ['a']) :=
      (copyFilename_line hline (by decide) (by decide)).trans (if_pos (by decide))
    have hshort : ¬ 5 = BUFFER_SIZE := by decide
    simp only [parsingHeader, roomyPlatform, hread, Outcome.next_bind, hverb, if_neg hshort,
      Verb.offset, hcopy]
    rfl

end SystemProgramming.NonstopNetworking
