import SystemProgramming.Lib.CString

/-!
# The camel caser

`camel_caser` reads its input once, with two flags and a word that grows. For every punctuation
character it stores the sentence in front of it. The blocks that `realloc` is asked for are taken to
be granted; the counters are `int`s.
-/

namespace SystemProgramming.ExtremeEdgeCases

/-- The characters of the C locale. -/
abbrev Ascii := Fin 128

def ispunct (c : Ascii) : Bool :=
  33 ≤ c ∧ c ≤ 47 ∨ 58 ≤ c ∧ c ≤ 64 ∨ 91 ≤ c ∧ c ≤ 96 ∨ 123 ≤ c ∧ c ≤ 126

def isspace (c : Ascii) : Bool := 9 ≤ c ∧ c ≤ 13 ∨ c = 32

def isupper (c : Ascii) : Bool := 65 ≤ c ∧ c ≤ 90

def islower (c : Ascii) : Bool := 97 ≤ c ∧ c ≤ 122

def isalpha (c : Ascii) : Bool := isupper c || islower c

def tolower (c : Ascii) : Ascii := if isupper c then c + 32 else c

def toupper (c : Ascii) : Ascii := if islower c then c - 32 else c

/-! ## The code -/

structure State where
  outputStr : List (List Ascii)
  wordCnt : ℕ
  newSent : Bool
  newWord : Bool
  word : List Ascii
  wordSize : ℕ
deriving DecidableEq

def State.start : State := ⟨[], 0, true, true, [], 0⟩

/-- One round of the loop. -/
def State.read (s : State) (c : Ascii) : Option State :=
  if ispunct c then do
    let wordCnt ← increment s.wordCnt
    let _ ← increment s.wordSize
    some {
      outputStr := s.outputStr ++ [s.word ++ [0]]
      wordCnt := wordCnt
      newSent := true
      newWord := true
      word := []
      wordSize := 0 }
  else if isspace c then some { s with newWord := true }
  else do
    let wordSize ← increment s.wordSize
    if isalpha c then
      let d := if s.newSent then tolower c else if s.newWord then toupper c else tolower c
      some { s with
        word := s.word ++ [d]
        wordSize := wordSize
        newWord := false
        newSent := false }
    else some { s with
      word := s.word ++ [c]
      wordSize := wordSize }

/-- The array of strings, whose last entry is `NULL`. -/
def State.finish (s : State) : Option (List (Option (List Ascii))) := do
  let _ ← increment s.wordCnt
  some (s.outputStr.map some ++ [none])

/-- The loop runs until the terminator. Memory that ends before is left. -/
def loop : State → List Ascii → Option (List (Option (List Ascii)))
  | _, [] => none
  | s, c :: memory => if c = 0 then s.finish else (s.read c).bind fun s ↦ loop s memory

/-- The inner `none` is `NULL`. -/
def camelCaser (inputStr : Option (List Ascii)) : Option (Option (List (Option (List Ascii)))) :=
  match inputStr with
  | none => some none
  | some memory => (loop .start memory).map some

/-! ## The definition by sentences -/

/-- The texts in front of the punctuation characters. -/
def sentences (text : List Ascii) : List (List Ascii) := (text.splitOnP ispunct).dropLast

/-- The text behind the last punctuation character. -/
def remainder (text : List Ascii) : List Ascii := (text.splitOnP ispunct).getLastD []

/-- A whitespace stands behind the last letter, so that the next letter is the first one behind
it. -/
def afterSpace (before : List Ascii) : Bool :=
  (before.rtakeWhile fun b ↦ !isalpha b).any isspace

/-- What a character of a sentence becomes, given what stands in front of it. -/
def cased (before : List Ascii) (c : Ascii) : List Ascii :=
  if isspace c then []
  else if isalpha c then
    if before.any isalpha && afterSpace before then [toupper c] else [tolower c]
  else [c]

/-- The sentence without whitespace, its words capitalised except for the first. -/
def camelCase (sentence : List Ascii) : List Ascii :=
  (sentence.mapIdx fun i c ↦ cased (sentence.take i) c).flatten

/-- The strings that are to be returned. -/
def entries (text : List Ascii) : List (Option (List Ascii)) :=
  (sentences text).map fun sentence ↦ some (camelCase sentence ++ [0])

example : sentences [32, 65, 50, 46, 97, 32, 98, 33, 99] = [[32, 65, 50], [97, 32, 98]] := by decide

def characters (text : List Ascii) : ℕ := text.countP fun c ↦ !isspace c

/-- The counters stay below their limit. -/
structure Fits (text : List Ascii) : Prop where
  count : text.countP ispunct + 1 < 2 ^ 31
  sentences : ∀ sentence ∈ sentences text, characters sentence + 1 < 2 ^ 31
  remainder : characters (remainder text) < 2 ^ 31

/-- The strings are returned, and a text that ends with a punctuation character can be read
apart from what follows. -/
structure Correct (text : List Ascii) : Prop where
  returned : ∀ memory, Terminated memory text →
    camelCaser (some memory) = some (some (entries text ++ [none]))
  append : ∀ front c behind, text = front ++ [c] ++ behind → ispunct c →
    ∀ memory memory₁ memory₂, Terminated memory text → Terminated memory₁ (front ++ [c]) →
      Terminated memory₂ behind → ∃ first second,
        camelCaser (some memory₁) = some (some (first ++ [none])) ∧
        camelCaser (some memory₂) = some (some (second ++ [none])) ∧
        camelCaser (some memory) = some (some (first ++ second ++ [none]))

/-! ## Sentences -/

variable {text before front behind : List Ascii} {done : List (List Ascii)} {c : Ascii}
  {s t : State} {n : ℕ}

theorem sentences_append_cons (hc : ispunct c) :
    sentences (front ++ c :: behind) = front.splitOnP ispunct ++ sentences behind := by
  rw [sentences, List.splitOnP_append_cons _ _ hc,
    List.dropLast_append_of_ne_nil (List.splitOnP_ne_nil _ _), sentences]

theorem remainder_append_cons (hc : ispunct c) :
    remainder (front ++ c :: behind) = remainder behind := by
  rw [remainder, List.splitOnP_append_cons _ _ hc, List.getLastD_eq_getLast?,
    List.getLast?_append_of_ne_nil _ (List.splitOnP_ne_nil _ _), ← List.getLastD_eq_getLast?,
    remainder]

theorem sentences_of_none (h : ∀ c ∈ before, ispunct c = false) : sentences before = [] := by
  rw [sentences, List.splitOnP_eq_singleton h, List.dropLast_singleton]

@[simp] theorem sentences_nil : sentences [] = [] := sentences_of_none (by simp)

theorem remainder_of_none (h : ∀ c ∈ before, ispunct c = false) : remainder before = before := by
  rw [remainder, List.splitOnP_eq_singleton h]
  rfl

@[simp] theorem remainder_nil : remainder [] = [] := remainder_of_none (by simp)

theorem not_ispunct_concat (h : ∀ c ∈ before, ispunct c = false) (hc : ispunct c = false) :
    ∀ b ∈ before ++ [c], ispunct b = false := by
  intro b hb
  rcases List.mem_append.mp hb with hb | hb
  · exact h b hb
  · rwa [List.mem_singleton.mp hb]

theorem camelCase_concat : camelCase (before ++ [c]) = camelCase before ++ cased before c := by
  rw [camelCase, List.mapIdx_append, List.flatten_append, camelCase]
  congr 1
  · congr 1
    apply List.ext_getElem
    · simp
    · intro i hi hi'
      rw [List.length_mapIdx] at hi
      rw [List.getElem_mapIdx, List.getElem_mapIdx, List.take_append_of_le_length hi.le]
  · simp

theorem characters_concat :
    characters (before ++ [c]) = characters before + if isspace c then 0 else 1 := by
  rw [characters, List.countP_append, List.countP_singleton, characters]
  cases isspace c <;> rfl

/-! ## The counters -/

/-- The counters stay below their limit while `text` is read, where `n` sentences have been read
before and `before` is the beginning of the current one. -/
structure FitsFrom (n : ℕ) (before text : List Ascii) : Prop where
  count : n + text.countP ispunct + 1 < 2 ^ 31
  sentences : ∀ sentence ∈ sentences (before ++ text), characters sentence + 1 < 2 ^ 31
  remainder : characters (remainder (before ++ text)) < 2 ^ 31

theorem fitsFrom_zero_iff : FitsFrom 0 [] text ↔ Fits text := by
  constructor
  · intro h
    exact ⟨Nat.zero_add (text.countP ispunct) ▸ h.count, h.sentences, h.remainder⟩
  · intro h
    exact ⟨(Nat.zero_add (text.countP ispunct)).symm ▸ h.count, h.sentences, h.remainder⟩

theorem fitsFrom_nil_iff (hbefore : ∀ c ∈ before, ispunct c = false)
    (hsize : characters before < 2 ^ 31) : FitsFrom n before [] ↔ n + 1 < 2 ^ 31 := by
  constructor
  · exact fun h ↦ h.count
  · intro h
    refine ⟨h, ?_, ?_⟩
    · simp [sentences_of_none hbefore]
    · rwa [List.append_nil, remainder_of_none hbefore]

theorem fitsFrom_punct_iff (hbefore : ∀ c ∈ before, ispunct c = false) (hc : ispunct c) :
    FitsFrom n before (c :: text) ↔ characters before + 1 < 2 ^ 31 ∧ FitsFrom (n + 1) [] text := by
  have hcount : n + (c :: text).countP ispunct = n + 1 + text.countP ispunct := by
    rw [List.countP_cons_of_pos hc]
    omega
  have hsentences : sentences (before ++ c :: text) = before :: sentences text := by
    rw [sentences_append_cons hc, List.splitOnP_eq_singleton hbefore, List.singleton_append]
  constructor
  · intro h
    refine ⟨h.sentences before ?_, ?_, fun sentence hmem ↦ h.sentences sentence ?_, ?_⟩
    · rw [hsentences]
      exact List.mem_cons_self
    · exact hcount ▸ h.count
    · rw [hsentences]
      exact List.mem_cons_of_mem _ hmem
    · have hremainder := h.remainder
      rwa [remainder_append_cons hc] at hremainder
  · rintro ⟨hsize, h⟩
    refine ⟨hcount.symm ▸ h.count, fun sentence hmem ↦ ?_, ?_⟩
    · rw [hsentences] at hmem
      rcases List.mem_cons.mp hmem with rfl | hmem
      · exact hsize
      · exact h.sentences sentence hmem
    · rw [remainder_append_cons hc]
      exact h.remainder

theorem fitsFrom_concat_iff (hc : ispunct c = false) :
    FitsFrom n before (c :: text) ↔ FitsFrom n (before ++ [c]) text := by
  have happend : before ++ c :: text = before ++ [c] ++ text := by
    rw [List.append_assoc, List.singleton_append]
  have hcount : (c :: text).countP ispunct = text.countP ispunct :=
    List.countP_cons_of_neg (by simp [hc])
  constructor
  · rintro ⟨hn, hsentences, hremainder⟩
    exact ⟨hcount ▸ hn, happend ▸ hsentences, happend ▸ hremainder⟩
  · rintro ⟨hn, hsentences, hremainder⟩
    exact ⟨hcount.symm ▸ hn, happend.symm ▸ hsentences, happend.symm ▸ hremainder⟩

/-- What has been read of the current sentence fits. -/
theorem FitsFrom.characters_lt (h : FitsFrom n before text)
    (hbefore : ∀ c ∈ before, ispunct c = false) : characters before < 2 ^ 31 := by
  induction text generalizing before with
  | nil =>
      have hremainder := h.remainder
      rwa [List.append_nil, remainder_of_none hbefore] at hremainder
  | cons c text ih =>
      cases hc : ispunct c with
      | true => exact (Nat.lt_succ_self _).trans ((fitsFrom_punct_iff hbefore hc).mp h).1
      | false =>
          have hnext := ih ((fitsFrom_concat_iff hc).mp h) (not_ispunct_concat hbefore hc)
          rw [characters_concat] at hnext
          omega

/-! ## The loop -/

/-- The state after some sentences and the beginning of the next one. -/
structure Within (s : State) (done : List (List Ascii)) (before : List Ascii) : Prop where
  outputStr : s.outputStr = done.map fun sentence ↦ camelCase sentence ++ [0]
  wordCnt : s.wordCnt = done.length
  newSent : s.newSent = !before.any isalpha
  newWord : before.any isalpha → s.newWord = afterSpace before
  word : s.word = camelCase before
  wordSize : s.wordSize = characters before
  sentence : ∀ c ∈ before, ispunct c = false

theorem within_start : Within .start [] [] := by
  constructor <;> simp [State.start, camelCase, characters]

theorem Within.read_punct (h : Within s done before) (hc : ispunct c)
    (hcount : done.length + 1 < 2 ^ 31) (hsize : characters before + 1 < 2 ^ 31) :
    ∃ t, s.read c = some t ∧ Within t (done ++ [before]) [] := by
  refine ⟨_, by rw [State.read, if_pos hc, h.wordCnt, h.wordSize, increment_of_lt hcount,
    increment_of_lt hsize]; rfl, ?_⟩
  constructor <;> simp [h.outputStr, h.word, camelCase, characters]

theorem Within.read_space (h : Within s done before) (hc : ispunct c = false) (hspace : isspace c) :
    ∃ t, s.read c = some t ∧ Within t done (before ++ [c]) := by
  have halpha : isalpha c = false := by
    revert hspace
    revert c
    decide
  refine ⟨_, by rw [State.read, hc, if_neg (by decide), if_pos hspace], ?_⟩
  constructor
  case outputStr => exact h.outputStr
  case wordCnt => exact h.wordCnt
  case newSent => simpa [halpha] using h.newSent
  case newWord =>
    intro _
    simp [afterSpace, halpha, hspace]
  case word => simp [camelCase_concat, cased, hspace, h.word]
  case wordSize => simp [characters_concat, hspace, h.wordSize]
  case sentence => exact not_ispunct_concat h.sentence hc

theorem Within.read_letter (h : Within s done before) (hc : ispunct c = false)
    (hspace : isspace c = false) (halpha : isalpha c) (hsize : characters before + 1 < 2 ^ 31) :
    ∃ t, s.read c = some t ∧ Within t done (before ++ [c]) := by
  have hcased : cased before c =
      [if s.newSent then tolower c else if s.newWord then toupper c else tolower c] := by
    rw [cased, hspace, if_neg (by decide), if_pos halpha, h.newSent]
    cases hany : before.any isalpha with
    | false => simp
    | true =>
        rw [h.newWord hany]
        cases afterSpace before <;> simp
  refine ⟨_, by rw [State.read, hc, if_neg (by decide), hspace, if_neg (by decide), h.wordSize,
    increment_of_lt hsize, Option.bind_eq_bind, Option.bind_some, if_pos halpha], ?_⟩
  constructor
  case outputStr => exact h.outputStr
  case wordCnt => exact h.wordCnt
  case newSent => simp [halpha]
  case newWord =>
    intro _
    simp [afterSpace, halpha]
  case word => rw [camelCase_concat, hcased, ← h.word]
  case wordSize => simp [characters_concat, hspace]
  case sentence => exact not_ispunct_concat h.sentence hc

theorem Within.read_other (h : Within s done before) (hc : ispunct c = false)
    (hspace : isspace c = false) (halpha : isalpha c = false)
    (hsize : characters before + 1 < 2 ^ 31) :
    ∃ t, s.read c = some t ∧ Within t done (before ++ [c]) := by
  refine ⟨_, by rw [State.read, hc, if_neg (by decide), hspace, if_neg (by decide), h.wordSize,
    increment_of_lt hsize, Option.bind_eq_bind, Option.bind_some, if_neg (by simp [halpha])], ?_⟩
  constructor
  case outputStr => exact h.outputStr
  case wordCnt => exact h.wordCnt
  case newSent => simpa [halpha] using h.newSent
  case newWord =>
    intro hany
    have hbefore : before.any isalpha := by simpa [halpha] using hany
    rw [h.newWord hbefore, afterSpace, afterSpace,
      List.rtakeWhile_concat_pos _ _ _ (by simp [halpha])]
    simp [hspace]
  case word => simp [camelCase_concat, cased, hspace, halpha, h.word]
  case wordSize => simp [characters_concat, hspace]
  case sentence => exact not_ispunct_concat h.sentence hc

/-- Every character but a punctuation character and a whitespace is counted. -/
theorem Within.read_not_punct (h : Within s done before) (hc : ispunct c = false)
    (hsize : characters (before ++ [c]) < 2 ^ 31) :
    ∃ t, s.read c = some t ∧ Within t done (before ++ [c]) := by
  cases hspace : isspace c with
  | true => exact h.read_space hc hspace
  | false =>
      rw [characters_concat, hspace, if_neg (by decide)] at hsize
      cases halpha : isalpha c with
      | true => exact h.read_letter hc hspace halpha hsize
      | false => exact h.read_other hc hspace halpha hsize

theorem Within.read_overflow (h : Within s done before) (hc : ispunct c = false)
    (hsize : ¬ characters (before ++ [c]) < 2 ^ 31) (hbefore : characters before < 2 ^ 31) :
    s.read c = none := by
  cases hspace : isspace c with
  | true =>
      rw [characters_concat, hspace, if_pos rfl] at hsize
      exact absurd hbefore hsize
  | false =>
      rw [characters_concat, hspace, if_neg (by decide)] at hsize
      rw [State.read, hc, if_neg (by decide), hspace, if_neg (by decide), h.wordSize,
        increment_of_not_lt hsize]
      rfl

/-- By induction on the text, with what has been read of the current sentence. -/
theorem Within.loop (h : Within s done before) (hsize : characters before < 2 ^ 31)
    (htext : 0 ∉ text) (rest : List Ascii) :
    (FitsFrom done.length before text → loop s (text ++ 0 :: rest) =
      some ((done ++ sentences (before ++ text)).map
        (fun sentence ↦ some (camelCase sentence ++ [0])) ++ [none])) ∧
    (¬ FitsFrom done.length before text → loop s (text ++ 0 :: rest) = none) := by
  induction text generalizing s done before with
  | nil =>
      have hloop : ExtremeEdgeCases.loop s ([] ++ 0 :: rest) = s.finish := if_pos rfl
      rw [fitsFrom_nil_iff h.sentence hsize, hloop, State.finish, h.wordCnt]
      constructor
      · intro hcount
        rw [increment_of_lt hcount, List.append_nil, sentences_of_none h.sentence, List.append_nil,
          h.outputStr, List.map_map]
        rfl
      · intro hcount
        rw [increment_of_not_lt hcount]
        rfl
  | cons c text ih =>
      rw [List.mem_cons, not_or] at htext
      have hloop : ExtremeEdgeCases.loop s (c :: text ++ 0 :: rest) =
          (s.read c).bind fun s ↦ ExtremeEdgeCases.loop s (text ++ 0 :: rest) :=
        if_neg (Ne.symm htext.1)
      rw [hloop]
      cases hc : ispunct c with
      | true =>
          rw [fitsFrom_punct_iff h.sentence hc]
          by_cases hone : done.length + 1 < 2 ^ 31 ∧ characters before + 1 < 2 ^ 31
          · obtain ⟨t, hread, ht⟩ := h.read_punct hc hone.1 hone.2
            have hrest := ih ht (by simp [characters]) htext.2
            rw [List.length_append, List.length_singleton, List.nil_append] at hrest
            have hsplit : done ++ sentences (before ++ c :: text) =
                done ++ [before] ++ sentences text := by
              rw [sentences_append_cons hc, List.splitOnP_eq_singleton h.sentence, List.append_assoc]
            rw [hread, Option.bind_some, hsplit, and_iff_right hone.2]
            exact hrest
          · have hread : s.read c = none := by
              rw [State.read, if_pos hc, h.wordCnt, h.wordSize]
              by_cases hcount : done.length + 1 < 2 ^ 31
              · have hword : ¬ characters before + 1 < 2 ^ 31 := fun hword ↦ hone ⟨hcount, hword⟩
                rw [increment_of_lt hcount, increment_of_not_lt hword]
                rfl
              · rw [increment_of_not_lt hcount]
                rfl
            rw [hread]
            refine ⟨fun hfits ↦ absurd ⟨?_, hfits.1⟩ hone, fun _ ↦ rfl⟩
            have hcount := hfits.2.count
            omega
      | false =>
          rw [fitsFrom_concat_iff hc]
          by_cases hnext : characters (before ++ [c]) < 2 ^ 31
          · obtain ⟨t, hread, ht⟩ := h.read_not_punct hc hnext
            have hrest := ih ht hnext htext.2
            rw [List.append_assoc, List.singleton_append] at hrest
            rw [hread]
            exact hrest
          · rw [h.read_overflow hc hnext hsize]
            refine ⟨fun hfits ↦ absurd (hfits.characters_lt ?_) hnext, fun _ ↦ rfl⟩
            exact not_ispunct_concat h.sentence hc

/-! ## The call -/

variable {memory : List Ascii}

theorem camelCaser_of_fits (h : Terminated memory text) (hfits : Fits text) :
    camelCaser (some memory) = some (some (entries text ++ [none])) := by
  obtain ⟨htext, rest, rfl⟩ := h
  have hloop := (within_start.loop (by simp [characters]) htext rest).1
    (fitsFrom_zero_iff.mpr hfits)
  rw [camelCaser, List.append_assoc, List.singleton_append, hloop]
  rfl

theorem camelCaser_of_not_fits (h : Terminated memory text) (hnot : ¬ Fits text) :
    camelCaser (some memory) = none := by
  obtain ⟨htext, rest, rfl⟩ := h
  have hloop := (within_start.loop (by simp [characters]) htext rest).2
    fun hfits ↦ hnot (fitsFrom_zero_iff.mp hfits)
  rw [camelCaser, List.append_assoc, List.singleton_append, hloop]
  rfl

theorem Fits.split (h : Fits (front ++ [c] ++ behind)) (hc : ispunct c) :
    Fits (front ++ [c]) ∧ Fits behind := by
  have happend : front ++ [c] ++ behind = front ++ c :: behind := by
    rw [List.append_assoc, List.singleton_append]
  have hcount := h.count
  have hsentences := h.sentences
  have hremainder := h.remainder
  rw [happend, remainder_append_cons hc] at hremainder
  rw [List.countP_append] at hcount
  rw [happend, sentences_append_cons hc] at hsentences
  refine ⟨⟨by omega, fun sentence hmem ↦ hsentences sentence ?_, ?_⟩,
    ⟨by omega, fun sentence hmem ↦ hsentences sentence (List.mem_append_right _ hmem), hremainder⟩⟩
  · rw [sentences_append_cons hc] at hmem
    exact List.mem_append_left _ (by simpa using hmem)
  · rw [remainder_append_cons hc]
    simp [characters]

theorem entries_append (hc : ispunct c) :
    entries (front ++ [c] ++ behind) = entries (front ++ [c]) ++ entries behind := by
  have hfront : sentences (front ++ [c]) = front.splitOnP ispunct := by
    rw [sentences_append_cons hc, sentences_nil, List.append_nil]
  rw [entries, List.append_assoc, List.singleton_append, sentences_append_cons hc, List.map_append,
    ← hfront, entries, entries]

/-- The strings of all sentences are returned exactly if the counters stay below their limit. -/
theorem camelCaser_correct_iff (h : 0 ∉ text) : Correct text ↔ Fits text := by
  constructor
  · intro hcorrect
    by_contra hnot
    have hterminated : Terminated (text ++ [0]) text := ⟨h, List.prefix_rfl⟩
    have hreturned := hcorrect.returned _ hterminated
    rw [camelCaser_of_not_fits hterminated hnot] at hreturned
    cases hreturned
  · intro hfits
    refine ⟨fun memory hmemory ↦ camelCaser_of_fits hmemory hfits, ?_⟩
    rintro front c behind rfl hc memory memory₁ memory₂ hmemory hmemory₁ hmemory₂
    obtain ⟨hfront, hbehind⟩ := hfits.split hc
    refine ⟨entries (front ++ [c]), entries behind, camelCaser_of_fits hmemory₁ hfront,
      camelCaser_of_fits hmemory₂ hbehind, ?_⟩
    rw [camelCaser_of_fits hmemory hfits, entries_append hc]

/-- `hi, You. x` -/
theorem camelCaser_correct_iff_you : Correct [104, 105, 44, 32, 89, 111, 117, 46, 32, 120] :=
  (camelCaser_correct_iff (by decide)).mpr ⟨by decide, by decide, by decide⟩

/-- The word of a text of `2 ^ 31` letters has no size that is an `int`. -/
theorem long_text_overflows : ¬ ∀ text : List Ascii, 0 ∉ text → Correct text := by
  intro h
  set text := List.replicate (2 ^ 31) (97 : Ascii) with htext
  have hnone : ∀ c ∈ text, ispunct c = false := by
    intro c hc
    rw [List.eq_of_mem_replicate hc]
    rfl
  have hzero : 0 ∉ text := by
    intro hmem
    exact absurd (List.eq_of_mem_replicate hmem) (by decide)
  have hnot : ¬ Fits text := by
    intro hfits
    have hremainder := hfits.remainder
    rw [remainder_of_none hnone, characters, htext, List.countP_replicate,
      if_pos (by decide)] at hremainder
    exact lt_irrefl _ hremainder
  have hterminated : Terminated (text ++ [0]) text := ⟨hzero, List.prefix_rfl⟩
  have hreturned := (h text hzero).returned _ hterminated
  rw [camelCaser_of_not_fits hterminated hnot] at hreturned
  cases hreturned

end SystemProgramming.ExtremeEdgeCases
