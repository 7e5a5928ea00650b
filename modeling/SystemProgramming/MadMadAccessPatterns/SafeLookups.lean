import SystemProgramming.MadMadAccessPatterns.Lookup
import SystemProgramming.Lib.Following

/-!
# Lookups in files that hold no tree

Both programs only look at the first four bytes before they follow the offsets of a file. The
offsets may lead back, and words may end behind the file.
-/

namespace SystemProgramming.MadMadAccessPatterns

/-- `BTRE` -/
def header : List Byte := [66, 84, 82, 69]

namespace Lookup1

/-- The block for the header has four bytes, which contained something before, and something follows
it in memory. -/
def checkValidFile (file : FILE) (root behind : List Byte) : Bool :=
  let (bytes, _) := file.fread 4
  strcmp header (bytes ++ root.drop bytes.length ++ behind) = some .eq

/-- The positions of the bytes that the loop of `solve` uses. The bytes that `strcmp` reads are
taken to be where they should be read from, whether or not `fread` has got so far. -/
def usedLoop (layout : Layout) (word : List Byte) : ℕ → FILE → ℕ → List Byte → List ℕ
  | 0, _, _, _ => []
  | fuel + 1, file, offset, nodeWord =>
      if offset = 0 then []
      else
        let (bytes, file) := (file.fseek offset).fread nodeSize
        if bytes.length ≠ nodeSize then []
        else
          let node := layout.toNode bytes
          let (bytes, file) := (file.fseek (nodeSize + offset)).fread nodeSize
          let nodeWord := bytes ++ nodeWord.drop bytes.length
          List.range' offset nodeSize ++
            List.range' (nodeSize + offset) (strcmpLength word nodeWord) ++
            match strcmp word nodeWord with
            | some .lt => usedLoop layout word fuel file node.left_child nodeWord
            | some .gt => usedLoop layout word fuel file node.right_child nodeWord
            | _ => []

def used (layout : Layout) (fuel : ℕ) (word : List Byte) (file : FILE) (nodeWord : List Byte) :
    List ℕ := usedLoop layout word fuel file layout.rootOffset nodeWord

/-- The search comes to an end and only uses bytes of the file, whatever was in the buffer. -/
structure Safe (layout : Layout) (word bytes : List Byte) : Prop where
  ends : ∀ pos nodeWord, nodeWord.length = nodeSize →
    ∃ fuel, (solve layout fuel word ⟨bytes, pos⟩ nodeWord).isSome
  inside : ∀ pos nodeWord, nodeWord.length = nodeSize →
    ∀ fuel, ∀ i ∈ used layout fuel word ⟨bytes, pos⟩ nodeWord, i < bytes.length

end Lookup1

namespace Lookup2

/-- `strncmp`. Behind a file of fewer bytes the map is filled with zeros. -/
def checkValidFile (map : List Byte) : Bool := map.take 4 = header

/-- The search comes to an end. There is no result if it uses a byte that is not in the file. -/
def Safe (layout : Layout) (word map : List Byte) : Prop :=
  ∃ fuel, (solve layout fuel word map).isSome

end Lookup2

/-! ## The search path -/

/-- What the second program compares with the word. -/
def memoryAt (bytes : List Byte) (offset : ℕ) : List Byte := bytes.drop (offset + nodeSize)

/-- What the first program reads into its buffer. -/
def bufferAt (bytes : List Byte) (offset : ℕ) : List Byte := (memoryAt bytes offset).take nodeSize

def nodeAt (layout : Layout) (bytes : List Byte) (offset : ℕ) : BinaryTreeNode :=
  layout.toNode ((bytes.drop offset).take nodeSize)

/-- The offset of the child that is searched next. -/
def link (layout : Layout) (word bytes : List Byte) (wordAt : List Byte → ℕ → List Byte)
    (offset : ℕ) : Option ℕ :=
  if offset = 0 then none
  else match strcmp word (wordAt bytes offset) with
    | some .lt => some (nodeAt layout bytes offset).left_child
    | some .gt => some (nodeAt layout bytes offset).right_child
    | _ => none

/-- No offset on the search path is repeated, and the comparison with each word on it ends within
the file and within its first sixteen bytes. -/
structure Sound (layout : Layout) (word bytes : List Byte) : Prop where
  decided : ∀ n offset, follow (link layout word bytes bufferAt) n layout.rootOffset = some offset →
    offset ≠ 0 → strcmp word (bufferAt bytes offset) ≠ none
  noRepetition : NoRepetition (link layout word bytes bufferAt) layout.rootOffset

variable {layout : Layout} {word bytes nodeWord : List Byte} {offset child fuel n pos : ℕ}
  {wordAt : List Byte → ℕ → List Byte}

theorem link_zero : link layout word bytes wordAt 0 = none := if_pos rfl

theorem ne_zero_of_link (h : link layout word bytes wordAt offset = some child) : offset ≠ 0 := by
  rintro rfl
  rw [link_zero] at h
  cases h

theorem strcmp_of_link (h : link layout word bytes wordAt offset = some child) :
    strcmp word (wordAt bytes offset) = some .lt ∧
        child = (nodeAt layout bytes offset).left_child ∨
      strcmp word (wordAt bytes offset) = some .gt ∧
        child = (nodeAt layout bytes offset).right_child := by
  rw [link, if_neg (ne_zero_of_link h)] at h
  split at h
  · next hlt => exact .inl ⟨hlt, (Option.some.inj h).symm⟩
  · next hgt => exact .inr ⟨hgt, (Option.some.inj h).symm⟩
  · cases h

theorem strcmp_of_link_eq_none (h : link layout word bytes wordAt offset = none)
    (hoffset : offset ≠ 0) (hdecided : strcmp word (wordAt bytes offset) ≠ none) :
    strcmp word (wordAt bytes offset) = some .eq := by
  rw [link, if_neg hoffset] at h
  cases hstrcmp : strcmp word (wordAt bytes offset) with
  | none => exact absurd hstrcmp hdecided
  | some ordering =>
      rw [hstrcmp] at h
      cases ordering with
      | eq => rfl
      | lt => cases h
      | gt => cases h

theorem lt_length_of_strcmp_memoryAt (h : strcmp word (memoryAt bytes offset) ≠ none) :
    offset + nodeSize < bytes.length := by
  by_contra hle
  rw [memoryAt, List.drop_eq_nil_of_le (not_lt.mp hle)] at h
  cases word <;> exact h rfl

theorem strcmp_memoryAt (h : strcmp word (bufferAt bytes offset) ≠ none) :
    strcmp word (memoryAt bytes offset) = strcmp word (bufferAt bytes offset) := strcmp_take h

theorem link_memoryAt (h : strcmp word (bufferAt bytes offset) ≠ none) :
    link layout word bytes memoryAt offset = link layout word bytes bufferAt offset := by
  rw [link, link, strcmp_memoryAt h]

/-- Only offsets in the file lead to a child. -/
theorem finite_link (h : ∀ offset, strcmp word (wordAt bytes offset) ≠ none →
    offset + nodeSize < bytes.length) : {o | link layout word bytes wordAt o ≠ none}.Finite := by
  apply (Set.finite_lt_nat bytes.length).subset
  intro offset hlink
  obtain ⟨child, hchild⟩ := Option.ne_none_iff_exists'.mp hlink
  have hlt : offset + nodeSize < bytes.length := by
    apply h offset
    rcases strcmp_of_link hchild with ⟨hstrcmp, -⟩ | ⟨hstrcmp, -⟩ <;> simp [hstrcmp]
  exact (Nat.le_add_right _ _).trans_lt hlt

theorem finite_link_memoryAt : {o | link layout word bytes memoryAt o ≠ none}.Finite :=
  finite_link fun _ ↦ lt_length_of_strcmp_memoryAt

theorem finite_link_bufferAt : {o | link layout word bytes bufferAt o ≠ none}.Finite :=
  finite_link fun _ h ↦ lt_length_of_strcmp_memoryAt (strcmp_memoryAt h ▸ h)

/-! ## The second program -/

/-- The search ends without an access beyond the map. -/
def Lookup2.Ends (word map : List Byte) (offset : ℕ) : Prop :=
  offset = 0 ∨ strcmp word (memoryAt map offset) = some .eq

theorem Lookup2.solveLoop_succ (hoffset : offset ≠ 0) :
    Lookup2.solveLoop layout word bytes (fuel + 1) offset =
      match strcmp word (memoryAt bytes offset) with
      | none => none
      | some .eq => some (.found word (nodeAt layout bytes offset).count
          (nodeAt layout bytes offset).price)
      | some .lt =>
          Lookup2.solveLoop layout word bytes fuel (nodeAt layout bytes offset).left_child
      | some .gt =>
          Lookup2.solveLoop layout word bytes fuel (nodeAt layout bytes offset).right_child := by
  rw [Lookup2.solveLoop, if_neg hoffset]
  by_cases hwhole : offset + nodeSize ≤ bytes.length
  · have hlength : ((bytes.drop offset).take nodeSize).length = nodeSize := by
      rw [List.length_take, List.length_drop]
      omega
    exact if_neg (not_not.mpr hlength)
  · have hlength : ((bytes.drop offset).take nodeSize).length ≠ nodeSize := by
      rw [List.length_take, List.length_drop]
      have hpos : 0 < nodeSize := by decide
      omega
    have hstrcmp : strcmp word (memoryAt bytes offset) = none := by
      by_contra hdecided
      exact hwhole (lt_length_of_strcmp_memoryAt hdecided).le
    simp only [hlength, ne_eq, not_false_eq_true, if_true, hstrcmp]

theorem Lookup2.solveLoop_of_link (h : link layout word bytes memoryAt offset = some child) :
    Lookup2.solveLoop layout word bytes (fuel + 1) offset =
      Lookup2.solveLoop layout word bytes fuel child := by
  rw [Lookup2.solveLoop_succ (ne_zero_of_link h)]
  rcases strcmp_of_link h with ⟨hstrcmp, rfl⟩ | ⟨hstrcmp, rfl⟩ <;> rw [hstrcmp]

theorem Lookup2.solveLoop_of_no_link (h : link layout word bytes memoryAt offset = none) :
    (Lookup2.solveLoop layout word bytes (fuel + 1) offset).isSome ↔
      Lookup2.Ends word bytes offset := by
  by_cases hoffset : offset = 0
  · subst hoffset
    simp [Lookup2.solveLoop, Lookup2.Ends]
  · rw [Lookup2.solveLoop_succ hoffset, Lookup2.Ends, or_iff_right hoffset]
    by_cases hdecided : strcmp word (memoryAt bytes offset) = none
    · simp [hdecided]
    · simp [strcmp_of_link_eq_none h hoffset hdecided]

/-- By induction on the number of rounds, which are the links that are followed. -/
theorem Lookup2.solveLoop_isSome_iff :
    (∃ fuel, (Lookup2.solveLoop layout word bytes fuel offset).isSome) ↔
      ∃ n last, follow (link layout word bytes memoryAt) n offset = some last ∧
        link layout word bytes memoryAt last = none ∧ Lookup2.Ends word bytes last := by
  constructor
  · rintro ⟨fuel, hsome⟩
    induction fuel generalizing offset with
    | zero => cases hsome
    | succ fuel ih =>
        cases hlink : link layout word bytes memoryAt offset with
        | none => exact ⟨0, offset, rfl, hlink, (Lookup2.solveLoop_of_no_link hlink).mp hsome⟩
        | some child =>
            rw [Lookup2.solveLoop_of_link hlink] at hsome
            obtain ⟨n, last, hfollow, hlast⟩ := ih hsome
            exact ⟨n + 1, last, (follow_succ_of_eq_some hlink).trans hfollow, hlast⟩
  · rintro ⟨n, last, hfollow, hlink, hends⟩
    refine ⟨n + 1, ?_⟩
    induction n generalizing offset with
    | zero =>
        cases hfollow
        exact (Lookup2.solveLoop_of_no_link hlink).mpr hends
    | succ n ih =>
        rw [follow] at hfollow
        obtain ⟨child, hchild, hrest⟩ := Option.bind_eq_some_iff.mp hfollow
        rw [Lookup2.solveLoop_of_link hchild]
        exact ih hrest

theorem Lookup2.safe_iff : Lookup2.Safe layout word bytes ↔
    (∀ n offset, follow (link layout word bytes memoryAt) n layout.rootOffset = some offset →
      offset ≠ 0 → strcmp word (memoryAt bytes offset) ≠ none) ∧
    NoRepetition (link layout word bytes memoryAt) layout.rootOffset := by
  rw [Lookup2.Safe]
  simp only [Lookup2.solve, Lookup2.solveLoop_isSome_iff]
  constructor
  · rintro ⟨n, last, hfollow, hlink, hends⟩
    have hend : follow (link layout word bytes memoryAt) (n + 1) layout.rootOffset = none := by
      rw [follow_succ, hfollow, Option.bind_some, hlink]
    have hunique := NoRepetition.of_ends hend
    refine ⟨fun m offset hm hoffset ↦ ?_, hunique⟩
    cases hnext : link layout word bytes memoryAt offset with
    | some child => rcases strcmp_of_link hnext with ⟨hstrcmp, -⟩ | ⟨hstrcmp, -⟩ <;> simp [hstrcmp]
    | none =>
        have hlast : offset = last := follow_last_unique hm hnext hfollow hlink
        subst hlast
        simp [hends.resolve_left hoffset]
  · rintro ⟨hdecided, hunique⟩
    obtain ⟨n, hn⟩ := hunique.ends finite_link_memoryAt
    obtain ⟨m, last, hm, hlink⟩ := exists_last hn
    refine ⟨m, last, hm, hlink, ?_⟩
    by_cases hlast : last = 0
    · exact .inl hlast
    · exact .inr (strcmp_of_link_eq_none hlink hlast (hdecided m last hm hlast))

/-! ## The first program -/

/-- The buffer after a word has been read into it. -/
def refill (bytes : List Byte) (offset : ℕ) (nodeWord : List Byte) : List Byte :=
  bufferAt bytes offset ++ nodeWord.drop (bufferAt bytes offset).length

theorem length_bufferAt :
    (bufferAt bytes offset).length = min nodeSize (bytes.length - (offset + nodeSize)) := by
  rw [bufferAt, memoryAt, List.length_take, List.length_drop]

theorem length_refill (h : nodeWord.length = nodeSize) :
    (refill bytes offset nodeWord).length = nodeSize := by
  rw [refill, List.length_append, List.length_drop, h, length_bufferAt]
  omega

theorem strcmp_refill (h : strcmp word (bufferAt bytes offset) ≠ none) :
    strcmp word (refill bytes offset nodeWord) = strcmp word (bufferAt bytes offset) :=
  strcmp_append h _

namespace Lookup1

/-- The search ends without the use of a byte that has not been read. An incomplete node ends it
silently. -/
def Ends (word bytes : List Byte) (offset : ℕ) : Prop :=
  offset = 0 ∨ bytes.length < offset + nodeSize ∨ strcmp word (bufferAt bytes offset) = some .eq

theorem length_node (h : offset + nodeSize ≤ bytes.length) :
    ((bytes.drop offset).take nodeSize).length = nodeSize := by
  rw [List.length_take, List.length_drop]
  omega

theorem length_node_ne (h : bytes.length < offset + nodeSize) :
    ((bytes.drop offset).take nodeSize).length ≠ nodeSize := by
  have hpos : 0 < nodeSize := by decide
  rw [List.length_take, List.length_drop]
  omega

theorem solveLoop_partial (hoffset : offset ≠ 0) (h : bytes.length < offset + nodeSize) :
    (solveLoop layout word (fuel + 1) ⟨bytes, pos⟩ offset nodeWord).isSome := by
  simp only [solveLoop, hoffset, if_false, FILE.fseek, FILE.fread, length_node_ne h, ne_eq,
    not_false_eq_true, if_true, Option.isSome_some]

theorem usedLoop_cut (h : bytes.length < offset + nodeSize) :
    usedLoop layout word (fuel + 1) ⟨bytes, pos⟩ offset nodeWord = [] := by
  simp only [usedLoop, FILE.fseek, FILE.fread, length_node_ne h, ne_eq, not_false_eq_true, if_true,
    ite_self]

/-- Where the file stands after the word has been read. -/
def posAfter (bytes : List Byte) (offset : ℕ) : ℕ :=
  offset + nodeSize + (bufferAt bytes offset).length

theorem solveLoop_whole (hoffset : offset ≠ 0) (hwhole : offset + nodeSize ≤ bytes.length) :
    solveLoop layout word (fuel + 1) ⟨bytes, pos⟩ offset nodeWord =
      match strcmp word (refill bytes offset nodeWord) with
      | none => none
      | some .eq => some (.found word (nodeAt layout bytes offset).count
          (nodeAt layout bytes offset).price, ⟨bytes, posAfter bytes offset⟩)
      | some .lt => solveLoop layout word fuel ⟨bytes, posAfter bytes offset⟩
          (nodeAt layout bytes offset).left_child (refill bytes offset nodeWord)
      | some .gt => solveLoop layout word fuel ⟨bytes, posAfter bytes offset⟩
          (nodeAt layout bytes offset).right_child (refill bytes offset nodeWord) := by
  simp only [solveLoop, hoffset, if_false, FILE.fseek, FILE.fread, length_node hwhole, ne_eq,
    not_true_eq_false, Nat.add_comm nodeSize offset]
  rfl

theorem usedLoop_whole (hoffset : offset ≠ 0) (hwhole : offset + nodeSize ≤ bytes.length) :
    usedLoop layout word (fuel + 1) ⟨bytes, pos⟩ offset nodeWord =
      List.range' offset nodeSize ++ List.range' (offset + nodeSize)
        (strcmpLength word (refill bytes offset nodeWord)) ++
      match strcmp word (refill bytes offset nodeWord) with
      | some .lt => usedLoop layout word fuel ⟨bytes, posAfter bytes offset⟩
          (nodeAt layout bytes offset).left_child (refill bytes offset nodeWord)
      | some .gt => usedLoop layout word fuel ⟨bytes, posAfter bytes offset⟩
          (nodeAt layout bytes offset).right_child (refill bytes offset nodeWord)
      | _ => [] := by
  simp only [usedLoop, hoffset, if_false, FILE.fseek, FILE.fread, length_node hwhole, ne_eq,
    not_true_eq_false, Nat.add_comm nodeSize offset]
  rfl

theorem whole_of_decided (h : strcmp word (bufferAt bytes offset) ≠ none) :
    offset + nodeSize < bytes.length :=
  lt_length_of_strcmp_memoryAt (strcmp_memoryAt h ▸ h)

theorem decided_of_link (h : link layout word bytes bufferAt offset = some child) :
    strcmp word (bufferAt bytes offset) ≠ none := by
  rcases strcmp_of_link h with ⟨hstrcmp, -⟩ | ⟨hstrcmp, -⟩ <;> simp [hstrcmp]

theorem solveLoop_of_link (h : link layout word bytes bufferAt offset = some child) :
    solveLoop layout word (fuel + 1) ⟨bytes, pos⟩ offset nodeWord =
      solveLoop layout word fuel ⟨bytes, posAfter bytes offset⟩ child
        (refill bytes offset nodeWord) := by
  have hdecided := decided_of_link h
  rw [solveLoop_whole (ne_zero_of_link h) (whole_of_decided hdecided).le, strcmp_refill hdecided]
  rcases strcmp_of_link h with ⟨hstrcmp, rfl⟩ | ⟨hstrcmp, rfl⟩ <;> rw [hstrcmp]

theorem usedLoop_of_link (h : link layout word bytes bufferAt offset = some child) :
    usedLoop layout word (fuel + 1) ⟨bytes, pos⟩ offset nodeWord =
      List.range' offset nodeSize ++ List.range' (offset + nodeSize)
        (strcmpLength word (refill bytes offset nodeWord)) ++
      usedLoop layout word fuel ⟨bytes, posAfter bytes offset⟩ child
        (refill bytes offset nodeWord) := by
  have hdecided := decided_of_link h
  rw [usedLoop_whole (ne_zero_of_link h) (whole_of_decided hdecided).le, strcmp_refill hdecided]
  rcases strcmp_of_link h with ⟨hstrcmp, rfl⟩ | ⟨hstrcmp, rfl⟩ <;> rw [hstrcmp]

theorem isSome_of_ends (h : Ends word bytes offset) :
    (solveLoop layout word (fuel + 1) ⟨bytes, pos⟩ offset nodeWord).isSome := by
  by_cases hoffset : offset = 0
  · simp [solveLoop, hoffset]
  rcases h.resolve_left hoffset with hpartial | hequal
  · exact solveLoop_partial hoffset hpartial
  · have hdecided : strcmp word (bufferAt bytes offset) ≠ none := by simp [hequal]
    rw [solveLoop_whole hoffset (whole_of_decided hdecided).le, strcmp_refill hdecided, hequal]
    rfl

/-- The bytes of one round lie within the file if the comparison ends in what has been read. -/
theorem lt_length_of_mem_round {i : ℕ} (h : strcmp word (bufferAt bytes offset) ≠ none)
    (hi : i ∈ List.range' offset nodeSize ++ List.range' (offset + nodeSize)
      (strcmpLength word (refill bytes offset nodeWord))) : i < bytes.length := by
  have hwhole := whole_of_decided h
  have hshort : strcmpLength word (refill bytes offset nodeWord) ≤
      (bufferAt bytes offset).length := by
    rw [refill]
    by_cases hrest : nodeWord.drop (bufferAt bytes offset).length = []
    · rw [hrest, List.append_nil]
      exact strcmpLength_le _ _
    · exact (strcmpLength_append_le_iff hrest).mpr h
  have hbuffer : (bufferAt bytes offset).length ≤ bytes.length - (offset + nodeSize) :=
    length_bufferAt.trans_le (min_le_right _ _)
  simp only [List.mem_append, List.mem_range'_1] at hi
  omega

/-- A comparison that does not end in what has been read goes beyond the buffer, or it uses a byte
that is not in the file. -/
theorem decided_of_safe (hlength : nodeWord.length = nodeSize) (hoffset : offset ≠ 0)
    (hwhole : offset + nodeSize ≤ bytes.length)
    (hends : ∃ fuel, (solveLoop layout word fuel ⟨bytes, pos⟩ offset nodeWord).isSome)
    (hinside : ∀ fuel, ∀ i ∈ usedLoop layout word fuel ⟨bytes, pos⟩ offset nodeWord,
      i < bytes.length) : strcmp word (bufferAt bytes offset) ≠ none := by
  intro hnone
  by_cases hrest : nodeWord.drop (bufferAt bytes offset).length = []
  · obtain ⟨fuel, hsome⟩ := hends
    cases fuel with
    | zero => cases hsome
    | succ fuel =>
        rw [solveLoop_whole hoffset hwhole, refill, hrest, List.append_nil, hnone] at hsome
        cases hsome
  · have hlong : (bufferAt bytes offset).length < strcmpLength word (refill bytes offset nodeWord) :=
      not_le.mp fun hle ↦ (strcmpLength_append_le_iff hrest).mp hle hnone
    have hshort : (bufferAt bytes offset).length < nodeSize := by
      rw [← hlength]
      exact not_le.mp fun hle ↦ hrest (List.drop_eq_nil_of_le hle)
    have hbuffer := @length_bufferAt bytes offset
    have hlt := hinside 1 (offset + nodeSize + (bufferAt bytes offset).length) (by
      rw [usedLoop_whole hoffset hwhole]
      apply List.mem_append_left
      apply List.mem_append_right
      rw [List.mem_range'_1]
      omega)
    omega

/-- By induction on the way to the node. -/
theorem decided_on_path (hlength : nodeWord.length = nodeSize)
    (hends : ∃ fuel, (solveLoop layout word fuel ⟨bytes, pos⟩ offset nodeWord).isSome)
    (hinside : ∀ fuel, ∀ i ∈ usedLoop layout word fuel ⟨bytes, pos⟩ offset nodeWord,
      i < bytes.length) {last : ℕ}
    (h : follow (link layout word bytes bufferAt) n offset = some last) (hlast : last ≠ 0)
    (hwhole : last + nodeSize ≤ bytes.length) : strcmp word (bufferAt bytes last) ≠ none := by
  induction n generalizing offset pos nodeWord with
  | zero =>
      cases h
      exact decided_of_safe hlength hlast hwhole hends hinside
  | succ n ih =>
      rw [follow] at h
      obtain ⟨child, hchild, hrest⟩ := Option.bind_eq_some_iff.mp h
      have hlength' := @length_refill bytes nodeWord offset hlength
      refine @ih _ child (posAfter bytes offset) hlength' ?_ (fun fuel i hi ↦ ?_) hrest
      · obtain ⟨fuel, hsome⟩ := hends
        cases fuel with
        | zero => cases hsome
        | succ fuel => exact ⟨fuel, solveLoop_of_link hchild ▸ hsome⟩
      · apply hinside (fuel + 1)
        rw [usedLoop_of_link hchild]
        exact List.mem_append_right _ hi

theorem exists_last_of_isSome
    (h : (solveLoop layout word fuel ⟨bytes, pos⟩ offset nodeWord).isSome) :
    ∃ n last, follow (link layout word bytes bufferAt) n offset = some last ∧
      link layout word bytes bufferAt last = none := by
  induction fuel generalizing offset pos nodeWord with
  | zero => cases h
  | succ fuel ih =>
      cases hlink : link layout word bytes bufferAt offset with
      | none => exact ⟨0, offset, rfl, hlink⟩
      | some child =>
          rw [solveLoop_of_link hlink] at h
          obtain ⟨n, last, hfollow, hlast⟩ := ih h
          exact ⟨n + 1, last, (follow_succ_of_eq_some hlink).trans hfollow, hlast⟩

theorem isSome_of_last {last : ℕ}
    (h : follow (link layout word bytes bufferAt) n offset = some last)
    (hends : Ends word bytes last) :
    (solveLoop layout word (n + 1) ⟨bytes, pos⟩ offset nodeWord).isSome := by
  induction n generalizing offset pos nodeWord with
  | zero =>
      cases h
      exact isSome_of_ends hends
  | succ n ih =>
      rw [follow] at h
      obtain ⟨child, hchild, hrest⟩ := Option.bind_eq_some_iff.mp h
      rw [solveLoop_of_link hchild]
      exact ih hrest

/-- By induction on the rounds, each of which follows one link. -/
theorem lt_length_of_used {i : ℕ}
    (hdecided : ∀ n o, follow (link layout word bytes bufferAt) n offset = some o → o ≠ 0 →
      o + nodeSize ≤ bytes.length → strcmp word (bufferAt bytes o) ≠ none)
    (hi : i ∈ usedLoop layout word fuel ⟨bytes, pos⟩ offset nodeWord) : i < bytes.length := by
  induction fuel generalizing offset pos nodeWord with
  | zero => cases hi
  | succ fuel ih =>
      by_cases hoffset : offset = 0
      · simp [usedLoop, hoffset] at hi
      by_cases hwhole : offset + nodeSize ≤ bytes.length
      · have hhere := hdecided 0 offset rfl hoffset hwhole
        cases hlink : link layout word bytes bufferAt offset with
        | none =>
            have hequal := strcmp_of_link_eq_none hlink hoffset hhere
            rw [usedLoop_whole hoffset hwhole, strcmp_refill hhere, hequal, List.append_nil] at hi
            exact lt_length_of_mem_round hhere hi
        | some child =>
            rw [usedLoop_of_link hlink] at hi
            rcases List.mem_append.mp hi with hi | hi
            · exact lt_length_of_mem_round hhere hi
            · refine ih (fun n o ho ↦ hdecided (n + 1) o ?_) hi
              exact (follow_succ_of_eq_some hlink).trans ho
      · rw [usedLoop_cut (not_le.mp hwhole)] at hi
        cases hi

theorem safe_iff : Safe layout word bytes ↔
    (∀ n offset, follow (link layout word bytes bufferAt) n layout.rootOffset = some offset →
      offset ≠ 0 → offset + nodeSize ≤ bytes.length → strcmp word (bufferAt bytes offset) ≠ none) ∧
    NoRepetition (link layout word bytes bufferAt) layout.rootOffset := by
  constructor
  · rintro ⟨hends, hinside⟩
    have hlength : (List.replicate nodeSize (0 : Byte)).length = nodeSize := List.length_replicate
    refine ⟨fun n offset hn hoffset hwhole ↦ ?_, ?_⟩
    · exact decided_on_path hlength (hends 0 _ hlength) (hinside 0 _ hlength) hn hoffset hwhole
    · obtain ⟨fuel, hsome⟩ := hends 0 _ hlength
      obtain ⟨n, last, hn, hlink⟩ := exists_last_of_isSome hsome
      have hend : follow (link layout word bytes bufferAt) (n + 1) layout.rootOffset = none := by
        rw [follow_succ, hn, Option.bind_some, hlink]
      exact NoRepetition.of_ends hend
  · rintro ⟨hdecided, hunique⟩
    obtain ⟨n, hn⟩ := hunique.ends finite_link_bufferAt
    obtain ⟨m, last, hm, hlink⟩ := exists_last hn
    refine ⟨fun pos nodeWord _ ↦ ⟨m + 1, isSome_of_last hm ?_⟩, fun pos nodeWord _ fuel i hi ↦
      lt_length_of_used hdecided hi⟩
    by_cases hlast : last = 0
    · exact .inl hlast
    by_cases hwhole : last + nodeSize ≤ bytes.length
    · exact .inr (.inr (strcmp_of_link_eq_none hlink hlast (hdecided m last hm hlast hwhole)))
    · exact .inr (.inl (not_le.mp hwhole))

end Lookup1

/-! ## Both programs -/

/-- As long as the words are decided in the buffer, both programs take the same way. -/
theorem Sound.follow_memoryAt (h : Sound layout word bytes) :
    follow (link layout word bytes memoryAt) n layout.rootOffset =
      follow (link layout word bytes bufferAt) n layout.rootOffset := by
  symm
  apply follow_congr
  intro m offset hm
  by_cases hoffset : offset = 0
  · rw [hoffset, link_zero, link_zero]
  · exact (link_memoryAt (h.decided m offset hm hoffset)).symm

/-- Both programs look the word up safely exactly if no offset on its search path is repeated and
the comparison with each word on the path ends within the file and within sixteen bytes. -/
theorem lookups_safe_iff :
    Lookup1.Safe layout word bytes ∧ Lookup2.Safe layout word bytes ↔ Sound layout word bytes := by
  rw [Lookup1.safe_iff, Lookup2.safe_iff]
  constructor
  · rintro ⟨⟨hfirst, hunique⟩, hsecond, -⟩
    have hpath : ∀ n offset,
        follow (link layout word bytes bufferAt) n layout.rootOffset = some offset →
        follow (link layout word bytes memoryAt) n layout.rootOffset = some offset := by
      intro n
      induction n with
      | zero => exact fun offset h ↦ h
      | succ n ih =>
          intro offset h
          obtain ⟨parent, hparent, hlink⟩ := exists_follow_of_succ h
          rw [follow_succ, ih parent hparent, Option.bind_some,
            link_memoryAt (Lookup1.decided_of_link hlink), hlink]
    refine ⟨fun n offset hn hoffset ↦ ?_, hunique⟩
    have hdecided := hsecond n offset (hpath n offset hn) hoffset
    exact hfirst n offset hn hoffset (lt_length_of_strcmp_memoryAt hdecided).le
  · intro h
    refine ⟨⟨fun n offset hn hoffset _ ↦ h.decided n offset hn hoffset, h.noRepetition⟩, ?_, ?_⟩
    · intro n offset hn hoffset
      rw [h.follow_memoryAt] at hn
      have hdecided := h.decided n offset hn hoffset
      rwa [strcmp_memoryAt hdecided]
    · intro m n offset hm hn
      rw [h.follow_memoryAt] at hm hn
      exact h.noRepetition m n offset hm hn

/-- The root is its own left child. -/
def selfLoop : List Byte := header ++ [4, 0, 0, 0, 0, 0, 0, 0, 1, 0, 0, 0, 1, 0, 0, 0, 98, 0]

/-- The file has the header, but the search for `a` has no end. -/
theorem self_loop_unsafe : ¬ ∀ bytes word : List Byte, 0 ∉ word →
    Lookup1.checkValidFile ⟨bytes, 0⟩ (List.replicate 4 0) [0] → Lookup2.checkValidFile bytes →
      Lookup1.Safe littleEndian word bytes ∧ Lookup2.Safe littleEndian word bytes := by
  intro h
  have hsafe := (h selfLoop [97] (by decide) (by decide) (by decide)).2
  have hunique := (Lookup2.safe_iff.mp hsafe).2
  have hlink : link littleEndian [97] selfLoop memoryAt 4 = some 4 := by decide
  exact absurd (hunique 0 1 4 rfl hlink) (by decide)

end SystemProgramming.MadMadAccessPatterns
