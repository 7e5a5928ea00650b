import SystemProgramming.Lib.CString

/-!
# Two ways to look up a word in a file

A data file is a binary search tree. The first program reads nodes and words with `fread`, the
second one has the file mapped to memory.
-/

namespace SystemProgramming.MadMadAccessPatterns

abbrev Byte := Fin 256

scoped instance neZero_byte : NeZero 256 := ⟨by decide⟩

/-- The offsets of the children, and the data of the node. The word follows in the file. -/
structure BinaryTreeNode where
  left_child : ℕ
  right_child : ℕ
  count : ℕ
  price : ℕ
deriving DecidableEq

/-- `sizeof(BinaryTreeNode)`, and the size of the buffer for words. -/
def nodeSize : ℕ := 16

/-- How the bytes of a node are read, and `BINTREE_ROOT_NODE_OFFSET`. -/
structure Layout where
  toNode : List Byte → BinaryTreeNode
  rootOffset : ℕ
  rootOffset_ne : rootOffset ≠ 0

/-- What is printed for a word. An error of `fread` prints nothing. -/
inductive Output
  | found (word : List Byte) (count price : ℕ)
  | notFound (word : List Byte)
  | silent
deriving DecidableEq

/-! ## The first program -/

/-- An open file. -/
structure FILE where
  bytes : List Byte
  pos : ℕ

def FILE.fseek (file : FILE) (offset : ℕ) : FILE := { file with pos := offset }

/-- The bytes that are read, at most `n`. -/
def FILE.fread (file : FILE) (n : ℕ) : List Byte × FILE :=
  let bytes := (file.bytes.drop file.pos).take n
  (bytes, { file with pos := file.pos + bytes.length })

namespace Lookup1

/-- The loop of `solve`. What `node_word` contained before stays behind the bytes that are read.
There is no result after a comparison that goes beyond `node_word`. An offset is not negative, so
that `fseek` succeeds. -/
def solveLoop (layout : Layout) (word : List Byte) :
    ℕ → FILE → ℕ → List Byte → Option (Output × FILE)
  | 0, _, _, _ => none
  | fuel + 1, file, offset, nodeWord =>
      if offset = 0 then some (.notFound word, file)
      else
        let (bytes, file) := (file.fseek offset).fread nodeSize
        if bytes.length ≠ nodeSize then some (.silent, file)
        else
          let node := layout.toNode bytes
          let (bytes, file) := (file.fseek (nodeSize + offset)).fread nodeSize
          let nodeWord := bytes ++ nodeWord.drop bytes.length
          match strcmp word nodeWord with
          | none => none
          | some .eq => some (.found word node.count node.price, file)
          | some .lt => solveLoop layout word fuel file node.left_child nodeWord
          | some .gt => solveLoop layout word fuel file node.right_child nodeWord

def solve (layout : Layout) (fuel : ℕ) (word : List Byte) (file : FILE) (nodeWord : List Byte) :
    Option (Output × FILE) := solveLoop layout word fuel file layout.rootOffset nodeWord

/-- The loop of `main`. Nothing is known of `node_word` at the start of each `solve`. -/
def solveAll (layout : Layout) (fuel : ℕ) :
    List (List Byte) → FILE → (ℕ → List Byte) → Option (List Output)
  | [], _, _ => some []
  | word :: words, file, nodeWords => do
      let (output, file) ← solve layout fuel word file (nodeWords 0)
      let outputs ← solveAll layout fuel words file fun i ↦ nodeWords (i + 1)
      some (output :: outputs)

end Lookup1

/-! ## The second program -/

namespace Lookup2

/-- The loop of `solve`. There is no result after an access beyond the map. -/
def solveLoop (layout : Layout) (word map : List Byte) : ℕ → ℕ → Option Output
  | 0, _ => none
  | fuel + 1, offset =>
      if offset = 0 then some (.notFound word)
      else
        let bytes := (map.drop offset).take nodeSize
        if bytes.length ≠ nodeSize then none
        else
          let node := layout.toNode bytes
          match strcmp word (map.drop (offset + nodeSize)) with
          | none => none
          | some .eq => some (.found word node.count node.price)
          | some .lt => solveLoop layout word map fuel node.left_child
          | some .gt => solveLoop layout word map fuel node.right_child

def solve (layout : Layout) (fuel : ℕ) (word map : List Byte) : Option Output :=
  solveLoop layout word map fuel layout.rootOffset

/-- The loop of `main`. -/
def solveAll (layout : Layout) (fuel : ℕ) (words : List (List Byte)) (map : List Byte) :
    Option (List Output) := words.mapM fun word ↦ solve layout fuel word map

end Lookup2

/-! ## Files -/

/-- The tree that a file stands for. -/
inductive Tree
  | leaf
  | node (left : Tree) (word : List Byte) (count price : ℕ) (right : Tree)
deriving DecidableEq

namespace Tree

def height : Tree → ℕ
  | leaf => 0
  | node l _ _ _ r => max l.height r.height + 1

/-- The words with their counts and prices. -/
def entries : Tree → List (List Byte × ℕ × ℕ)
  | leaf => []
  | node l word count price r => l.entries ++ (word, count, price) :: r.entries

def Sorted : Tree → Prop
  | leaf => True
  | node l word _ _ r => l.Sorted ∧ r.Sorted ∧ (∀ e ∈ l.entries, e.1 < word) ∧
      ∀ e ∈ r.entries, word < e.1

/-- What is to be printed for a word. -/
def find (word : List Byte) (tree : Tree) : Output :=
  match tree.entries.find? (·.1 = word) with
  | some (_, count, price) => .found word count price
  | none => .notFound word

end Tree

/-- The bytes hold a tree, whose root is at an offset. -/
inductive Stored (layout : Layout) (bytes : List Byte) : ℕ → Tree → Prop
  | leaf : Stored layout bytes 0 .leaf
  | node {offset : ℕ} {node : BinaryTreeNode} {word : List Byte} {l r : Tree} :
      offset ≠ 0 → ((bytes.drop offset).take nodeSize).length = nodeSize →
      layout.toNode ((bytes.drop offset).take nodeSize) = node →
      Terminated (bytes.drop (offset + nodeSize)) word →
      Stored layout bytes node.left_child l → Stored layout bytes node.right_child r →
      Stored layout bytes offset (.node l word node.count node.price r)

/-- A file with the header `BTRE` and a binary search tree. -/
structure WellFormed (layout : Layout) (bytes : List Byte) (tree : Tree) : Prop where
  header : [66, 84, 82, 69] <+: bytes
  stored : Stored layout bytes layout.rootOffset tree
  sorted : tree.Sorted

/-! ## The search in the tree -/

/-- The search in the tree itself. -/
def Tree.search (word : List Byte) : Tree → Output
  | .leaf => .notFound word
  | .node l nodeWord count price r =>
      match compareStrings word nodeWord with
      | .eq => .found word count price
      | .lt => l.search word
      | .gt => r.search word

theorem Tree.find_of_lt {word nodeWord : List Byte} {count price : ℕ} {l r : Tree}
    (hsorted : (Tree.node l nodeWord count price r).Sorted) (h : word < nodeWord) :
    (Tree.node l nodeWord count price r).find word = l.find word := by
  have hright : r.entries.find? (fun e ↦ decide (e.1 = word)) = none := by
    apply List.find?_eq_none.mpr
    intro e he heq
    have hlt := hsorted.2.2.2 e he
    rw [of_decide_eq_true heq] at hlt
    exact lt_asymm h hlt
  rw [Tree.find, Tree.entries, List.find?_append, List.find?_cons_of_neg (by simpa using h.ne'),
    hright, Option.or_none, ← Tree.find]

theorem Tree.find_of_gt {word nodeWord : List Byte} {count price : ℕ} {l r : Tree}
    (hsorted : (Tree.node l nodeWord count price r).Sorted) (h : nodeWord < word) :
    (Tree.node l nodeWord count price r).find word = r.find word := by
  have hleft : l.entries.find? (fun e ↦ decide (e.1 = word)) = none := by
    apply List.find?_eq_none.mpr
    intro e he heq
    have hlt := hsorted.2.2.1 e he
    rw [of_decide_eq_true heq] at hlt
    exact lt_asymm h hlt
  rw [Tree.find, Tree.entries, List.find?_append, List.find?_cons_of_neg (by simpa using h.ne),
    hleft, Option.none_or, ← Tree.find]

theorem Tree.find_self {word : List Byte} {count price : ℕ} {l r : Tree}
    (hsorted : (Tree.node l word count price r).Sorted) :
    (Tree.node l word count price r).find word = .found word count price := by
  have hleft : l.entries.find? (fun e ↦ decide (e.1 = word)) = none := by
    apply List.find?_eq_none.mpr
    intro e he heq
    exact (hsorted.2.2.1 e he).ne (of_decide_eq_true heq)
  rw [Tree.find, Tree.entries, List.find?_append, List.find?_cons_of_pos (by simp), hleft,
    Option.none_or]

/-- In a search tree the search finds the word. -/
theorem Tree.search_eq_find {tree : Tree} (hsorted : tree.Sorted) (word : List Byte) :
    tree.search word = tree.find word := by
  induction tree with
  | leaf => rfl
  | node l nodeWord count price r ihl ihr =>
      rw [Tree.search]
      rcases lt_trichotomy word nodeWord with hlt | rfl | hgt
      · rw [compareStrings_of_lt hlt, Tree.find_of_lt hsorted hlt]
        exact ihl hsorted.1
      · rw [compareStrings_self, Tree.find_self hsorted]
      · rw [compareStrings_of_gt hgt, Tree.find_of_gt hsorted hgt]
        exact ihr hsorted.2.1

/-! ## Both programs search the tree -/

variable {layout : Layout} {bytes word : List Byte} {offset fuel : ℕ} {tree : Tree}

theorem Lookup2.solveLoop_eq (h : Stored layout bytes offset tree) (hword : 0 ∉ word)
    (hfuel : tree.height < fuel) :
    Lookup2.solveLoop layout word bytes fuel offset = some (tree.search word) := by
  induction h generalizing fuel with
  | leaf =>
      obtain ⟨n, rfl⟩ := Nat.exists_eq_add_of_lt hfuel
      rfl
  | @node offset node nodeWord l r hne hlength hnode hterminated _ _ ihl ihr =>
      obtain ⟨n, rfl⟩ := Nat.exists_eq_add_of_lt (Nat.zero_lt_of_lt hfuel)
      rw [Tree.height] at hfuel
      simp only [Nat.zero_add, Lookup2.solveLoop, hne, if_false, hlength, ne_eq, not_true_eq_false,
        hnode, strcmp_of_terminated Fin.zero_le hword hterminated, Tree.search]
      cases compareStrings word nodeWord with
      | eq => rfl
      | lt => exact ihl (by omega)
      | gt => exact ihr (by omega)

/-- The word does not fit into the buffer, and what is in the buffer is no reason to stop. -/
def Overlong (nodeWord word : List Byte) : Prop :=
  nodeSize ≤ nodeWord.length ∧ nodeWord.take nodeSize <+: word

instance (nodeWord word : List Byte) : Decidable (Overlong nodeWord word) :=
  inferInstanceAs (Decidable (_ ∧ _))

/-- No word on the search path is overlong. -/
def Tree.Clear (word : List Byte) : Tree → Prop
  | .leaf => True
  | .node l nodeWord _ _ r =>
      ¬ Overlong nodeWord word ∧ (word < nodeWord → l.Clear word) ∧
        (nodeWord < word → r.Clear word)

instance Tree.decidableClear (word : List Byte) : (tree : Tree) → Decidable (tree.Clear word)
  | .leaf => isTrue trivial
  | .node l nodeWord _ _ r =>
      have := Tree.decidableClear word l
      have := Tree.decidableClear word r
      inferInstanceAs (Decidable (¬ Overlong nodeWord word ∧ (word < nodeWord → l.Clear word) ∧
        (nodeWord < word → r.Clear word)))

/-- A short word is terminated in the buffer, whatever was there before. -/
theorem terminated_buffer {memory nodeWord old : List Byte} (h : Terminated memory nodeWord)
    (hshort : nodeWord.length < nodeSize) : Terminated (memory.take nodeSize ++ old) nodeWord := by
  obtain ⟨hzero, rest, rfl⟩ := h
  refine ⟨hzero, ?_⟩
  apply List.IsPrefix.trans _ (List.prefix_append _ old)
  rw [List.prefix_take_iff]
  exact ⟨List.prefix_append _ _, by simpa using hshort⟩

/-- What `strcmp` finds in the buffer. -/
theorem strcmp_buffer {memory nodeWord old : List Byte} (hword : 0 ∉ word)
    (h : Terminated memory nodeWord) (hold : old.length = nodeSize) :
    strcmp word (memory.take nodeSize ++ old.drop (memory.take nodeSize).length) =
      if Overlong nodeWord word then none else some (compareStrings word nodeWord) := by
  rcases lt_or_ge nodeWord.length nodeSize with hshort | hlong
  · rw [if_neg fun hover ↦ hshort.not_ge hover.1]
    exact strcmp_of_terminated Fin.zero_le hword (terminated_buffer h hshort)
  · have hmemory := strcmp_of_terminated Fin.zero_le hword h
    obtain ⟨hzero, rest, rfl⟩ := h
    have htake : (nodeWord ++ [0] ++ rest).take nodeSize = nodeWord.take nodeSize := by
      rw [List.append_assoc, List.take_append_of_le_length hlong]
    have hdrop : old.drop (nodeWord.take nodeSize).length = [] := by
      apply List.drop_eq_nil_of_le
      rw [List.length_take, hold, min_eq_left hlong]
    have hnone : strcmp word (nodeWord.take nodeSize) = none ↔ nodeWord.take nodeSize <+: word :=
      strcmp_of_not_terminated hword fun hmem ↦ hzero (List.mem_of_mem_take hmem)
    rw [htake, hdrop, List.append_nil]
    split
    · next hover => exact hnone.mpr hover.2
    · next hover =>
      have hsome : strcmp word (nodeWord.take nodeSize) ≠ none := fun heq ↦
        hover ⟨hlong, hnone.mp heq⟩
      rw [← htake] at hsome ⊢
      rw [← strcmp_take hsome, hmemory]

/-- The first program searches the tree as well, until a word on the path is overlong. -/
theorem Lookup1.solveLoop_eq (h : Stored layout bytes offset tree) (hword : 0 ∉ word)
    (hfuel : tree.height < fuel) {pos : ℕ} {nodeWord : List Byte}
    (hbuffer : nodeWord.length = nodeSize) :
    (tree.Clear word → ∃ pos', Lookup1.solveLoop layout word fuel ⟨bytes, pos⟩ offset nodeWord =
        some (tree.search word, ⟨bytes, pos'⟩)) ∧
      (¬ tree.Clear word →
        Lookup1.solveLoop layout word fuel ⟨bytes, pos⟩ offset nodeWord = none) := by
  induction h generalizing fuel pos nodeWord with
  | leaf =>
      obtain ⟨n, rfl⟩ := Nat.exists_eq_add_of_lt hfuel
      exact ⟨fun _ ↦ ⟨pos, rfl⟩, fun hnot ↦ absurd trivial hnot⟩
  | @node offset node treeWord l r hne hlength hnode hterminated _ _ ihl ihr =>
      obtain ⟨n, rfl⟩ := Nat.exists_eq_add_of_lt (Nat.zero_lt_of_lt hfuel)
      rw [Tree.height] at hfuel
      have hstrcmp := strcmp_buffer hword hterminated hbuffer
      rw [Nat.add_comm offset] at hstrcmp
      have hbuffer' : ((bytes.drop (nodeSize + offset)).take nodeSize ++
          nodeWord.drop ((bytes.drop (nodeSize + offset)).take nodeSize).length).length =
            nodeSize := by
        rw [List.length_append, List.length_drop, hbuffer, List.length_take]
        omega
      simp only [Nat.zero_add, Lookup1.solveLoop, hne, if_false, FILE.fseek, FILE.fread, hlength,
        ne_eq, not_true_eq_false, hnode, hstrcmp, Tree.search, Tree.Clear]
      by_cases hover : Overlong treeWord word
      · simp [hover]
      rcases lt_trichotomy word treeWord with hlt | rfl | hgt
      · have hrec := @ihl n (by omega) (nodeSize + offset +
          ((bytes.drop (nodeSize + offset)).take nodeSize).length) _ hbuffer'
        simpa [hover, compareStrings_of_lt hlt, hlt, hlt.not_gt] using hrec
      · simp [hover, compareStrings_self]
      · have hrec := @ihr n (by omega) (nodeSize + offset +
          ((bytes.drop (nodeSize + offset)).take nodeSize).length) _ hbuffer'
        simpa [hover, compareStrings_of_gt hgt, hgt, hgt.not_gt] using hrec

/-! ## Sequences of words -/

variable {words : List (List Byte)}

theorem Lookup2.solveAll_eq (h : WellFormed layout bytes tree) (hwords : ∀ word ∈ words, 0 ∉ word)
    (hfuel : tree.height < fuel) :
    Lookup2.solveAll layout fuel words bytes = some (words.map fun word ↦ tree.find word) := by
  induction words with
  | nil => rfl
  | cons word words ih =>
      obtain ⟨hword, hwords⟩ := List.forall_mem_cons.mp hwords
      have hsolve : Lookup2.solve layout fuel word bytes = some (tree.find word) := by
        rw [← Tree.search_eq_find h.sorted]
        exact Lookup2.solveLoop_eq h.stored hword hfuel
      have hrest := ih hwords
      rw [Lookup2.solveAll] at hrest ⊢
      simp [hsolve, hrest]

theorem Lookup1.solveAll_eq (h : WellFormed layout bytes tree) (hwords : ∀ word ∈ words, 0 ∉ word)
    (hfuel : tree.height < fuel) {pos : ℕ} {nodeWords : ℕ → List Byte}
    (hbuffers : ∀ i, (nodeWords i).length = nodeSize) :
    Lookup1.solveAll layout fuel words ⟨bytes, pos⟩ nodeWords =
        some (words.map fun word ↦ tree.find word) ↔
      ∀ word ∈ words, tree.Clear word := by
  induction words generalizing pos nodeWords with
  | nil => simp [Lookup1.solveAll]
  | cons word words ih =>
      obtain ⟨hword, hwords⟩ := List.forall_mem_cons.mp hwords
      obtain ⟨hclear, hnot⟩ := Lookup1.solveLoop_eq h.stored hword hfuel (hbuffers 0)
      rw [List.forall_mem_cons, Lookup1.solveAll, Lookup1.solve]
      by_cases hfirst : tree.Clear word
      · obtain ⟨pos', hsolve⟩ := hclear hfirst
        have hrest := @ih hwords pos' (fun i ↦ nodeWords (i + 1)) fun i ↦ hbuffers (i + 1)
        rw [hsolve, ← hrest, Tree.search_eq_find h.sorted]
        simp [hfirst, Option.bind_eq_some_iff]
      · rw [hnot hfirst]
        simp [hfirst]

/-- Both programs print what the tree holds for each word, exactly if no looked-up word meets an
overlong one on its way through the tree. -/
theorem lookups_agree_iff (h : WellFormed layout bytes tree) (hwords : ∀ word ∈ words, 0 ∉ word)
    (hfuel : tree.height < fuel) {pos : ℕ} {nodeWords : ℕ → List Byte}
    (hbuffers : ∀ i, (nodeWords i).length = nodeSize) :
    (Lookup1.solveAll layout fuel words ⟨bytes, pos⟩ nodeWords =
          Lookup2.solveAll layout fuel words bytes ∧
        Lookup2.solveAll layout fuel words bytes =
          some (words.map fun word ↦ tree.find word)) ↔
      ∀ word ∈ words, tree.Clear word := by
  rw [Lookup2.solveAll_eq h hwords hfuel, Lookup1.solveAll_eq h hwords hfuel hbuffers]
  simp

/-- Four numbers of four bytes each. -/
def littleEndian : Layout where
  toNode bytes :=
    let field i := (bytes.drop (4 * i)).take 4 |>.foldr (fun b n ↦ b.val + 256 * n) 0
    ⟨field 0, field 1, field 2, field 3⟩
  rootOffset := 4
  rootOffset_ne := by decide

/-- The words `hi` and, to its left, `a`. -/
def twoWords : List Byte :=
  [66, 84, 82, 69, 23, 0, 0, 0, 0, 0, 0, 0, 2, 0, 0, 0, 5, 0, 0, 0, 104, 105, 0,
    0, 0, 0, 0, 0, 0, 0, 0, 1, 0, 0, 0, 7, 0, 0, 0, 97, 0]

theorem wellFormed_twoWords :
    WellFormed littleEndian twoWords (.node (.node .leaf [97] 1 7 .leaf) [104, 105] 2 5 .leaf) := by
  refine ⟨by decide, ?_, ?_⟩
  · have hnode : littleEndian.toNode ((twoWords.drop 23).take nodeSize) = ⟨0, 0, 1, 7⟩ := by decide
    have hroot : littleEndian.toNode ((twoWords.drop 4).take nodeSize) = ⟨23, 0, 2, 5⟩ := by decide
    have hleft : Stored littleEndian twoWords 23 (.node .leaf [97] 1 7 .leaf) :=
      .node (by decide) (by decide) hnode ⟨by decide, by decide⟩ .leaf .leaf
    exact .node (by decide) (by decide) hroot ⟨by decide, by decide⟩ hleft .leaf
  · refine ⟨⟨trivial, trivial, by simp [Tree.entries], by simp [Tree.entries]⟩, trivial, ?_, ?_⟩
    · intro e he
      rw [List.mem_singleton.mp he]
      decide
    · simp [Tree.entries]

theorem lookups_agree_iff_twoWords :
    Lookup1.solveAll littleEndian 3 [[98], [104, 105], [97]] ⟨twoWords, 0⟩
        (fun _ ↦ List.replicate 16 1) =
      some [.notFound [98], .found [104, 105] 2 5, .found [97] 1 7] := by
  have hagree := (@lookups_agree_iff littleEndian twoWords 3 _ [[98], [104, 105], [97]]
    wellFormed_twoWords (by decide) (by decide) 0 (fun _ ↦ List.replicate 16 1) fun _ ↦ rfl).mpr
      (by decide)
  rw [hagree.1, hagree.2]
  decide

/-- One word of sixteen letters. -/
def sixteenLetters : List Byte :=
  [66, 84, 82, 69] ++ List.replicate 16 0 ++ List.replicate 16 97 ++ [0]

/-- The second program finds the word. The first one compares it with what is behind its buffer. -/
theorem sixteen_letters_overrun :
    WellFormed littleEndian sixteenLetters
        (.node .leaf (List.replicate 16 97) 0 0 .leaf) ∧
      Lookup2.solveAll littleEndian 2 [List.replicate 16 97] sixteenLetters =
        some [.found (List.replicate 16 97) 0 0] ∧
      Lookup1.solveAll littleEndian 2 [List.replicate 16 97] ⟨sixteenLetters, 0⟩
        (fun _ ↦ List.replicate 16 0) = none := by
  refine ⟨⟨by decide, ?_, trivial, trivial, by simp [Tree.entries], by simp [Tree.entries]⟩,
    by decide, by decide⟩
  have hroot : littleEndian.toNode ((sixteenLetters.drop 4).take nodeSize) = ⟨0, 0, 0, 0⟩ := by
    decide
  exact .node (by decide) (by decide) hroot ⟨by decide, by decide⟩ .leaf .leaf

end SystemProgramming.MadMadAccessPatterns
