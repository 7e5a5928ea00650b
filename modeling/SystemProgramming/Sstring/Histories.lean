import SystemProgramming.Lib.Runs
import SystemProgramming.Sstring.Substitution

/-!
# Histories of appends and substitutions

Several sstrings share a heap, on which a call frees and allocates blocks. An append first hands the
block of the sstring to `realloc` and only then reads the addition, so it cannot add a string to
itself.
-/

namespace SystemProgramming.Sstring

open SystemProgramming.Vector (Outcome)

/-- A string that is handed over as a pointer, with the memory that it points to. -/
structure CString where
  text : List UInt8
  memory : List UInt8
  terminated : Terminated memory text

/-- The blocks that are allocated, and the structs. -/
structure Heap (ι : Type) where
  block : ℕ → Option (List UInt8)
  str : ι → ℕ
  size : ι → ℕ

/-- The answer of `malloc`: `NULL`, or a block and what is in it. -/
abbrev Malloc := Option (ℕ × (ℕ → UInt8))

/-- The answer of `realloc`: `NULL`, or where the block is now, which is `none` if it has not been
moved, and what is in its new bytes. -/
abbrev Realloc := Option (Option ℕ × (ℕ → UInt8))

inductive Call (ι : Type)
  | append (this addition : ι) (answer : Realloc)
  | substitute (this : ι) (offset : ℕ) (target substitution : CString) (answer : Malloc)

/-- A new block is none of those that are allocated. -/
def Call.Valid {ι : Type} (s : Heap ι) : Call ι → Prop
  | append _ _ answer => ∀ p fresh, answer = some (some p, fresh) → s.block p = none
  | substitute _ _ _ _ answer => ∀ p fresh, answer = some (p, fresh) → s.block p = none

/-- What the sstrings hold. -/
abbrev Texts (ι : Type) := ι → List UInt8

namespace Heap

variable {ι : Type} (s : Heap ι)

/-- An access through a pointer into a block that is not allocated is undefined as well. -/
def realloc (p bytes : ℕ) (answer : Realloc) : Outcome (Option (ℕ × Heap ι)) := do
  let old ← access (s.block p)
  match answer with
  | none => .returned none
  | some (place, fresh) =>
      let new := (List.range bytes).map fun i ↦ old.getD i (fresh i)
      let q := place.getD p
      .returned (some (q, { s with
        block := Function.update (Function.update s.block p none) q (some new) }))

variable [DecidableEq ι]

/-- The blocks are in memory, so the sum of two sizes does not wrap. `strcpy` may not be used on
strings that overlap. -/
def append (this addition : ι) (answer : Realloc) : Outcome (ℤ × Heap ι) := do
  let newSize := s.size this + s.size addition
  match ← s.realloc (s.str this) (newSize + 1) answer with
  | none => .outside -- the pointer that is compared with NULL is the old one
  | some (newStr, t) => do
      let source ← access (t.block (s.str addition))
      if s.str addition = newStr then .outside
      else do
        let block ← access (t.block newStr)
        let block ← access (strcpy block (s.size this) source)
        .returned (Int.bmod newSize (2 ^ 32), {
          block := Function.update t.block newStr (some block)
          str := Function.update s.str this newStr
          size := Function.update s.size this newSize })

/-- `sstring_substitute` with its block. The old one is freed at the end. -/
def substitute (this : ι) (offset : ℕ) (target substitution : CString) (answer : Malloc) :
    Outcome (ℤ × Heap ι) := do
  let block ← access (s.block (s.str this))
  let (result, t) ← Sstring.substitute (fun _ _ ↦ answer.map Prod.snd) ⟨block, s.size this⟩ offset
    target.memory substitution.memory
  match answer with
  | some (p, _) =>
      if result = 0 then .returned (0, {
        block := Function.update (Function.update s.block (s.str this) none) p (some t.str)
        str := Function.update s.str this p
        size := Function.update s.size this t.size })
      else .returned (result, s)
  | none => .returned (result, s)

def call : Call ι → Outcome (ℤ × Heap ι)
  | .append this addition answer => s.append this addition answer
  | .substitute this offset target substitution answer =>
      s.substitute this offset target substitution answer

def step (c : Call ι) : Option (Heap ι) :=
  match s.call c with
  | .returned (_, t) => some t
  | _ => none

end Heap

variable {ι : Type} {s t : Heap ι} {texts texts' : Texts ι}

/-- Every sstring has a block of its own that holds its text. -/
structure Represents (s : Heap ι) (texts : Texts ι) : Prop where
  holds : ∀ i, ∃ block, s.block (s.str i) = some block ∧ Holds ⟨block, s.size i⟩ (texts i)
  separate : Function.Injective s.str

/-- There is room for the terminator. -/
theorem Represents.size_lt (h : Represents s texts) (i : ι) :
    ∃ block, s.block (s.str i) = some block ∧ s.size i < block.length := by
  obtain ⟨block, hblock, hterminated, hsize⟩ := h.holds i
  refine ⟨block, hblock, ?_⟩
  have hle := hterminated.2.length_le
  rw [List.length_append, List.length_singleton] at hle
  have hlength : s.size i = (texts i).length := hsize
  exact (Nat.lt_of_succ_le (hlength ▸ hle))

/-- Only one sstring has been changed. -/
def Unchanged (this : ι) (s t : Heap ι) : Prop :=
  ∀ i, i ≠ this → t.str i = s.str i ∧ t.size i = s.size i ∧ t.block (s.str i) = s.block (s.str i)

variable [DecidableEq ι]

/-- What a call is for: the result and the texts behind it. -/
inductive Follows (texts : Texts ι) : Call ι → ℤ → Texts ι → Prop
  | append {this addition : ι} {answer : Realloc} :
      Follows texts (.append this addition answer) (texts this ++ texts addition).length
        (Function.update texts this (texts this ++ texts addition))
  | replaced {this : ι} {offset : ℕ} {target substitution : CString} {answer : Malloc}
      {front behind : List UInt8} :
      offset < (texts this).length → target.text ≠ [] →
      FirstOccurrence target.text (texts this) offset front behind →
      Follows texts (.substitute this offset target substitution answer) 0
        (Function.update texts this (front ++ substitution.text ++ behind))
  | kept {this : ι} {offset : ℕ} {target substitution : CString} {answer : Malloc} :
      answer = none ∨ ¬ (offset < (texts this).length ∧ target.text ≠ [] ∧
        ∃ front behind, texts this = front ++ target.text ++ behind ∧ offset ≤ front.length) →
      Follows texts (.substitute this offset target substitution answer) (-1) texts

def Call.this : Call ι → ι
  | append this _ _ => this
  | substitute this _ _ _ _ => this

/-- A call returns, and its sstring holds what it should. -/
def Call.Correct (s : Heap ι) (texts : Texts ι) (c : Call ι) : Prop :=
  ∃ result t texts', s.call c = .returned (result, t) ∧ Follows texts c result texts' ∧
    Represents t texts' ∧ Unchanged c.this s t

/-- The addition is another sstring, `realloc` grants the room, and the new size is an `int`. -/
def Call.Fine (s : Heap ι) : Call ι → Prop
  | append this addition answer =>
      this ≠ addition ∧ answer.isSome ∧ s.size this + s.size addition < 2 ^ 31
  | substitute .. => True

/-! ## Appending -/

omit [DecidableEq ι] in
theorem Heap.realloc_eq {p bytes : ℕ} {old : List UInt8} (h : s.block p = some old)
    (place : Option ℕ) (fresh : ℕ → UInt8) : s.realloc p bytes (some (place, fresh)) =
      .returned (some (place.getD p, { s with
        block := Function.update (Function.update s.block p none) (place.getD p)
          (some ((List.range bytes).map fun i ↦ old.getD i (fresh i))) })) := by
  simp only [realloc, h, access, Outcome.returned_bind]

/-- The old string stays at the beginning of the new block, and the addition has room behind it. -/
theorem strcpy_grown {old memory text addition : List UInt8} (hold : Terminated old text)
    (hmemory : Terminated memory addition) (fresh : ℕ → UInt8) :
    strcpy ((List.range (text.length + addition.length + 1)).map fun i ↦ old.getD i (fresh i))
      text.length memory = some (text ++ addition ++ [0]) := by
  set new := (List.range (text.length + addition.length + 1)).map fun i ↦ old.getD i (fresh i)
    with hnew
  obtain ⟨-, rest, hrest⟩ := hold
  have htake : new.take text.length = text := by
    apply List.ext_getElem
    · simp only [hnew, List.length_take, List.length_map, List.length_range]
      omega
    · intro i hi hi'
      rw [List.getElem_take]
      simp only [hnew, List.getElem_map, List.getElem_range, ← hrest, List.append_assoc]
      rw [List.getD_append _ _ _ _ hi', List.getD_eq_getElem _ _ hi']
  have hdrop : (new.drop text.length).length = addition.length + 1 := by
    simp only [hnew, List.length_drop, List.length_map, List.length_range]
    omega
  have hcpy : strcpy (text ++ new.drop text.length ++ []) text.length memory =
      some (text ++ addition ++ 0 :: []) := strcpy_eq hmemory hdrop
  have hsplit : text ++ new.drop text.length = new := by
    nth_rewrite 1 [← htake]
    exact List.take_append_drop _ _
  rwa [List.append_nil, hsplit] at hcpy

/-- A sstring gets another block, which is the old one or a new one. -/
def Heap.replace (s : Heap ι) (this : ι) (q : ℕ) (block text : List UInt8) : Heap ι where
  block := Function.update (Function.update s.block (s.str this) none) q (some block)
  str := Function.update s.str this q
  size := Function.update s.size this text.length

theorem Represents.replace (h : Represents s texts) {this : ι} {q : ℕ} {block text : List UInt8}
    (hq : q = s.str this ∨ s.block q = none) (hblock : Terminated block text) :
    Represents (s.replace this q block text) (Function.update texts this text) ∧
      Unchanged this s (s.replace this q block text) := by
  -- the blocks of the others are neither the old block nor the new one
  have hothers : ∀ i, i ≠ this → s.str i ≠ s.str this ∧ s.str i ≠ q := by
    intro i hi
    have hne : s.str i ≠ s.str this := fun heq ↦ hi (h.separate heq)
    refine ⟨hne, ?_⟩
    rintro rfl
    obtain ⟨old, hold, -⟩ := h.holds i
    rcases hq with hq | hq
    · exact hne hq
    · rw [hold] at hq
      cases hq
  have hunchanged : Unchanged this s (s.replace this q block text) := by
    intro i hi
    refine ⟨Function.update_of_ne hi _ _, Function.update_of_ne hi _ _, ?_⟩
    simp only [Heap.replace]
    rw [Function.update_of_ne (hothers i hi).2, Function.update_of_ne (hothers i hi).1]
  refine ⟨⟨fun i ↦ ?_, fun i j hij ↦ ?_⟩, hunchanged⟩
  · rcases eq_or_ne i this with rfl | hi
    · refine ⟨block, ?_, ?_, ?_⟩
      · simp [Heap.replace]
      · rwa [Function.update_self]
      · simp [Heap.replace]
    · obtain ⟨old, hold, hholds⟩ := h.holds i
      obtain ⟨hstr, hsize, hsame⟩ := hunchanged i hi
      rw [hstr, hsize, hsame, Function.update_of_ne hi]
      exact ⟨old, hold, hholds⟩
  · simp only [Heap.replace] at hij
    by_cases hi : i = this
    · by_cases hj : j = this
      · exact hi.trans hj.symm
      · rw [hi, Function.update_self, Function.update_of_ne hj] at hij
        exact absurd hij.symm (hothers j hj).2
    · by_cases hj : j = this
      · rw [hj, Function.update_self, Function.update_of_ne hi] at hij
        exact absurd hij (hothers i hi).2
      · rw [Function.update_of_ne hi, Function.update_of_ne hj] at hij
        exact h.separate hij

theorem Heap.append_eq (h : Represents s texts) {this addition : ι} (hne : this ≠ addition)
    {place : Option ℕ} {fresh : ℕ → UInt8}
    (hvalid : (Call.append this addition (some (place, fresh))).Valid s) :
    s.append this addition (some (place, fresh)) =
      .returned (Int.bmod (texts this ++ texts addition).length (2 ^ 32),
        s.replace this (place.getD (s.str this)) (texts this ++ texts addition ++ [0])
          (texts this ++ texts addition)) := by
  obtain ⟨old, hold, hterminated, hsize⟩ := h.holds this
  obtain ⟨source, hsource, hterminated', hsize'⟩ := h.holds addition
  have hstr : s.str addition ≠ s.str this := fun heq ↦ hne (h.separate heq).symm
  have hplace : s.str addition ≠ place.getD (s.str this) := by
    cases place with
    | none => exact hstr
    | some p =>
        rintro rfl
        have hnone := hvalid (s.str addition) fresh rfl
        rw [hsource] at hnone
        cases hnone
  have hthis : s.size this = (texts this).length := hsize
  have haddition : s.size addition = (texts addition).length := hsize'
  simp only [append, Heap.realloc_eq hold, Outcome.returned_bind, Function.update_of_ne hplace,
    Function.update_of_ne hstr, hsource, access, if_neg hplace, Function.update_self, hthis,
    haddition, strcpy_grown hterminated hterminated', Function.update_idem, replace,
    List.length_append]

theorem Call.append_correct (h : Represents s texts) {this addition : ι} {answer : Realloc}
    (hvalid : (Call.append this addition answer).Valid s)
    (hfine : (Call.append this addition answer).Fine s) :
    (Call.append this addition answer).Correct s texts := by
  obtain ⟨hne, hsome, hlt⟩ := hfine
  obtain ⟨⟨place, fresh⟩, rfl⟩ := Option.isSome_iff_exists.mp hsome
  obtain ⟨old, -, hterminated, hsize⟩ := h.holds this
  obtain ⟨source, -, hterminated', hsize'⟩ := h.holds addition
  have hlength : s.size this + s.size addition = (texts this ++ texts addition).length := by
    rw [List.length_append]
    exact congrArg₂ (· + ·) hsize hsize'
  have hint : Int.bmod (texts this ++ texts addition).length (2 ^ 32) =
      (texts this ++ texts addition).length := by
    apply Int.bmod_eq_of_le <;> omega
  have hzero : Terminated (texts this ++ texts addition ++ [0]) (texts this ++ texts addition) := by
    refine ⟨?_, List.prefix_rfl⟩
    rw [List.mem_append, not_or]
    exact ⟨hterminated.1, hterminated'.1⟩
  have hplace : place.getD (s.str this) = s.str this ∨ s.block (place.getD (s.str this)) = none := by
    cases place with
    | none => exact Or.inl rfl
    | some p => exact Or.inr (hvalid p fresh rfl)
  obtain ⟨hrepresents, hunchanged⟩ := h.replace hplace hzero
  refine ⟨_, _, _, (Heap.append_eq h hne hvalid).trans ?_, .append, hrepresents, hunchanged⟩
  rw [hint]

/-- A string cannot be appended to itself: either `realloc` frees the addition, or `strcpy` would
copy it over its own terminator. -/
theorem Heap.append_self (s : Heap ι) (this : ι) (answer : Realloc) :
    s.append this this answer = .outside := by
  rw [append, realloc]
  cases s.block (s.str this) with
  | none => rfl
  | some old =>
      cases answer with
      | none => rfl
      | some placed =>
          obtain ⟨place, fresh⟩ := placed
          simp only [access, Outcome.returned_bind]
          by_cases hmoved : s.str this = place.getD (s.str this)
          · rw [← hmoved, Function.update_self]
            simp only [Outcome.returned_bind, if_true]
          · rw [Function.update_of_ne hmoved, Function.update_self]
            rfl

theorem Heap.append_refused (h : Represents s texts) (this addition : ι) :
    s.append this addition none = .outside := by
  obtain ⟨old, hold, -⟩ := h.holds this
  simp only [append, realloc, hold, access, Outcome.returned_bind]

/-- An append that is not fine goes wrong. -/
theorem Call.fine_of_append_correct (h : Represents s texts) {this addition : ι} {answer : Realloc}
    (hvalid : (Call.append this addition answer).Valid s)
    (hcorrect : (Call.append this addition answer).Correct s texts) :
    (Call.append this addition answer).Fine s := by
  obtain ⟨result, t, texts', hcall, hfollows, -, -⟩ := hcorrect
  have hne : this ≠ addition := by
    rintro rfl
    rw [Heap.call, Heap.append_self] at hcall
    cases hcall
  cases answer with
  | none =>
      rw [Heap.call, Heap.append_refused h] at hcall
      cases hcall
  | some placed =>
      obtain ⟨place, fresh⟩ := placed
      rw [Heap.call, Heap.append_eq h hne hvalid, Outcome.returned.injEq, Prod.mk.injEq] at hcall
      cases hfollows
      obtain ⟨old, -, -, hsize⟩ := h.holds this
      obtain ⟨source, -, -, hsize'⟩ := h.holds addition
      have hlength : s.size this + s.size addition = (texts this ++ texts addition).length := by
        rw [List.length_append]
        exact congrArg₂ (· + ·) hsize hsize'
      refine ⟨hne, rfl, ?_⟩
      have hlt := Int.bmod_lt (x := (texts this ++ texts addition).length) (m := 2 ^ 32) (by decide)
      rw [hcall.1] at hlt
      omega

/-! ## Substituting -/

theorem Call.substitute_correct (h : Represents s texts) {this : ι} {offset : ℕ}
    {target substitution : CString} {answer : Malloc}
    (hvalid : (Call.substitute this offset target substitution answer).Valid s) :
    (Call.substitute this offset target substitution answer).Correct s texts := by
  obtain ⟨old, hold, hholds⟩ := h.holds this
  have hsize : s.size this = (texts this).length := hholds.size
  have hsame : Unchanged this s s := fun _ _ ↦ ⟨rfl, rfl, rfl⟩
  by_cases hkept : answer = none ∨ ¬ (offset < (texts this).length ∧ target.text ≠ [] ∧
      ∃ front behind, texts this = front ++ target.text ++ behind ∧ offset ≤ front.length)
  · refine ⟨-1, s, texts, ?_, .kept hkept, h, hsame⟩
    have hcall : Sstring.substitute (fun _ _ ↦ answer.map Prod.snd) ⟨old, s.size this⟩ offset
        target.memory substitution.memory = .returned (-1, ⟨old, s.size this⟩) := by
      rcases hkept with rfl | hnot
      · exact substitute_of_refused hholds target.terminated substitution.terminated rfl
      · rw [← hsize] at hnot
        exact substitute_not_found hholds target.terminated substitution.terminated hnot
    simp only [Heap.call, Heap.substitute, hold, access, Outcome.returned_bind, hcall]
    cases answer with
    | none => rfl
    | some placed => rfl
  · rw [not_or, not_not] at hkept
    obtain ⟨hne, hoffset, hword, hoccurs⟩ := hkept
    obtain ⟨⟨p, fresh⟩, rfl⟩ := Option.ne_none_iff_exists'.mp hne
    let alloc : Allocator := fun _ _ ↦ some fresh
    have hmalloc : (alloc 0 (s.size this - target.text.length + substitution.text.length + 1)).isSome :=
      rfl
    obtain ⟨front, behind, u, hfirst, hcall, hu, -⟩ := substitute_found hholds target.terminated
      substitution.terminated (hsize ▸ hoffset) hword hoccurs hmalloc
    obtain ⟨hrepresents, hunchanged⟩ := h.replace (Or.inr (hvalid p fresh rfl)) hu.terminated
    refine ⟨0, _, _, ?_, .replaced hoffset hword hfirst, hrepresents, hunchanged⟩
    simp only [Heap.call, Heap.substitute, hold, access, Outcome.returned_bind, Option.map_some,
      show Sstring.substitute (fun _ _ ↦ some fresh) _ _ _ _ = _ from hcall, if_true, Heap.replace,
      hu.size]

/-! ## Runs -/

theorem Call.correct_iff (h : Represents s texts) {c : Call ι} (hvalid : c.Valid s) :
    c.Correct s texts ↔ c.Fine s := by
  cases c with
  | append this addition answer =>
      exact ⟨Call.fine_of_append_correct h hvalid, Call.append_correct h hvalid⟩
  | substitute this offset target substitution answer =>
      exact iff_of_true (Call.substitute_correct h hvalid) trivial

/-- The steps of the texts. -/
def Specified (texts : Texts ι) (c : Call ι) (texts' : Texts ι) : Prop :=
  ∃ result, Follows texts c result texts'

/-- The steps whose new blocks are new. -/
def ValidStep (s : Heap ι) (c : Call ι) (t : Heap ι) : Prop := c.Valid s ∧ s.step c = some t

/-- Where every call is fine, the heap follows the texts. -/
theorem Represents.run (h : Represents s texts) {cs : List (Call ι)}
    (hrun : Run (Guarded ValidStep fun s c ↦ c.Fine s) s cs t) :
    ∃ texts', Run Specified texts cs texts' ∧ Represents t texts' := by
  induction hrun with
  | nil => exact ⟨texts, .nil, h⟩
  | @snoc t u cs c hrun hlast ih =>
      obtain ⟨texts', hspecified, ht⟩ := ih
      obtain ⟨hfine, hvalid, hstep⟩ := hlast
      obtain ⟨result, u', texts'', hcall, hfollows, hu, -⟩ := (Call.correct_iff ht hvalid).mpr hfine
      have heq : t.step c = some u' := by rw [Heap.step, hcall]
      cases hstep.symm.trans heq
      exact ⟨texts'', hspecified.snoc ⟨result, hfollows⟩, hu⟩

/-- After every run in which no string is appended to itself, `realloc` grants the room for every
append and no size exceeds an `int`, the next call is correct exactly if it meets this condition as
well. -/
theorem calls_correct_iff (h : Represents s texts) {cs : List (Call ι)}
    (hrun : Run (Guarded ValidStep fun s c ↦ c.Fine s) s cs t) :
    ∃ texts', Run Specified texts cs texts' ∧ Represents t texts' ∧
      ∀ c : Call ι, c.Valid t → (c.Correct t texts' ↔ c.Fine t) := by
  obtain ⟨texts', hspecified, ht⟩ := h.run hrun
  exact ⟨texts', hspecified, ht, fun c hvalid ↦ Call.correct_iff ht hvalid⟩

/-- The strings `a` and `b`. -/
def twoStrings : Heap Bool where
  block
    | 0 => some [97, 0]
    | 1 => some [98, 0]
    | _ => none
  str := fun i ↦ if i then 1 else 0
  size := fun _ ↦ 1

theorem represents_twoStrings : Represents twoStrings fun i ↦ if i then [98] else [97] where
  holds i := by
    cases i with
    | false => exact ⟨[97, 0], rfl, ⟨by decide, [], rfl⟩, rfl⟩
    | true => exact ⟨[98, 0], rfl, ⟨by decide, [], rfl⟩, rfl⟩
  separate := by decide

/-- `b` is appended to `a`, in a block that is moved. -/
theorem calls_correct_iff_ab : ∃ t texts',
    twoStrings.step (.append false true (some (some 2, fun _ ↦ 7))) = some t ∧
      Represents t texts' ∧ (Call.append true false (some (none, fun _ ↦ 7))).Correct t texts' := by
  obtain ⟨t, ht⟩ : ∃ t, twoStrings.step (.append false true (some (some 2, fun _ ↦ 7))) = some t :=
    ⟨_, rfl⟩
  have hvalid : (Call.append false true (some (some 2, fun _ ↦ 7))).Valid twoStrings := by
    rintro p fresh ⟨⟩
    rfl
  have hrun : Run (Guarded ValidStep fun s c ↦ c.Fine s) twoStrings
      [.append false true (some (some 2, fun _ ↦ 7))] t :=
    .single ⟨⟨by decide, rfl, by decide⟩, hvalid, ht⟩
  obtain ⟨texts', -, hrepresents, hiff⟩ := calls_correct_iff represents_twoStrings hrun
  have hfine : (Call.append true false (some (none, fun _ ↦ 7))).Fine t := by
    cases ht
    exact ⟨by decide, rfl, by decide⟩
  refine ⟨t, texts', ht, hrepresents, (hiff _ ?_).mpr hfine⟩
  rintro p fresh ⟨⟩

/-- A string is appended to itself. -/
theorem append_itself : ¬ ∀ (s t : Heap Bool) (texts : Texts Bool) (cs : List (Call Bool)),
    Represents s texts → Run ValidStep s cs t →
      ∃ texts', Represents t texts' ∧ ∀ c : Call Bool, c.Valid t → c.Correct t texts' := by
  intro h
  obtain ⟨texts', -, hcorrect⟩ := h twoStrings twoStrings _ [] represents_twoStrings .nil
  obtain ⟨result, t, _, hcall, -⟩ := hcorrect (.append false false (some (none, fun _ ↦ 0))) (by
    rintro p fresh ⟨⟩)
  rw [Heap.call, Heap.append_self] at hcall
  cases hcall

end SystemProgramming.Sstring
