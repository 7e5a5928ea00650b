import Mathlib

/-!
# Reading lines into a buffer

A line that is too long for the buffer is read in pieces, of which only the last one ends with the
newline. A file is read line by line exactly if each line fits into the buffer.
-/

namespace SystemProgramming

variable {α : Type*} [DecidableEq α]

/-- At most `n` characters up to the end of the line, and what is left of the file. -/
def readLine (newline : α) : ℕ → List α → List α × List α
  | 0, file => ([], file)
  | _ + 1, [] => ([], [])
  | n + 1, c :: file =>
      if c = newline then ([c], file)
      else
        let (line, rest) := readLine newline n file
        (c :: line, rest)

/-- `fgets` with a buffer for `n` characters and the terminator. Nothing is read at the end of the
file. -/
def fgets (newline : α) (n : ℕ) (file : List α) : Option (List α × List α) :=
  if file = [] then none else some (readLine newline n file)

variable {newline : α} {n : ℕ} {line rest : List α}

theorem readLine_of_lt (hline : newline ∉ line) (h : line.length < n) :
    readLine newline n (line ++ newline :: rest) = (line ++ [newline], rest) := by
  induction line generalizing n with
  | nil =>
      obtain ⟨n, rfl⟩ := Nat.exists_eq_add_of_lt h
      rw [List.nil_append, List.nil_append, readLine, if_pos rfl]
  | cons c line ih =>
      obtain ⟨hc, hline⟩ := not_or.mp (List.mem_cons.not.mp hline)
      obtain ⟨n, rfl⟩ := Nat.exists_eq_add_of_lt h
      have hlength : line.length < line.length + 1 + n := by omega
      rw [List.length_cons, List.cons_append, readLine, if_neg (Ne.symm hc), ih hline hlength]
      rfl

theorem readLine_of_le (hline : newline ∉ line) (h : n ≤ line.length) :
    readLine newline n (line ++ rest) = (line.take n, line.drop n ++ rest) := by
  induction line generalizing n with
  | nil =>
      obtain rfl := Nat.le_zero.mp h
      rfl
  | cons c line ih =>
      obtain ⟨hc, hline⟩ := not_or.mp (List.mem_cons.not.mp hline)
      cases n with
      | zero => rfl
      | succ n =>
          rw [List.cons_append, readLine, if_neg (Ne.symm hc), ih hline (Nat.le_of_succ_le_succ h)]
          rfl

theorem readLine_append : (readLine newline n rest).1 ++ (readLine newline n rest).2 = rest := by
  induction rest generalizing n with
  | nil => cases n <;> rfl
  | cons c rest ih =>
      cases n with
      | zero => rfl
      | succ n =>
          rw [readLine]
          split
          · rfl
          · exact congrArg (List.cons c) ih

/-! ## Whole files -/

section

variable (newline : α) (n : ℕ)

/-- What the calls of `fgets` give, as long as there are at most `bound` calls. -/
def readLoop : ℕ → List α → List (List α)
  | 0, _ => []
  | bound + 1, file => match fgets newline n file with
    | none => []
    | some (line, rest) => line :: readLoop bound rest

/-- What the calls of `fgets` give until the end of the file. There are not more of them than
characters, since each reads one. -/
def readAll (file : List α) : List (List α) := readLoop newline n file.length file

/-- The first line of a file with its newline, and what is left. -/
def firstLine (file : List α) : List α × List α := readLine newline file.length file

/-- The lines of a file with their newlines. -/
def fileLines (file : List α) : List (List α) := readAll newline file.length file

end

variable {file : List α} {c : α} {bound m : ℕ}

theorem firstLine_cons : firstLine newline (c :: file) =
    if c = newline then ([c], file)
    else (c :: (firstLine newline file).1, (firstLine newline file).2) := rfl

theorem firstLine_append : (firstLine newline file).1 ++ (firstLine newline file).2 = file :=
  readLine_append

/-- A buffer cuts the line. -/
theorem readLine_eq_take : readLine newline n file =
    ((firstLine newline file).1.take n,
      (firstLine newline file).1.drop n ++ (firstLine newline file).2) := by
  induction file generalizing n with
  | nil => cases n <;> rfl
  | cons c file ih =>
      cases n with
      | zero =>
          rw [readLine, List.take_zero, List.drop_zero, firstLine_append]
      | succ n =>
          rw [readLine, firstLine_cons]
          split
          · simp
          · rw [ih, List.take_succ_cons, List.drop_succ_cons]

theorem firstLine_ne_nil (h : file ≠ []) : (firstLine newline file).1 ≠ [] := by
  cases file with
  | nil => exact absurd rfl h
  | cons c file =>
      rw [firstLine_cons]
      split
      · exact List.cons_ne_nil c _
      · exact List.cons_ne_nil c _

/-- What is left of a line in front of the next one is a line itself. -/
theorem firstLine_drop (h : n < (firstLine newline file).1.length) :
    firstLine newline ((firstLine newline file).1.drop n ++ (firstLine newline file).2) =
      ((firstLine newline file).1.drop n, (firstLine newline file).2) := by
  induction file generalizing n with
  | nil => cases h
  | cons c file ih =>
      rw [firstLine_cons] at h ⊢
      split at h
      · next hc =>
        obtain rfl := Nat.lt_one_iff.mp h
        rw [if_pos hc, List.drop_zero, List.singleton_append, firstLine_cons, if_pos hc]
      · next hc =>
        rw [if_neg hc]
        cases n with
        | zero =>
            rw [List.drop_zero, List.cons_append, firstLine_append, firstLine_cons, if_neg hc]
        | succ n => exact ih (Nat.lt_of_succ_lt_succ h)

/-- The last line has no end. -/
theorem readLine_of_length_le (h : file.length ≤ n) :
    readLine newline n file = firstLine newline file := by
  have hle : (firstLine newline file).1.length ≤ n := by
    have happend : (firstLine newline file).1 ++ (firstLine newline file).2 = file :=
      firstLine_append
    have hlength := congrArg List.length happend
    rw [List.length_append] at hlength
    omega
  rw [readLine_eq_take, List.take_of_length_le hle, List.drop_of_length_le hle, List.nil_append]

theorem length_snd_readLine_lt (newline : α) (hn : 0 < n) (hne : file ≠ []) :
    (readLine newline n file).2.length < file.length := by
  have happend : (readLine newline n file).1 ++ (readLine newline n file).2 = file :=
    readLine_append
  have hlength := congrArg List.length happend
  have hpos : 0 < (firstLine newline file).1.length :=
    List.length_pos_iff.mpr (firstLine_ne_nil hne)
  have hread : 0 < (readLine newline n file).1.length := by
    rw [readLine_eq_take, List.length_take]
    exact lt_min hn hpos
  rw [List.length_append] at hlength
  omega

theorem readLoop_nil : readLoop newline n bound [] = [] := by
  cases bound <;> rfl

/-- A larger bound makes no difference. -/
theorem readLoop_eq_readAll (hn : 0 < n) (h : file.length ≤ bound) :
    readLoop newline n bound file = readAll newline n file := by
  induction bound using Nat.strong_induction_on generalizing file with
  | h bound ih =>
      cases file with
      | nil => rw [readLoop_nil, readAll, readLoop_nil]
      | cons c file =>
          obtain ⟨bound, rfl⟩ := Nat.exists_eq_add_of_le' (Nat.one_le_of_lt h)
          have hlt := length_snd_readLine_lt newline hn (List.cons_ne_nil c file)
          have hle : (readLine newline n (c :: file)).2.length ≤ file.length :=
            Nat.le_of_lt_succ hlt
          rw [List.length_cons, Nat.succ_le_succ_iff] at h
          rw [readAll, List.length_cons, readLoop, readLoop, fgets, if_neg (List.cons_ne_nil c file)]
          dsimp only
          rw [ih bound (Nat.lt_succ_self _) (hle.trans h)]
          rcases h.lt_or_eq with hlt' | rfl
          · rw [ih file.length (hlt'.trans (Nat.lt_succ_self _)) hle]
          · rw [ih file.length (Nat.lt_succ_self _) hle]

theorem readAll_of_ne_nil (hn : 0 < n) (hne : file ≠ []) : readAll newline n file =
    (readLine newline n file).1 :: readAll newline n (readLine newline n file).2 := by
  have hlt := length_snd_readLine_lt newline hn hne
  rw [← readLoop_eq_readAll hn hlt.le, ← readLoop_eq_readAll hn (Nat.le_succ file.length), readLoop,
    fgets, if_neg hne]

/-- Any buffer that has room for the whole file shows its lines. -/
theorem readAll_eq_fileLines (h : file.length ≤ n) :
    readAll newline n file = fileLines newline file := by
  have hcongr (k : ℕ) : ∀ (file : List α) (m n : ℕ), file.length ≤ k → k ≤ m → k ≤ n →
      readAll newline m file = readAll newline n file := by
    induction k with
    | zero =>
        intro file m n hk _ _
        obtain rfl := List.length_eq_zero_iff.mp (Nat.le_zero.mp hk)
        rfl
    | succ k ih =>
        intro file m n hk hm hn
        by_cases hne : file = []
        · rw [hne]
          rfl
        · have hlt := length_snd_readLine_lt newline (Nat.zero_lt_of_lt hm) hne
          rw [readAll_of_ne_nil (Nat.zero_lt_of_lt hm) hne,
            readAll_of_ne_nil (Nat.zero_lt_of_lt hn) hne]
          rw [readLine_of_length_le (hk.trans hm)] at hlt ⊢
          rw [readLine_of_length_le (hk.trans hn), ih _ m n (by omega) (by omega) (by omega)]
  exact hcongr file.length file n file.length le_rfl h le_rfl

theorem fileLines_of_ne_nil (hne : file ≠ []) : fileLines newline file =
    (firstLine newline file).1 :: fileLines newline (firstLine newline file).2 := by
  have hpos := List.length_pos_iff.mpr hne
  have hlt := length_snd_readLine_lt newline hpos hne
  rw [fileLines, readAll_of_ne_nil hpos hne]
  rw [readLine_of_length_le le_rfl] at hlt ⊢
  rw [readAll_eq_fileLines hlt.le]

/-- There are at least as many pieces as lines. They are the lines exactly if each line fits into
the buffer, and otherwise there are more. -/
theorem readAll_spec (hn : 0 < n) (file : List α) :
    (fileLines newline file).length ≤ (readAll newline n file).length ∧
      ((∀ line ∈ fileLines newline file, line.length ≤ n) →
        readAll newline n file = fileLines newline file) ∧
      ((readAll newline n file).length = (fileLines newline file).length →
        ∀ line ∈ fileLines newline file, line.length ≤ n) := by
  induction hk : file.length using Nat.strong_induction_on generalizing file with
  | h k ih =>
      subst hk
      by_cases hne : file = []
      · subst hne
        exact ⟨le_rfl, fun _ ↦ rfl, fun _ _ hline ↦ by cases hline⟩
      · have hlt := length_snd_readLine_lt newline hn hne
        rw [readAll_of_ne_nil hn hne, fileLines_of_ne_nil hne]
        rw [readLine_eq_take] at hlt ⊢
        obtain ⟨hle, hfit, hcount⟩ := ih _ hlt _ rfl
        rcases le_or_gt (firstLine newline file).1.length n with hshort | hlong
        · rw [List.drop_of_length_le hshort, List.nil_append] at hle hfit hcount ⊢
          rw [List.take_of_length_le hshort]
          simp only [List.length_cons, List.forall_mem_cons]
          refine ⟨Nat.succ_le_succ hle, fun hall ↦ ?_, fun hlength ↦ ?_⟩
          · rw [hfit hall.2]
          · exact ⟨hshort, hcount (Nat.succ.inj hlength)⟩
        · have hrest : (firstLine newline file).1.drop n ++ (firstLine newline file).2 ≠ [] := by
            simp [hlong]
          rw [fileLines_of_ne_nil hrest, firstLine_drop hlong] at hle
          simp only [List.length_cons, List.forall_mem_cons] at hle ⊢
          refine ⟨by omega, fun hall ↦ ?_, fun hlength ↦ ?_⟩
          · exact absurd hall.1 hlong.not_ge
          · omega

theorem readAll_eq_fileLines_of_fits (hn : 0 < n)
    (h : ∀ line ∈ fileLines newline file, line.length ≤ n) :
    readAll newline n file = fileLines newline file := (readAll_spec hn file).2.1 h

/-- A line that is too long is counted as several ones. -/
theorem length_readAll_eq_iff (hn : 0 < n) :
    (readAll newline n file).length = (fileLines newline file).length ↔
      ∀ line ∈ fileLines newline file, line.length ≤ n := by
  refine ⟨(readAll_spec hn file).2.2, fun h ↦ ?_⟩
  rw [readAll_eq_fileLines_of_fits hn h]

end SystemProgramming
