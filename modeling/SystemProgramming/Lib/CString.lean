import Mathlib

/-!
# Counters and strings

A counter is an `int`. A string is a list of characters without the terminator. It is compared with
what is found in memory, where the other string need not be terminated.
-/

namespace SystemProgramming

/-! ## Counting -/

/-- `n++` for an `int`. An overflow is undefined. -/
def increment (n : ℕ) : Option ℕ := if n + 1 < 2 ^ 31 then some (n + 1) else none

theorem increment_of_lt {n : ℕ} (h : n + 1 < 2 ^ 31) : increment n = some (n + 1) := if_pos h

theorem increment_of_not_lt {n : ℕ} (h : ¬ n + 1 < 2 ^ 31) : increment n = none := if_neg h

/-! ## Comparing -/

variable {α : Type*} [LinearOrder α]

/-- How two strings compare. -/
def compareStrings (s t : List α) : Ordering := if s = t then .eq else if s < t then .lt else .gt

theorem compareStrings_self (s : List α) : compareStrings s s = .eq := if_pos rfl

theorem compareStrings_of_lt {s t : List α} (h : s < t) : compareStrings s t = .lt := by
  rw [compareStrings, if_neg (ne_of_lt h), if_pos h]

theorem compareStrings_of_gt {s t : List α} (h : t < s) : compareStrings s t = .gt := by
  rw [compareStrings, if_neg (ne_of_gt h), if_neg (not_lt_of_gt h)]

theorem compareStrings_cons_self (c : α) (s t : List α) :
    compareStrings (c :: s) (c :: t) = compareStrings s t := by
  simp [compareStrings]

theorem compareStrings_cons_of_ne {c b : α} (h : c ≠ b) (s t : List α) :
    compareStrings (c :: s) (b :: t) = if c < b then .lt else .gt := by
  simp [compareStrings, List.cons_lt_cons_iff, h]

variable [Zero α]

/-- The memory begins with a terminated string. -/
def Terminated (memory s : List α) : Prop := 0 ∉ s ∧ s ++ [0] <+: memory

/-- `strcmp`, where `none` means that it reads beyond the memory. -/
def strcmp : List α → List α → Option Ordering
  | _, [] => none
  | [], b :: _ => some (if b = 0 then .eq else .lt)
  | c :: s, b :: memory => if c = b then strcmp s memory else some (if c < b then .lt else .gt)

/-- Characters are compared as unsigned ones, so that the terminator is the least. -/
theorem strcmp_of_terminated (hzero : ∀ c : α, 0 ≤ c) {s t memory : List α} (hs : 0 ∉ s)
    (h : Terminated memory t) : strcmp s memory = some (compareStrings s t) := by
  obtain ⟨ht, rest, rfl⟩ := h
  induction s generalizing t with
  | nil =>
      cases t with
      | nil => simp [strcmp, compareStrings_self]
      | cons b t =>
          have hb : b ≠ 0 := by
            rintro rfl
            simp at ht
          simp [strcmp, compareStrings_of_lt (List.nil_lt_cons b t), hb]
  | cons c s ih =>
      have hc : c ≠ 0 := by
        rintro rfl
        simp at hs
      have hs' : 0 ∉ s := fun hmem ↦ hs (List.mem_cons_of_mem c hmem)
      cases t with
      | nil => simp [strcmp, compareStrings_of_gt (List.nil_lt_cons c s), hc, (hzero c).not_gt]
      | cons b t =>
          have ht' : 0 ∉ t := fun hmem ↦ ht (List.mem_cons_of_mem b hmem)
          rw [List.cons_append, List.cons_append, strcmp]
          split
          · next heq =>
            rw [heq, compareStrings_cons_self]
            exact ih hs' ht'
          · next hne => rw [compareStrings_cons_of_ne hne]

/-- Without a terminator, the comparison ends exactly if there is a difference. -/
theorem strcmp_of_not_terminated {s t : List α} (hs : 0 ∉ s) (ht : 0 ∉ t) :
    strcmp s t = none ↔ t <+: s := by
  induction s generalizing t with
  | nil =>
      cases t with
      | nil => simp [strcmp]
      | cons b t => simp [strcmp]
  | cons c s ih =>
      have hs' : 0 ∉ s := fun hmem ↦ hs (List.mem_cons_of_mem c hmem)
      cases t with
      | nil => simp [strcmp]
      | cons b t =>
          have ht' : 0 ∉ t := fun hmem ↦ ht (List.mem_cons_of_mem b hmem)
          rw [strcmp, List.cons_prefix_cons]
          split
          · next heq => simp [heq, ih hs' ht']
          · next hne => simp [Ne.symm hne]

/-- If the comparison ends in front of the cut, then the rest does not matter. -/
theorem strcmp_take {s memory : List α} {n : ℕ} (h : strcmp s (memory.take n) ≠ none) :
    strcmp s memory = strcmp s (memory.take n) := by
  induction s generalizing memory n with
  | nil =>
      cases memory with
      | nil => simp
      | cons b memory =>
          cases n with
          | zero => simp [strcmp] at h
          | succ n => simp [strcmp]
  | cons c s ih =>
      cases memory with
      | nil => simp
      | cons b memory =>
          cases n with
          | zero => simp [strcmp] at h
          | succ n =>
              rw [List.take_succ_cons, strcmp] at h
              rw [List.take_succ_cons, strcmp, strcmp]
              split
              · next heq =>
                rw [if_pos heq] at h
                exact ih h
              · rfl

theorem strcmp_append {s memory : List α} (h : strcmp s memory ≠ none) (rest : List α) :
    strcmp s (memory ++ rest) = strcmp s memory := by
  have htake : (memory ++ rest).take memory.length = memory := List.take_left
  have hcut := @strcmp_take _ _ _ s (memory ++ rest) memory.length
  rw [htake] at hcut
  exact hcut h

/-- How many bytes of the memory `strcmp` reads. -/
def strcmpLength : List α → List α → ℕ
  | _, [] => 0
  | [], _ :: _ => 1
  | c :: s, b :: memory => if c = b then strcmpLength s memory + 1 else 1

omit [Zero α] in
theorem strcmpLength_le (s memory : List α) : strcmpLength s memory ≤ memory.length := by
  induction s generalizing memory with
  | nil => cases memory <;> simp [strcmpLength]
  | cons c s ih =>
      cases memory with
      | nil => simp [strcmpLength]
      | cons b memory =>
          rw [strcmpLength, List.length_cons]
          split
          · exact Nat.succ_le_succ (ih memory)
          · exact Nat.le_add_left 1 _

/-- Nothing behind the memory is read exactly if the comparison ends in it. -/
theorem strcmpLength_append_le_iff {s memory rest : List α} (hrest : rest ≠ []) :
    strcmpLength s (memory ++ rest) ≤ memory.length ↔ strcmp s memory ≠ none := by
  induction s generalizing memory with
  | nil =>
      cases memory with
      | nil =>
          obtain ⟨b, rest, rfl⟩ := List.exists_cons_of_ne_nil hrest
          simp [strcmpLength, strcmp]
      | cons b memory => simp [strcmpLength, strcmp]
  | cons c s ih =>
      cases memory with
      | nil =>
          obtain ⟨b, rest, rfl⟩ := List.exists_cons_of_ne_nil hrest
          rw [List.nil_append, strcmpLength, strcmp]
          split <;> simp
      | cons b memory =>
          rw [List.cons_append, strcmpLength, strcmp, List.length_cons]
          split
          · rw [Nat.add_le_add_iff_right, ih]
          · simp

end SystemProgramming
