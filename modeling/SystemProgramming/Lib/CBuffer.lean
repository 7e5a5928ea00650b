import SystemProgramming.Lib.CString

/-!
# Strings in buffers

A pointer into a block of memory is the block from there on. The functions of the C library give
`none` if they leave the block that they read from or write to.
-/

namespace SystemProgramming

variable {α : Type*} {block block' memory rest front old s cs : List α} {c : α} {i n : ℕ}

/-! ## Writing -/

/-- `block[i] = c` -/
def storeAt (block : List α) (i : ℕ) (c : α) : Option (List α) :=
  if i < block.length then some (block.set i c) else none

def storeAll : List α → ℕ → List α → Option (List α)
  | block, _, [] => some block
  | block, i, c :: cs => (storeAt block i c).bind fun block ↦ storeAll block (i + 1) cs

theorem storeAt_eq {a : α} :
    storeAt (front ++ a :: rest) front.length c = some (front ++ c :: rest) := by
  rw [storeAt, if_pos (by simp), List.set_append_right _ _ le_rfl, Nat.sub_self, List.set_cons_zero]

theorem storeAt_of_le (h : block.length ≤ i) : storeAt block i c = none :=
  if_neg (not_lt.mpr h)

theorem length_storeAt (h : storeAt block i c = some block') : block'.length = block.length := by
  obtain ⟨-, heq⟩ := Option.ite_none_right_eq_some.mp h
  cases heq
  exact List.length_set

theorem length_storeAll (h : storeAll block i cs = some block') :
    block'.length = block.length := by
  induction cs generalizing block i with
  | nil =>
      cases h
      rfl
  | cons c cs ih =>
      obtain ⟨block₁, hfirst, hrest⟩ := Option.bind_eq_some_iff.mp h
      exact (ih hrest).trans (length_storeAt hfirst)

/-- What stood at the place is replaced. -/
theorem storeAll_eq (h : old.length = cs.length) :
    storeAll (front ++ old ++ rest) front.length cs = some (front ++ cs ++ rest) := by
  induction cs generalizing front old with
  | nil =>
      obtain rfl := List.length_eq_zero_iff.mp h
      rfl
  | cons c cs ih =>
      obtain ⟨a, old, rfl⟩ := List.exists_cons_of_length_eq_add_one h
      have hlength : old.length = cs.length := Nat.succ.inj h
      have hnext : storeAll (front ++ [c] ++ old ++ rest) (front ++ [c]).length cs =
          some (front ++ [c] ++ cs ++ rest) := ih hlength
      rw [List.length_append, List.length_singleton] at hnext
      rw [storeAll, List.append_assoc, List.cons_append, storeAt_eq, Option.bind_some]
      simpa using hnext

variable [Zero α]

/-- A pointer into a string points to the rest of it. -/
theorem Terminated.drop (h : Terminated memory s) (hn : n ≤ s.length) :
    Terminated (memory.drop n) (s.drop n) := by
  obtain ⟨hs, rest, rfl⟩ := h
  refine ⟨fun hmem ↦ hs (List.mem_of_mem_drop hmem), rest, ?_⟩
  rw [List.append_assoc, List.append_assoc, List.drop_append_of_le_length hn]

variable [DecidableEq α]

/-! ## Reading -/

/-- The string that a pointer points to. -/
def readString : List α → Option (List α)
  | [] => none
  | b :: memory => if b = 0 then some [] else (readString memory).map (b :: ·)

def strlen (memory : List α) : Option ℕ := (readString memory).map List.length

/-- The distance of the first occurrence of a character, where the inner `none` is `NULL`. -/
def strchr (c : α) : List α → Option (Option ℕ)
  | [] => none
  | b :: memory =>
      if b = c then some (some 0)
      else if b = 0 then some none
      else (strchr c memory).map (Option.map (· + 1))

theorem Terminated.readString (h : Terminated memory s) : readString memory = some s := by
  obtain ⟨hs, rest, rfl⟩ := h
  induction s with
  | nil => exact if_pos rfl
  | cons b s ih =>
      rw [List.mem_cons, not_or] at hs
      rw [List.cons_append, List.cons_append, SystemProgramming.readString,
        if_neg (Ne.symm hs.1), ih hs.2, Option.map_some]

theorem Terminated.strlen (h : Terminated memory s) : strlen memory = some s.length := by
  rw [SystemProgramming.strlen, h.readString, Option.map_some]

theorem strchr_of_mem (hfront : c ∉ front) (hzero : 0 ∉ front) :
    strchr c (front ++ c :: rest) = some (some front.length) := by
  induction front with
  | nil => exact if_pos rfl
  | cons b front ih =>
      rw [List.mem_cons, not_or] at hfront hzero
      rw [List.cons_append, strchr, if_neg (Ne.symm hfront.1), if_neg (Ne.symm hzero.1),
        ih hfront.2 hzero.2]
      rfl

theorem strchr_of_not_mem (hc : c ≠ 0) (hs : c ∉ s) (h : Terminated memory s) :
    strchr c memory = some none := by
  obtain ⟨hzero, rest, rfl⟩ := h
  induction s with
  | nil => rw [List.nil_append, List.cons_append, strchr, if_neg hc.symm, if_pos rfl]
  | cons b s ih =>
      rw [List.mem_cons, not_or] at hs hzero
      rw [List.cons_append, List.cons_append, strchr, if_neg (Ne.symm hs.1),
        if_neg (Ne.symm hzero.1), ih hs.2 hzero.2]
      rfl

/-! ## Copying -/

def strcpy (block : List α) (i : ℕ) (source : List α) : Option (List α) :=
  (readString source).bind fun s ↦ storeAll block i (s ++ [0])

/-- What `strncpy` copies: a string that is too short is filled up with zeros. -/
def firstChars : ℕ → List α → Option (List α)
  | 0, _ => some []
  | _ + 1, [] => none
  | n + 1, b :: memory =>
      if b = 0 then some (List.replicate (n + 1) 0) else (firstChars n memory).map (b :: ·)

def strncpy (block source : List α) (n : ℕ) : Option (List α) :=
  (firstChars n source).bind (storeAll block 0)

/-- The string is written over the terminator of the one at the beginning of the block. -/
def strcat (block source : List α) : Option (List α) :=
  (strlen block).bind fun n ↦ strcpy block n source

theorem strcpy_eq (h : Terminated memory s) (hold : old.length = s.length + 1) :
    strcpy (front ++ old ++ rest) front.length memory = some (front ++ s ++ 0 :: rest) := by
  have hlength : old.length = (s ++ [0]).length := by
    rw [hold, List.length_append, List.length_singleton]
  rw [strcpy, h.readString, Option.bind_some, storeAll_eq hlength]
  simp

theorem firstChars_of_not_mem (h : 0 ∉ s) : firstChars s.length (s ++ rest) = some s := by
  induction s with
  | nil => rfl
  | cons b s ih =>
      rw [List.mem_cons, not_or] at h
      rw [List.length_cons, List.cons_append, firstChars, if_neg (Ne.symm h.1), ih h.2,
        Option.map_some]

/-- As many characters are copied as there are in front of the terminator. -/
theorem strncpy_eq (hs : 0 ∉ s) (hold : old.length = s.length) :
    strncpy (old ++ rest) (s ++ memory) s.length = some (s ++ rest) := by
  have hstore : storeAll ([] ++ old ++ rest) ([] : List α).length s = some ([] ++ s ++ rest) :=
    storeAll_eq hold
  rw [strncpy, firstChars_of_not_mem hs, Option.bind_some]
  exact hstore

theorem length_strncpy {source : List α} (h : strncpy block source n = some block') :
    block'.length = block.length := by
  obtain ⟨cs, -, hstore⟩ := Option.bind_eq_some_iff.mp h
  exact length_storeAll hstore

theorem strcat_eq (hfront : 0 ∉ front) (h : Terminated memory s) (hold : old.length = s.length) :
    strcat (front ++ 0 :: (old ++ rest)) memory = some (front ++ s ++ 0 :: rest) := by
  have hblock : Terminated (front ++ 0 :: (old ++ rest)) front :=
    ⟨hfront, old ++ rest, by rw [List.append_assoc]; rfl⟩
  have hcpy : strcpy (front ++ 0 :: old ++ rest) front.length memory =
      some (front ++ s ++ 0 :: rest) := strcpy_eq h (congrArg Nat.succ hold)
  rw [strcat, hblock.strlen, Option.bind_some]
  rwa [List.append_assoc, List.cons_append] at hcpy

end SystemProgramming
