import SystemProgramming.Sstring.Model

/-!
# Splitting an sstring

`sstring_split` gives the pieces between the delimiters, but not the one behind a delimiter at the
end, and none of an empty string.
-/

namespace SystemProgramming.Sstring

open SystemProgramming.Vector (Outcome)

/-! ## Splitting a list -/

section Lists

variable {α : Type*} [DecidableEq α] {d : α} {text p front behind : List α}

/-- The delimiters are met one after the other. -/
theorem splitting_induction {motive : List α → Prop} (d : α)
    (single : ∀ text, d ∉ text → motive text)
    (delimited : ∀ front behind, d ∉ front → motive behind → motive (front ++ d :: behind))
    (text : List α) : motive text := by
  induction h : text.length using Nat.strong_induction_on generalizing text with
  | _ n ih =>
      by_cases hmem : d ∈ text
      · obtain ⟨front, behind, htext, hfront⟩ := List.eq_append_cons_of_mem hmem
        have hlt : behind.length < n := by
          rw [← h, htext, List.length_append, List.length_cons]
          omega
        rw [htext]
        exact delimited front behind hfront (ih _ hlt behind rfl)
      · exact single text hmem

theorem length_splitOn (d : α) (text : List α) :
    (text.splitOn d).length = text.count d + 1 := by
  induction text using splitting_induction d with
  | single text h => rw [List.splitOn_eq_singleton h, List.count_eq_zero_of_not_mem h]; rfl
  | delimited front behind h ih =>
      rw [List.splitOn_append_cons_self_of_not_mem h, List.length_cons, ih, List.count_append,
        List.count_eq_zero_of_not_mem h, List.count_cons_self, Nat.zero_add]

theorem not_mem_of_mem_splitOn (hp : p ∈ text.splitOn d) : d ∉ p := by
  induction text using splitting_induction d with
  | single text h =>
      rw [List.splitOn_eq_singleton h, List.mem_singleton] at hp
      rwa [hp]
  | delimited front behind h ih =>
      rw [List.splitOn_append_cons_self_of_not_mem h, List.mem_cons] at hp
      rcases hp with rfl | hp
      · exact h
      · exact ih hp

theorem getLast?_splitOn_append_cons (h : d ∉ front) :
    ((front ++ d :: behind).splitOn d).getLast? = (behind.splitOn d).getLast? := by
  rw [List.splitOn_append_cons_self_of_not_mem h]
  obtain ⟨q, qs, hqs⟩ := List.exists_cons_of_ne_nil (List.splitOn_ne_nil d behind)
  rw [hqs, List.getLast?_cons_cons]

/-- The last piece is empty if there is nothing, or nothing behind the last delimiter. -/
theorem getLast?_splitOn_eq_nil_iff :
    (text.splitOn d).getLast? = some [] ↔ text = [] ∨ text.getLast? = some d := by
  induction text using splitting_induction d with
  | single text h =>
      rw [List.splitOn_eq_singleton h, List.getLast?_singleton, Option.some.injEq]
      refine (or_iff_left fun hlast ↦ ?_).symm
      exact h (List.mem_of_getLast? hlast)
  | delimited front behind h ih =>
      rw [getLast?_splitOn_append_cons h, ih, List.getLast?_append]
      cases behind with
      | nil => simp
      | cons b behind => simp

/-- The pieces without an empty one at the end. -/
def pieces (d : α) (text : List α) : List (List α) :=
  if (text.splitOn d).getLast? = some [] then (text.splitOn d).dropLast else text.splitOn d

theorem pieces_nil : pieces d ([] : List α) = [] := rfl

theorem pieces_of_not_mem (h : d ∉ text) (hne : text ≠ []) : pieces d text = [text] := by
  rw [pieces, List.splitOn_eq_singleton h, List.getLast?_singleton, if_neg]
  simpa using hne

theorem pieces_append_cons (h : d ∉ front) :
    pieces d (front ++ d :: behind) = front :: pieces d behind := by
  rw [pieces, pieces, getLast?_splitOn_append_cons h, List.splitOn_append_cons_self_of_not_mem h,
    List.dropLast_cons_of_ne_nil (List.splitOn_ne_nil d behind)]
  split
  · rfl
  · rfl

end Lists

/-! ## The loop -/

variable {alloc : Allocator} {copyConstructor : List UInt8 → Option (List UInt8)} {s : Sstring}
  {text rest : List UInt8} {delimiter : UInt8} {fuel start : ℕ} {output : List (List UInt8)}

/-- A piece is copied to a new block and terminated there. -/
theorem exists_substr {front memory source : List UInt8} {call : ℕ}
    (halloc : (alloc call (front.length + 1)).isSome) (hfront : 0 ∉ front)
    (hsource : front ++ memory = source) :
    ∃ block copied, malloc alloc call (front.length + 1) = some block ∧
      strncpy block source front.length = some copied ∧
      storeAt copied front.length 0 = some (front ++ [0]) := by
  obtain ⟨block, hblock, hlength⟩ := exists_malloc halloc
  have hne : block ≠ [] := List.ne_nil_of_length_eq_add_one hlength
  have hold : block.dropLast.length = front.length := by
    rw [List.length_dropLast, hlength, Nat.add_sub_cancel]
  rw [← List.dropLast_append_getLast hne] at hblock
  rw [← hsource]
  exact ⟨_, _, hblock, strncpy_eq hfront hold, storeAt_eq⟩

/-- Every round takes a piece and its delimiter from the rest. -/
theorem splitLoop_eq (h : Holds s text) (hdelimiter : delimiter ≠ 0)
    (halloc : ∀ call bytes, (alloc call bytes).isSome)
    (hcopy : ∀ memory p, Terminated memory p → copyConstructor memory = some p)
    (hrest : text.drop start = rest) (hstart : start ≤ text.length) (hfuel : rest.length < fuel) :
    s.splitLoop alloc copyConstructor delimiter fuel start output =
      .returned (some (output ++ pieces delimiter rest)) := by
  induction rest using splitting_induction delimiter generalizing start fuel output with
  | single rest hmem =>
      obtain ⟨fuel, rfl⟩ := Nat.exists_eq_succ_of_ne_zero (by omega : fuel ≠ 0)
      have hmemory := h.terminated.drop hstart
      rw [hrest] at hmemory
      by_cases hnil : rest = []
      · have hend : ¬ start < s.size := by
          rw [hnil, List.drop_eq_nil_iff, ← h.size] at hrest
          exact not_lt.mpr hrest
        rw [splitLoop, if_neg hend, hnil, pieces_nil, List.append_nil]
      · have hlt : start < s.size := by
          rw [h.size]
          by_contra hge
          exact hnil (hrest ▸ List.drop_eq_nil_iff.mpr (not_lt.mp hge))
        rw [splitLoop, if_pos hlt, strchr_of_not_mem hdelimiter hmem hmemory, hcopy _ _ hmemory,
          pieces_of_not_mem hmem hnil]
        rfl
  | delimited front behind hmem ih =>
      obtain ⟨fuel, rfl⟩ := Nat.exists_eq_succ_of_ne_zero (by omega : fuel ≠ 0)
      have hlength := congrArg List.length hrest
      rw [List.length_drop, List.length_append, List.length_cons] at hlength
      have hlt : start < s.size := by
        rw [h.size]
        omega
      obtain ⟨hzero, more, hmore⟩ := h.terminated.drop hstart
      rw [hrest, List.append_assoc, List.append_assoc, List.cons_append] at hmore
      have hfront : 0 ∉ front := by
        rw [hrest, List.mem_append, not_or] at hzero
        exact hzero.1
      have hchr : strchr delimiter (s.str.drop start) = some (some front.length) := by
        rw [← hmore]
        exact strchr_of_mem hmem hfront
      obtain ⟨block, copied, hblock, hcopied, hcut⟩ :=
        exists_substr (halloc output.length (front.length + 1)) hfront hmore
      have hpiece := hcopy (front ++ [0]) front ⟨hfront, List.prefix_rfl⟩
      have hdelimited : front ++ delimiter :: behind = (front ++ [delimiter]) ++ behind := by
        rw [List.append_assoc, List.singleton_append]
      have hbehind : text.drop (start + front.length + 1) = behind := by
        rw [Nat.add_assoc, ← List.drop_drop, hrest, hdelimited]
        exact List.drop_left' List.length_append
      have hfuel' : behind.length < fuel := by
        rw [List.length_append, List.length_cons] at hfuel
        omega
      have hnext : s.splitLoop alloc copyConstructor delimiter fuel (start + front.length + 1)
          (output ++ [front]) = .returned (some (output ++ [front] ++ pieces delimiter behind)) :=
        ih hbehind (by omega) hfuel'
      rw [List.append_assoc, List.singleton_append] at hnext
      simp only [splitLoop, if_pos hlt, hchr, access, Outcome.returned_bind, hblock, hcopied, hcut,
        hpiece, hnext, pieces_append_cons hmem]

theorem split_eq (h : Holds s text) (hdelimiter : delimiter ≠ 0)
    (halloc : ∀ call bytes, (alloc call bytes).isSome)
    (hcopy : ∀ memory p, Terminated memory p → copyConstructor memory = some p) :
    s.split alloc copyConstructor delimiter = .returned (some (pieces delimiter text)) := by
  have hfuel : text.length < s.size + 1 := by
    rw [h.size]
    exact Nat.lt_succ_self _
  exact splitLoop_eq h hdelimiter halloc hcopy List.drop_zero (Nat.zero_le _) hfuel

/-! ## Splitting and joining -/

/-- No piece has a delimiter, there is one more piece than there are delimiters, and the pieces
joined with the delimiter are the string. -/
def SplitCorrect (alloc : Allocator) (copyConstructor : List UInt8 → Option (List UInt8))
    (s : Sstring) (text : List UInt8) (delimiter : UInt8) : Prop :=
  ∃ output, s.split alloc copyConstructor delimiter = .returned (some output) ∧
    (∀ p ∈ output, delimiter ∉ p) ∧ output.length = text.count delimiter + 1 ∧
    [delimiter].intercalate output = text

/-- Splitting and joining are inverse exactly for the strings that do not end with a delimiter and
are not empty. -/
theorem split_correct_iff (h : Holds s text) (hdelimiter : delimiter ≠ 0)
    (halloc : ∀ call bytes, (alloc call bytes).isSome)
    (hcopy : ∀ memory p, Terminated memory p → copyConstructor memory = some p) :
    SplitCorrect alloc copyConstructor s text delimiter ↔
      text ≠ [] ∧ text.getLast? ≠ some delimiter := by
  have hsplit := split_eq h hdelimiter halloc hcopy
  rw [← not_or, ← getLast?_splitOn_eq_nil_iff]
  constructor
  · rintro ⟨output, houtput, -, hlength, -⟩ hlast
    rw [hsplit, pieces, if_pos hlast] at houtput
    cases houtput
    rw [List.length_dropLast, length_splitOn] at hlength
    omega
  · intro hlast
    rw [pieces, if_neg hlast] at hsplit
    exact ⟨_, hsplit, fun p ↦ not_mem_of_mem_splitOn, length_splitOn delimiter text,
      List.intercalate_splitOn delimiter⟩

/-- The string `a,b`. -/
theorem split_correct_two : SplitCorrect (fun _ _ ↦ some fun _ ↦ 7) readString ⟨[97, 44, 98, 0], 3⟩
    [97, 44, 98] 44 :=
  (split_correct_iff ⟨⟨by decide, [], rfl⟩, rfl⟩ (by decide) (fun _ _ ↦ rfl)
    fun _ _ ↦ Terminated.readString).mpr ⟨by decide, by decide⟩

/-- The empty piece at the end of `a,` is missing. -/
theorem split_loses_last : ¬ ∀ (alloc : Allocator)
    (copyConstructor : List UInt8 → Option (List UInt8)) (s : Sstring) (text : List UInt8)
    (delimiter : UInt8), Holds s text → delimiter ≠ 0 →
      (∀ call bytes, (alloc call bytes).isSome) →
      (∀ memory p, Terminated memory p → copyConstructor memory = some p) →
      SplitCorrect alloc copyConstructor s text delimiter := by
  intro h
  have hs : Holds ⟨[97, 44, 0], 2⟩ [97, 44] := ⟨⟨by decide, [], rfl⟩, rfl⟩
  obtain ⟨output, houtput, -, hlength, -⟩ := h (fun _ _ ↦ some fun _ ↦ 7) readString _ _ 44 hs
    (by decide) (fun _ _ ↦ rfl) fun _ _ ↦ Terminated.readString
  rw [split_eq hs (by decide) (fun _ _ ↦ rfl) fun _ _ ↦ Terminated.readString] at houtput
  cases houtput
  exact absurd hlength (by decide)

end SystemProgramming.Sstring
