import SystemProgramming.Sstring.Model

/-!
# Substitution in an sstring

`sstring_substitute` replaces the first occurrence of the target that does not begin in front of the
offset. The new buffer has exactly the room that the copy and the two concatenations need.
-/

namespace SystemProgramming.Sstring

open SystemProgramming.Vector (Outcome)

variable {alloc : Allocator} {s : Sstring} {text word new target substitution : List UInt8}
  {front behind rest buf : List UInt8} {offset : ℕ}

/-! ## The occurrence -/

/-- The word stands behind `front`, and nowhere between the offset and there. -/
structure FirstOccurrence (word text : List UInt8) (offset : ℕ) (front behind : List UInt8) :
    Prop where
  text_eq : text = front ++ word ++ behind
  offset_le : offset ≤ front.length
  least : ∀ front' behind', text = front' ++ word ++ behind' → offset ≤ front'.length →
    front.length ≤ front'.length

theorem locate_eq (h : Holds s text) (htarget : Terminated target word)
    (hoffset : offset ≤ text.length) : s.locate offset target =
      some ((strstr word (text.drop offset)).map fun (front, _) ↦ offset + front.length) := by
  rw [locate, (h.terminated.drop hoffset).readString, htarget.readString]
  rfl

theorem exists_firstOccurrence (hstrstr : strstr word (text.drop offset) = some (front, behind))
    (hoffset : offset ≤ text.length) :
    FirstOccurrence word text offset (text.take offset ++ front) behind := by
  have hdrop := strstr_eq_some hstrstr
  have hlength : (text.take offset ++ front).length = offset + front.length := by
    rw [List.length_append, List.length_take, min_eq_left hoffset]
  refine ⟨?_, by omega, fun front' behind' htext hle ↦ ?_⟩
  · rw [List.append_assoc, List.append_assoc, ← List.append_assoc front, ← hdrop,
      List.take_append_drop]
  · -- the part of `front'` behind the offset is in front of an occurrence as well
    have hrest : text.drop offset = front'.drop offset ++ word ++ behind' := by
      rw [htext, List.append_assoc, List.append_assoc, List.drop_append_of_le_length hle]
    have hleast := length_le_of_strstr hstrstr hrest
    rw [List.length_drop] at hleast
    omega

theorem strstr_isSome_iff (hoffset : offset ≤ text.length) :
    (strstr word (text.drop offset)).isSome ↔
      ∃ front behind, text = front ++ word ++ behind ∧ offset ≤ front.length := by
  rw [isSome_strstr_iff]
  constructor
  · rintro ⟨front, behind, hdrop⟩
    refine ⟨text.take offset ++ front, behind, ?_, ?_⟩
    · rw [List.append_assoc, List.append_assoc, ← List.append_assoc front, hdrop,
        List.take_append_drop]
    · rw [List.length_append, List.length_take, min_eq_left hoffset]
      exact Nat.le_add_right _ _
  · rintro ⟨front, behind, htext, hle⟩
    refine ⟨front.drop offset, behind, ?_⟩
    rw [htext, List.append_assoc front, List.drop_append_of_le_length hle, List.append_assoc]

/-! ## The new buffer -/

/-- The steps that fill the buffer: the text in front, its terminator, and two concatenations. -/
theorem filled (hstr : s.str = front ++ rest) (hfront : 0 ∉ front)
    (hsubstitution : Terminated substitution new) {memory : List UInt8}
    (hmemory : Terminated memory behind)
    (hlength : buf.length = front.length + (1 + (new.length + behind.length))) :
    ∃ copied cut joined, strncpy buf s.str front.length = some copied ∧
      storeAt copied front.length 0 = some cut ∧ strcat cut substitution = some joined ∧
      strcat joined memory = some (front ++ new ++ behind ++ [0]) := by
  have hne : buf.drop front.length ≠ [] := by
    rw [← List.length_pos_iff, List.length_drop]
    omega
  obtain ⟨b, tail, htail⟩ := List.exists_cons_of_ne_nil hne
  have hcount : tail.length = new.length + behind.length := by
    have hdrop := congrArg List.length htail
    rw [List.length_drop, List.length_cons] at hdrop
    omega
  have hbuf : buf = buf.take front.length ++
      b :: (tail.take new.length ++ tail.drop new.length) := by
    rw [List.take_append_drop, ← htail, List.take_append_drop]
  have htake : (buf.take front.length).length = front.length := by
    rw [List.length_take]
    omega
  have hnew : (tail.take new.length).length = new.length := by
    rw [List.length_take]
    omega
  have hbehind : (tail.drop new.length).length = behind.length := by
    rw [List.length_drop]
    omega
  refine ⟨front ++ b :: (tail.take new.length ++ tail.drop new.length),
    front ++ 0 :: (tail.take new.length ++ tail.drop new.length),
    front ++ new ++ 0 :: tail.drop new.length, ?_, storeAt_eq,
    strcat_eq hfront hsubstitution hnew, ?_⟩
  · rw [hstr]
    nth_rewrite 1 [hbuf]
    exact strncpy_eq hfront htake
  · have hzero : 0 ∉ front ++ new := by
      rw [List.mem_append, not_or]
      exact ⟨hfront, hsubstitution.1⟩
    have hcat : strcat (front ++ new ++ 0 :: (tail.drop new.length ++ [])) memory =
        some (front ++ new ++ behind ++ 0 :: []) := strcat_eq hzero hmemory hbehind
    rwa [List.append_nil] at hcat

/-! ## The call -/

theorem substitute_of_none (htarget : Terminated target word)
    (hsubstitution : Terminated substitution new)
    (h : offset ≥ s.size ∨ word = [] ∨ s.locate offset target = some none) :
    s.substitute alloc offset target substitution = .returned (-1, s) := by
  rw [substitute, htarget.strlen, hsubstitution.strlen, access, access, Outcome.returned_bind,
    Outcome.returned_bind]
  by_cases hguard : offset ≥ s.size ∨ word.length = 0
  · exact if_pos hguard
  · rw [← List.eq_nil_iff_length_eq_zero, not_or] at hguard
    rw [if_neg (by rwa [← List.eq_nil_iff_length_eq_zero, not_or]),
      (h.resolve_left hguard.1).resolve_left hguard.2]
    rfl

/-- Nothing is changed if there is no memory. -/
theorem substitute_of_refused (h : Holds s text) (htarget : Terminated target word)
    (hsubstitution : Terminated substitution new)
    (hmalloc : alloc 0 (s.size - word.length + new.length + 1) = none) :
    s.substitute alloc offset target substitution = .returned (-1, s) := by
  by_cases hguard : offset ≥ s.size ∨ word.length = 0
  · rw [← List.eq_nil_iff_length_eq_zero] at hguard
    exact substitute_of_none htarget hsubstitution (hguard.imp_right Or.inl)
  · have hoffset : offset ≤ text.length := by
      have hsize := h.size
      omega
    simp only [substitute, htarget.strlen, hsubstitution.strlen, access, Outcome.returned_bind,
      if_neg hguard, locate_eq h htarget hoffset, malloc, hmalloc, Option.map_none]
    cases strstr word (text.drop offset) with
    | none => rfl
    | some found => rfl

theorem substitute_of_some (h : Holds s text) (htarget : Terminated target word)
    (hsubstitution : Terminated substitution new) (hoffset : offset < s.size) (hword : word ≠ [])
    (hlocate : s.locate offset target = some (some front.length))
    (htext : text = front ++ word ++ behind)
    (hmalloc : (alloc 0 (s.size - word.length + new.length + 1)).isSome) :
    s.substitute alloc offset target substitution =
      .returned (0, ⟨front ++ new ++ behind ++ [0], (front ++ new ++ behind).length⟩) := by
  obtain ⟨buf, hblock, hlength⟩ := exists_malloc hmalloc
  have hguard : ¬ (offset ≥ s.size ∨ word.length = 0) := by
    rw [← List.eq_nil_iff_length_eq_zero, not_or]
    exact ⟨not_le.mpr hoffset, hword⟩
  obtain ⟨hzero, rest, hrest⟩ := h.terminated
  have hstr : s.str = front ++ (word ++ behind ++ [0] ++ rest) := by
    rw [← hrest, htext]
    simp only [List.append_assoc]
  have hfront : 0 ∉ front := by
    rw [htext, List.mem_append, List.mem_append, not_or, not_or] at hzero
    exact hzero.1.1
  have hmemory : Terminated (s.str.drop (front.length + word.length)) behind := by
    have hdrop := h.terminated.drop (n := front.length + word.length)
      (by rw [htext, List.length_append, List.length_append]; omega)
    rwa [htext, ← List.length_append, List.drop_left, List.length_append] at hdrop
  have hsize : s.size = front.length + word.length + behind.length := by
    rw [h.size, htext, List.length_append, List.length_append]
  obtain ⟨copied, cut, joined, hcopied, hcut, hjoined, hlast⟩ :=
    filled hstr hfront hsubstitution hmemory
      (by omega : buf.length = front.length + (1 + (new.length + behind.length)))
  have hresult : Terminated (front ++ new ++ behind ++ [0]) (front ++ new ++ behind) := by
    refine ⟨?_, List.prefix_rfl⟩
    rw [List.mem_append, List.mem_append, not_or, not_or]
    exact ⟨⟨hfront, hsubstitution.1⟩, hmemory.1⟩
  simp only [substitute, htarget.strlen, hsubstitution.strlen, access, Outcome.returned_bind,
    if_neg hguard, hlocate, hblock, hcopied, hcut, hjoined, hlast, hresult.strlen]

theorem substitute_found (h : Holds s text) (htarget : Terminated target word)
    (hsubstitution : Terminated substitution new) (hoffset : offset < s.size) (hword : word ≠ [])
    (hoccurs : ∃ front behind, text = front ++ word ++ behind ∧ offset ≤ front.length)
    (hmalloc : (alloc 0 (s.size - word.length + new.length + 1)).isSome) :
    ∃ front behind t, FirstOccurrence word text offset front behind ∧
      s.substitute alloc offset target substitution = .returned (0, t) ∧
      Holds t (front ++ new ++ behind) ∧ t.str.length = t.size + 1 := by
  have hle : offset ≤ text.length := h.size ▸ hoffset.le
  obtain ⟨⟨front, behind⟩, hfound⟩ :=
    Option.isSome_iff_exists.mp ((strstr_isSome_iff hle).mpr hoccurs)
  have hfirst := exists_firstOccurrence hfound hle
  have hlocate : s.locate offset target = some (some (text.take offset ++ front).length) := by
    rw [locate_eq h htarget hle, hfound, List.length_append, List.length_take, min_eq_left hle]
    rfl
  have hcall := substitute_of_some h htarget hsubstitution hoffset hword hlocate hfirst.text_eq
    hmalloc
  refine ⟨_, _, _, hfirst, hcall, ⟨⟨?_, List.prefix_rfl⟩, rfl⟩, List.length_append⟩
  have hzero := h.terminated.1
  rw [hfirst.text_eq] at hzero
  simp only [List.mem_append, not_or] at hzero ⊢
  exact ⟨⟨hzero.1.1, hsubstitution.1⟩, hzero.2⟩

theorem substitute_not_found (h : Holds s text) (htarget : Terminated target word)
    (hsubstitution : Terminated substitution new)
    (hnot : ¬ (offset < s.size ∧ word ≠ [] ∧
      ∃ front behind, text = front ++ word ++ behind ∧ offset ≤ front.length)) :
    s.substitute alloc offset target substitution = .returned (-1, s) := by
  apply substitute_of_none htarget hsubstitution
  by_contra hguard
  rw [not_or, not_or, not_le] at hguard
  have hle : offset ≤ text.length := h.size ▸ hguard.1.le
  apply hnot
  refine ⟨hguard.1, hguard.2.1, (strstr_isSome_iff hle).mp ?_⟩
  rw [Option.isSome_iff_ne_none]
  intro hnone
  apply hguard.2.2
  rw [locate_eq h htarget hle, hnone]
  rfl

/-- The first occurrence of the target from the offset on is replaced, and without one nothing is
changed. -/
theorem substitute_first (h : Holds s text) (htarget : Terminated target word)
    (hsubstitution : Terminated substitution new) :
    (offset < s.size ∧ word ≠ [] ∧
      (∃ front behind, text = front ++ word ++ behind ∧ offset ≤ front.length) →
        (alloc 0 (s.size - word.length + new.length + 1)).isSome →
          ∃ front behind t, FirstOccurrence word text offset front behind ∧
            s.substitute alloc offset target substitution = .returned (0, t) ∧
            Holds t (front ++ new ++ behind) ∧ t.str.length = t.size + 1) ∧
      (¬ (offset < s.size ∧ word ≠ [] ∧
        ∃ front behind, text = front ++ word ++ behind ∧ offset ≤ front.length) →
          s.substitute alloc offset target substitution = .returned (-1, s)) ∧
      (alloc 0 (s.size - word.length + new.length + 1) = none →
        s.substitute alloc offset target substitution = .returned (-1, s)) := by
  refine ⟨?_, substitute_not_found h htarget hsubstitution,
    substitute_of_refused h htarget hsubstitution⟩
  rintro ⟨hoffset, hword, hoccurs⟩ hmalloc
  exact substitute_found h htarget hsubstitution hoffset hword hoccurs hmalloc

/-- In `aaa` from offset 1 on, `aa` is replaced by `b`. -/
theorem substitute_first_overlapping : ∃ front behind t,
    FirstOccurrence [97, 97] [97, 97, 97] 1 front behind ∧
      substitute (fun _ _ ↦ some fun _ ↦ 7) ⟨[97, 97, 97, 0], 3⟩ 1 [97, 97, 0] [98, 0] =
        .returned (0, t) ∧
      Holds t (front ++ [98] ++ behind) ∧ t.str.length = t.size + 1 := by
  have hs : Holds ⟨[97, 97, 97, 0], 3⟩ [97, 97, 97] := ⟨⟨by decide, [], rfl⟩, rfl⟩
  have htarget : Terminated [97, 97, 0] [(97 : UInt8), 97] := ⟨by decide, [], rfl⟩
  have hsubstitution : Terminated [98, 0] [(98 : UInt8)] := ⟨by decide, [], rfl⟩
  exact (substitute_first hs htarget hsubstitution).1
    ⟨by decide, by decide, [97], [], rfl, le_rfl⟩ rfl

end SystemProgramming.Sstring
