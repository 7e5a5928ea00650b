import SystemProgramming.Sstring.Model

/-!
# Strings taken out of an sstring

Neither `sstring_to_cstr` nor `sstring_slice` gives a terminated string. The former has no room for
a terminator, and the latter writes it behind its block.
-/

namespace SystemProgramming.Sstring

open SystemProgramming.Vector (Outcome decrement sizeTypeRange)

variable {alloc alloc' : Allocator} {s : Sstring} {text input c output : List UInt8}
  {count : ℕ} {start stop : ℤ}

/-! ## From a string to an sstring -/

theorem cstrToSstring_eq (hinput : Terminated input c) (hstruct : (alloc 0 sstringBytes).isSome)
    (hstr : (alloc 1 (c.length + 1)).isSome) :
    cstrToSstring alloc input = .returned ⟨c ++ [0], c.length⟩ := by
  obtain ⟨struct, hfirst, -⟩ := exists_malloc hstruct
  obtain ⟨str, hsecond, hlength⟩ := exists_malloc hstr
  have hcpy : strcpy ([] ++ str ++ []) ([] : List UInt8).length input =
      some ([] ++ c ++ 0 :: []) := strcpy_eq hinput hlength
  rw [List.append_nil, List.nil_append, List.nil_append, List.length_nil] at hcpy
  simp only [cstrToSstring, hfirst, hinput.strlen, access, Outcome.returned_bind, hsecond, hcpy]

theorem holds_cstr (hc : 0 ∉ c) : Holds ⟨c ++ [0], c.length⟩ c :=
  ⟨⟨hc, List.prefix_rfl⟩, rfl⟩

theorem holds_of_cstrToSstring (hinput : Terminated input c)
    (h : cstrToSstring alloc input = .returned s) : Holds s c := by
  by_cases hstruct : (alloc 0 sstringBytes).isSome
  · by_cases hstr : (alloc 1 (c.length + 1)).isSome
    · rw [cstrToSstring_eq hinput hstruct hstr] at h
      cases h
      exact holds_cstr hinput.1
    · -- `strcpy` is given a `NULL`
      obtain ⟨struct, hfirst, -⟩ := exists_malloc hstruct
      simp only [cstrToSstring, hfirst, hinput.strlen, access, Outcome.returned_bind,
        malloc_of_refused hstr, Outcome.outside_bind] at h
      cases h
  · rw [cstrToSstring, malloc_of_refused hstruct] at h
    cases h

/-! ## From an sstring to a string -/

/-- The characters are stored one after the other. -/
theorem copyLoop_eq {i : ℕ} (h : i + count ≤ s.str.length) :
    s.copyLoop count i output = storeAll output i ((s.str.drop i).take count) := by
  induction count generalizing i output with
  | zero => rfl
  | succ count ih =>
      have hi : i < s.str.length := by omega
      have hnext : i + 1 + count ≤ s.str.length := by omega
      rw [copyLoop, List.getElem?_eq_getElem hi, Option.bind_some, List.drop_eq_getElem_cons hi,
        List.take_succ_cons, storeAll]
      congr 1
      funext block
      exact ih hnext

/-- The result is as long as the string. -/
theorem toCstr_eq (h : Holds s text) (hmalloc : (alloc 0 s.size).isSome) :
    s.toCstr alloc = .returned (some text) := by
  obtain ⟨block, hblock, hlength⟩ := exists_malloc hmalloc
  obtain ⟨hzero, rest, hrest⟩ := h.terminated
  have hsize := h.size
  have htext : s.str.take s.size = text := by
    rw [hsize, ← hrest, List.append_assoc, List.take_left]
  have hle : 0 + s.size ≤ s.str.length := by
    rw [← hrest, List.length_append, List.length_append]
    omega
  have hstore : storeAll ([] ++ block ++ []) ([] : List UInt8).length text =
      some ([] ++ text ++ []) := storeAll_eq (hlength.trans hsize)
  rw [List.append_nil, List.append_nil, List.nil_append, List.nil_append, List.length_nil] at hstore
  simp only [toCstr, hblock, copyLoop_eq hle, List.drop_zero, htext, hstore, access,
    Outcome.returned_bind]

/-- The terminator is written behind the block, whatever its length is. -/
theorem slice_eq (hmalloc : (alloc 0 (Int.bmod (stop - start + 1) (2 ^ 32) %
    sizeTypeRange).toNat).isSome) : s.slice alloc start stop = .outside := by
  rw [slice]
  generalize (Int.bmod (stop - start + 1) (2 ^ 32) % sizeTypeRange).toNat = len at hmalloc ⊢
  obtain ⟨output, houtput, hlen⟩ := exists_malloc hmalloc
  simp only [houtput]
  generalize (if start < 0 then none else some (s.str.drop start.toNat)) = source
  cases source with
  | none => rfl
  | some source =>
      rw [access, Outcome.returned_bind]
      cases hcopy : strncpy output source (decrement len) with
      | none => rfl
      | some block =>
          have hlength : block.length = len := (length_strncpy hcopy).trans hlen
          rw [access, Outcome.returned_bind, storeAt_of_le hlength.le]
          rfl

/-! ## Exactness -/

/-- A call gives a pointer to a string, and has not left its block. -/
def ReturnsString (call : Outcome (Option (List UInt8))) (text : List UInt8) : Prop :=
  ∃ output, call = .returned (some output) ∧ Terminated output text

theorem not_returnsString_slice : ¬ ReturnsString (s.slice alloc start stop) text := by
  rintro ⟨output, hslice, -⟩
  by_cases hmalloc : (alloc 0 (Int.bmod (stop - start + 1) (2 ^ 32) % sizeTypeRange).toNat).isSome
  · rw [slice_eq hmalloc] at hslice
    cases hslice
  · rw [slice, malloc_of_refused hmalloc] at hslice
    cases hslice

theorem not_returnsString_toCstr (h : Holds s text) : ¬ ReturnsString (s.toCstr alloc) text := by
  rintro ⟨output, hcstr, hterminated⟩
  by_cases hmalloc : (alloc 0 s.size).isSome
  · rw [toCstr_eq h hmalloc] at hcstr
    cases hcstr
    -- there is no room for the terminator
    have hle := hterminated.2.length_le
    rw [List.length_append, List.length_singleton] at hle
    omega
  · rw [toCstr, malloc_of_refused hmalloc] at hcstr
    cases hcstr

/-- A string goes into an sstring and out of it. -/
def RoundTrip (alloc alloc' : Allocator) (input c : List UInt8) : Prop :=
  ∃ s, cstrToSstring alloc input = .returned s ∧ ReturnsString (s.toCstr alloc') c

/-- On no input is any of the extractions exact. -/
theorem extractions_inexact (h : Holds s text) (hinput : Terminated input c) (start stop : ℕ) :
    ¬ ReturnsString (s.slice alloc start stop) ((text.drop start).take (stop - start)) ∧
      ¬ ReturnsString (s.toCstr alloc) text ∧ ¬ RoundTrip alloc alloc' input c := by
  refine ⟨not_returnsString_slice, not_returnsString_toCstr h, ?_⟩
  rintro ⟨t, ht, hreturns⟩
  exact not_returnsString_toCstr (holds_of_cstrToSstring hinput ht) hreturns

/-- The characters `1`, `2`, `3`, `4` and `5`. -/
def digits : List UInt8 := [49, 50, 51, 52, 53]

theorem holds_digits : Holds ⟨digits ++ [0], 5⟩ digits := holds_cstr (by decide)

/-- Memory that is full of zeros does not help. -/
theorem extractions_inexact_digits :
    ¬ ReturnsString (slice (fun _ _ ↦ some fun _ ↦ 0) ⟨digits ++ [0], 5⟩ 2 4) [51, 52] ∧
      ¬ ReturnsString (toCstr (fun _ _ ↦ some fun _ ↦ 0) ⟨digits ++ [0], 5⟩) digits ∧
      ¬ RoundTrip (fun _ _ ↦ some fun _ ↦ 0) (fun _ _ ↦ some fun _ ↦ 0) (digits ++ [0]) digits :=
  extractions_inexact holds_digits holds_digits.terminated 2 4

/-- A slice whose terminator is outside of its block. -/
theorem slice_outside : ¬ ∀ (alloc alloc' : Allocator) (s : Sstring) (text input c : List UInt8)
    (start stop : ℕ), (∀ call bytes, (alloc call bytes).isSome) → Holds s text →
      Terminated input c → start ≤ stop → stop ≤ s.size →
      ReturnsString (s.slice alloc start stop) ((text.drop start).take (stop - start)) ∧
        ReturnsString (s.toCstr alloc) text ∧ RoundTrip alloc alloc' input c := by
  intro h
  have hexact := h (fun _ _ ↦ some fun _ ↦ 0) (fun _ _ ↦ some fun _ ↦ 0) ⟨digits ++ [0], 5⟩ digits
    (digits ++ [0]) digits 2 4 (fun _ _ ↦ rfl) holds_digits holds_digits.terminated (by decide)
    (by decide)
  exact not_returnsString_slice hexact.1

end SystemProgramming.Sstring
