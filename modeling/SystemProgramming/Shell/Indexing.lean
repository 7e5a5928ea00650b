import SystemProgramming.Shell.Outcome
import SystemProgramming.Shell.History

/-!
# Lines that are recalled by their number

`#` is followed by a number that is accumulated in an `int` and compared with the size of the
history as an `int`.
-/

namespace SystemProgramming.Shell

/-- The number that is written by digits. -/
def numeral (digits : Str) : ℕ :=
  Nat.ofDigits 10 (digits.reverse.map fun c ↦ c.toNat - '0'.toNat)

example : numeral ['0', '4', '2'] = 42 := by decide

variable {W : Type} {E : System W} {s : State W} {ref : Option ℕ} {cmd digits : Str}
  {cmdHis : List Str} {n num : ℕ}

/-- Line `n` is run again if there is one, by whatever runs it, and otherwise the user is told
about the index. -/
structure Indexed (E : System W) (s : State W) (ref : Option ℕ) (cmd : Str) (n : ℕ) : Prop where
  action : indexingOf (s.prepared ref cmd).cmdHis (words cmd) =
    .ok (if n < s.cmdHis.length then .rerun n else .invalidIndex)
  result : ∀ rerun, classify E rerun s ref cmd =
    if n < s.cmdHis.length then do
      let t ← rerun (s.prepared ref cmd) n
      pure (t, text cmd, 3)
    else .ok (s.prepared ref cmd, text cmd, 0)

/-! ## The size as an `int` -/

theorem historySize_of_lt (h : cmdHis.length < 2 ^ 31) :
    historySize cmdHis = cmdHis.length := by
  apply Int.bmod_eq_of_le_mul_two <;> omega

theorem historySize_lt (cmdHis : List Str) : historySize cmdHis < 2 ^ 31 := by
  have hlt := @Int.bmod_lt cmdHis.length (2 ^ 32) (by decide)
  norm_num at hlt
  exact hlt

theorem historySize_le (cmdHis : List Str) : historySize cmdHis ≤ cmdHis.length := by
  rcases lt_or_ge cmdHis.length (2 ^ 31) with hlt | hge
  · exact (historySize_of_lt hlt).le
  · have hlt := historySize_lt cmdHis
    omega

theorem State.length_edit (s : State W) (ref : Option ℕ) (f : Str → Str) :
    (s.edit ref f).cmdHis.length = s.cmdHis.length := by
  cases ref with
  | none => rfl
  | some i => exact List.length_modify f _ i

theorem State.length_prepared (s : State W) (ref : Option ℕ) (cmd : Str) :
    (s.prepared ref cmd).cmdHis.length = s.cmdHis.length := by
  unfold prepared
  split
  · rw [length_edit, length_edit]
  · rw [length_edit]

theorem historySize_congr {cmdHis cmdHis' : List Str} (h : cmdHis.length = cmdHis'.length) :
    historySize cmdHis = historySize cmdHis' := by
  unfold historySize
  rw [h]

/-! ## The number as an `int` -/

theorem numeral_cons (c : Char) (digits : Str) :
    numeral (c :: digits) = (c.toNat - '0'.toNat) * 10 ^ digits.length + numeral digits := by
  rw [numeral, List.reverse_cons, List.map_append, Nat.ofDigits_append, List.length_map,
    List.length_reverse, List.map_singleton, Nat.ofDigits_singleton, numeral]
  ring

/-- By induction on the text.  What has been accumulated is multiplied by 10 for each of the digits
in front. -/
theorem parseNumber_eq {text : Str} (hnum : num < 2 ^ 31) :
    parseNumber num text =
      if num * 10 ^ (text.takeWhile Char.isDigit).length + numeral (text.takeWhile Char.isDigit) <
          2 ^ 31 then
        .ok (if text.takeWhile Char.isDigit = text then
          some (num * 10 ^ text.length + numeral text) else none)
      else .error .undefined := by
  induction text generalizing num with
  | nil =>
      rw [List.takeWhile_nil, List.length_nil, pow_zero, Nat.mul_one, numeral, List.reverse_nil,
        List.map_nil, Nat.ofDigits_nil, Nat.add_zero, if_pos hnum, if_pos rfl, parseNumber]
  | cons c text ih =>
      by_cases hc : c.isDigit
      · have hsum (digits : Str) : num * 10 ^ (c :: digits).length + numeral (c :: digits) =
            (10 * num + (c.toNat - '0'.toNat)) * 10 ^ digits.length + numeral digits := by
          rw [numeral_cons, List.length_cons]
          ring
        have hle : 10 * num + (c.toNat - '0'.toNat) ≤
            (10 * num + (c.toNat - '0'.toNat)) * 10 ^ (text.takeWhile Char.isDigit).length :=
          Nat.le_mul_of_pos_right _ (by positivity)
        rw [parseNumber, if_pos hc, List.takeWhile_cons_of_pos hc, hsum, hsum]
        simp only [List.cons.injEq, true_and]
        split
        · next hover => rw [if_neg (by omega)]
        · next hfits => exact ih (not_le.mp hfits)
      · rw [parseNumber, if_neg hc, List.takeWhile_cons_of_neg hc, List.length_nil, pow_zero,
          Nat.mul_one, numeral, List.reverse_nil, List.map_nil, Nat.ofDigits_nil, Nat.add_zero,
          if_pos hnum, if_neg (List.cons_ne_nil c text).symm]

theorem parseNumber_digits (hdigits : ∀ c ∈ digits, c.isDigit) (hnum : num < 2 ^ 31) :
    parseNumber num digits = if num * 10 ^ digits.length + numeral digits < 2 ^ 31 then
      .ok (some (num * 10 ^ digits.length + numeral digits)) else .error .undefined := by
  have hall : digits.takeWhile Char.isDigit = digits := List.takeWhile_eq_self_iff.mpr hdigits
  rw [parseNumber_eq hnum, hall, if_pos rfl]

theorem kindOf_number : kindOf ['#' :: digits] = .number := by simp [kindOf]

theorem numberOf_digits (hne : digits ≠ []) (hdigits : ∀ c ∈ digits, c.isDigit) :
    numberOf ['#' :: digits] = if numeral digits < 2 ^ 31 then .ok (some (numeral digits))
      else .error .undefined := by
  obtain ⟨c, rest, rfl⟩ := List.exists_cons_of_ne_nil hne
  have hparse := @parseNumber_digits (c :: rest) 0 hdigits (by decide)
  rw [Nat.zero_mul, Nat.zero_add] at hparse
  rw [numberOf, hparse]

theorem indexingOf_eq_ok {ws : List Str} (h : numberOf ws = .ok (some n)) :
    indexingOf cmdHis ws = .ok (if n < historySize cmdHis then .rerun n else .invalidIndex) := by
  unfold indexingOf
  rw [h]
  refine (Except.bind.eq_2 ..).trans ?_
  generalize historySize cmdHis = size
  change (if (n : ℤ) < size then pure _ else pure _) = _
  split <;> rfl

theorem indexingOf_eq_error {ws : List Str} {stop : Stop} (h : numberOf ws = .error stop) :
    indexingOf cmdHis ws = .error stop := by
  unfold indexingOf
  rw [h]
  exact Except.bind.eq_1 ..

/-! ## The line that is run again -/

variable {rerun : State W → ℕ → Result (State W)}

theorem classify_eq_dispatch (hblank : redirect cmd = none → E.blank s.world = true) :
    classify E rerun s ref cmd =
      dispatch E rerun (s.prepared ref cmd) (redirect cmd) (text cmd) >>=
        fun r ↦ pure (r.1, text cmd, r.2) := by
  unfold classify text State.prepared
  cases hredirect : redirect cmd with
  | none =>
      dsimp only [Option.elim_none]
      rw [if_pos (hblank hredirect)]
  | some info => rfl

theorem dispatch_rerun (hkind : kindOf (words cmd) = .number) {redirection : Option Redirection}
    (h : indexingOf s.cmdHis (words cmd) = .ok (.rerun n)) :
    dispatch E rerun s redirection (text cmd) = rerun s n >>= fun t ↦ pure (t, 3) := by
  unfold dispatch
  rw [← words]
  simp only [hkind, h]
  exact Except.bind.eq_2 ..

theorem dispatch_invalidIndex (hkind : kindOf (words cmd) = .number)
    {redirection : Option Redirection} (h : indexingOf s.cmdHis (words cmd) = .ok .invalidIndex) :
    dispatch E rerun s redirection (text cmd) = .ok (s, 0) := by
  unfold dispatch
  rw [← words]
  simp only [hkind, h]
  exact Except.bind.eq_2 ..

/-- The right line is run again, or none, exactly if the number is an `int` and the size of the
history is one, or at least is not taken for one that is not above the number. -/
theorem indexed_iff (hwords : words cmd = ['#' :: digits]) (hne : digits ≠ [])
    (hdigits : ∀ c ∈ digits, c.isDigit) :
    Indexed E s ref cmd (numeral digits) ↔ (redirect cmd = none → E.blank s.world = true) ∧
      numeral digits < 2 ^ 31 ∧
      (s.cmdHis.length < 2 ^ 31 ∨ numeral digits < historySize s.cmdHis) := by
  have hkind : kindOf (words cmd) = .number := hwords ▸ kindOf_number
  have hsize := historySize_congr (s.length_prepared ref cmd)
  have hnumber := numberOf_digits hne hdigits
  rw [← hwords] at hnumber
  constructor
  · rintro ⟨haction, hresult⟩
    have hblank : redirect cmd = none → E.blank s.world = true := by
      have hstay := hresult fun t _ ↦ .ok t
      split at hstay
      · exact (classify_ok_iff.mp hstay).1
      · exact (classify_ok_iff.mp hstay).1
    have hfits : numeral digits < 2 ^ 31 := by
      by_contra hover
      rw [if_neg hover] at hnumber
      rw [indexingOf_eq_error hnumber] at haction
      cases haction
    refine ⟨hblank, hfits, ?_⟩
    rw [if_pos hfits] at hnumber
    rw [indexingOf_eq_ok hnumber, hsize] at haction
    by_contra hsizes
    rw [not_or, not_lt] at hsizes
    have hstored : numeral digits < s.cmdHis.length := hfits.trans_le hsizes.1
    rw [if_neg hsizes.2, if_pos hstored] at haction
    cases haction
  · rintro ⟨hblank, hfits, hsizes⟩
    rw [if_pos hfits] at hnumber
    have hiff : (numeral digits : ℤ) < historySize s.cmdHis ↔ numeral digits < s.cmdHis.length := by
      constructor
      · intro hlt
        exact Int.ofNat_lt.mp (hlt.trans_le (historySize_le _))
      · intro hlt
        rcases hsizes with hsmall | hlarge
        · rw [historySize_of_lt hsmall]
          exact Int.ofNat_lt.mpr hlt
        · exact hlarge
    have haction := @indexingOf_eq_ok (s.prepared ref cmd).cmdHis _ _ hnumber
    rw [hsize] at haction
    simp only [hiff] at haction
    refine ⟨haction, fun rerun ↦ ?_⟩
    by_cases hstored : numeral digits < s.cmdHis.length
    · rw [if_pos hstored] at haction ⊢
      rw [classify_eq_dispatch hblank, dispatch_rerun hkind haction]
      cases rerun (s.prepared ref cmd) (numeral digits) <;> rfl
    · rw [if_neg hstored] at haction ⊢
      rw [classify_eq_dispatch hblank, dispatch_invalidIndex hkind haction]
      rfl

/-- `#0` runs `ls` again. -/
theorem indexed_iff_zero :
    Indexed quietSystem (started [['l', 's']]) none ['#', '0', '\n'] (numeral ['0']) := by
  have hwords : words ['#', '0', '\n'] = ['#' :: ['0']] := rfl
  exact (indexed_iff hwords (by decide) (List.all_eq_true.mp rfl)).mpr
    ⟨fun _ ↦ rfl, by decide, .inl (by decide)⟩

/-- The number `2147483648` is no `int`, so that nobody is told that there is no such line. -/
theorem number_overflows : ¬ ∀ cmd digits : Str, words cmd = ['#' :: digits] → digits ≠ [] →
    (∀ c ∈ digits, c.isDigit) → Indexed quietSystem (started []) none cmd (numeral digits) := by
  intro h
  set digits : Str := ['2', '1', '4', '7', '4', '8', '3', '6', '4', '8']
  have hwords : words ('#' :: digits) = ['#' :: digits] := rfl
  have hne : digits ≠ [] := by decide
  have hdigits : ∀ c ∈ digits, c.isDigit := List.all_eq_true.mp rfl
  have hnot : ¬ numeral digits < 2 ^ 31 := by
    have hnumeral : numeral digits = 2147483648 := by rfl
    omega
  have hnumber := numberOf_digits hne hdigits
  rw [if_neg hnot, ← hwords] at hnumber
  have haction := (h ('#' :: digits) digits hwords hne hdigits).action
  rw [indexingOf_eq_error hnumber] at haction
  cases haction

end SystemProgramming.Shell
