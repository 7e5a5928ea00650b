import SystemProgramming.Lib.Lines

/-!
# What the password crackers call

`crypt_r` and the functions of `utils.h` are not part of the programs. A task is a line with a
user, a hash, and a password whose known part comes first.
-/

namespace SystemProgramming.PasswordCracker

/-- The string that `%s` reads, or the text of a line. -/
abbrev Str := List Char

/-- The largest `int`. -/
def intMax : ℕ := 2 ^ 31 - 1

/-- `crypt` is `crypt_r` with the salt `xx`. -/
structure Utils where
  crypt : Str → Str
  getPrefixLength : Str → ℕ
  setStringPosition : Str → ℕ → Str
  incrementString : Str → Str

def Lowercase (w : Str) : Prop := ∀ c ∈ w, 'a' ≤ c ∧ c ≤ 'z'

/-- The suffixes are enumerated: `nth n p` is the one of length `n` at position `p`. -/
structure Utils.Lawful (u : Utils) (nth : ℕ → ℕ → Str) : Prop where
  getPrefixLength_le : ∀ w, u.getPrefixLength w ≤ w.length
  bijOn : ∀ n, Set.BijOn (nth n) (Set.Iio (26 ^ n)) {w | w.length = n ∧ Lowercase w}
  setStringPosition_eq : ∀ w p, p < 26 ^ w.length → u.setStringPosition w p = nth w.length p
  incrementString_eq : ∀ known n p, p + 1 < 26 ^ n →
    u.incrementString (known ++ nth n p) = known ++ nth n (p + 1)

structure Task where
  username : Str
  hash : Str
  pre : Str
deriving DecidableEq

def isspace (c : Char) : Bool := c = ' ' || (9 ≤ c.toNat && c.toNat ≤ 13)

/-- The words that a conversion `%s` finds, one after the other. -/
def words (line : Str) : List Str :=
  (line.splitOnP isspace).filter (· ≠ [])

/-- `sscanf` into buffers of 9, 14 and 9 bytes. Otherwise one of them is not written, or is
written beyond its end. -/
def sscanf (line : Str) : Option Task :=
  match words line with
  | username :: hash :: pre :: _ =>
      if username.length < 9 ∧ hash.length < 14 ∧ pre.length < 9 then some ⟨username, hash, pre⟩
      else none
  | _ => none

/-! ## The input -/

/-- A C string ends at the first zero. -/
def cstring (text : Str) : Str := text.takeWhile (· ≠ '\x00')

/-- What the calls of `fgets` leave in `buf` one after the other. It has 128 bytes. -/
def bufs (input : Str) : List Str := (readAll '\n' 127 input).map cstring

/-- The lines of the input. -/
def inputLines (input : Str) : List Str := (fileLines '\n' input).map cstring

/-- Each line fits into `buf` with its newline. -/
def Fits (input : Str) : Prop := ∀ line ∈ fileLines '\n' input, line.length ≤ 127

instance (input : Str) : Decidable (Fits input) := by
  unfold Fits
  infer_instance

theorem Fits.bufs_eq {input : Str} (h : Fits input) : bufs input = inputLines input := by
  rw [bufs, readAll_eq_fileLines_of_fits (by decide) h, inputLines]

/-- There is a string for each line exactly if no line is cut. -/
theorem length_bufs_eq_iff {input : Str} :
    (bufs input).length = (inputLines input).length ↔ Fits input := by
  rw [bufs, inputLines, List.length_map, List.length_map, length_readAll_eq_iff (by decide), Fits]

namespace Task

/-- The number of characters that are not known. -/
def suffixLen (u : Utils) (task : Task) : ℕ := task.pre.length - u.getPrefixLength task.pre

def known (u : Utils) (task : Task) : Str := task.pre.take (u.getPrefixLength task.pre)

/-- The known part, followed by lower-case letters up to the length of the password. -/
def Completion (u : Utils) (task : Task) (w : Str) : Prop :=
  ∃ suffix, suffix.length = task.suffixLen u ∧ Lowercase suffix ∧ w = task.known u ++ suffix

/-- The string that is tried in iteration `i`. -/
def candidate (u : Utils) (nth : ℕ → ℕ → Str) (task : Task) (i : ℕ) : Str :=
  task.known u ++ nth (task.suffixLen u) i

variable {u : Utils} {nth : ℕ → ℕ → Str} {task : Task} {i : ℕ} {w : Str}

/-- The completions are what is tried in the first `26 ^ suffixLen` iterations. -/
theorem completion_iff (hu : u.Lawful nth) :
    task.Completion u w ↔ ∃ i < 26 ^ task.suffixLen u, w = task.candidate u nth i := by
  constructor
  · rintro ⟨suffix, hlength, hlower, rfl⟩
    obtain ⟨i, hi, rfl⟩ := (hu.bijOn (task.suffixLen u)).surjOn ⟨hlength, hlower⟩
    exact ⟨i, hi, rfl⟩
  · rintro ⟨i, hi, rfl⟩
    obtain ⟨hlength, hlower⟩ := (hu.bijOn (task.suffixLen u)).mapsTo hi
    exact ⟨_, hlength, hlower, rfl⟩

theorem length_drop_pre : (task.pre.drop (u.getPrefixLength task.pre)).length =
    task.suffixLen u := List.length_drop

/-- Placing the suffix at a position gives the candidate with that number. -/
theorem setStringPosition_eq (hu : u.Lawful nth) (hi : i < 26 ^ task.suffixLen u) :
    task.pre.take (u.getPrefixLength task.pre) ++
      u.setStringPosition (task.pre.drop (u.getPrefixLength task.pre)) i =
        task.candidate u nth i := by
  rw [hu.setStringPosition_eq _ _ (by rwa [length_drop_pre]), length_drop_pre, candidate, known]

theorem incrementString_eq (hu : u.Lawful nth) (hi : i + 1 < 26 ^ task.suffixLen u) :
    u.incrementString (task.candidate u nth i) = task.candidate u nth (i + 1) :=
  hu.incrementString_eq _ _ _ hi

end Task

/-! ## Utilities that satisfy the assumptions -/

def letter (d : ℕ) : Char := Char.ofNat ('a'.toNat + d)

/-- The last letter first. -/
def digits : ℕ → ℕ → Str
  | 0, _ => []
  | n + 1, p => letter (p % 26) :: digits n (p / 26)

def increment : Str → Str
  | [] => []
  | c :: w => if c = 'z' then 'a' :: increment w else Char.ofNat (c.toNat + 1) :: w

/-- The letters of a string count in base 26, and `.` stands for an unknown one. -/
def base26 (crypt : Str → Str) : Utils where
  crypt := crypt
  getPrefixLength w := (w.takeWhile (· ≠ '.')).length
  setStringPosition w p := (digits w.length p).reverse
  incrementString w := (increment w.reverse).reverse

theorem length_digits (n p : ℕ) : (digits n p).length = n := by
  induction n generalizing p with
  | zero => rfl
  | succ n ih => rw [digits, List.length_cons, ih]

theorem letter_spec : ∀ d < 26, ('a' ≤ letter d ∧ letter d ≤ 'z') ∧ (letter d = 'z' ↔ d = 25) ∧
    (letter d).toNat = 97 + d ∧ Char.ofNat ((letter d).toNat + 1) = letter (d + 1) := by
  decide

theorem lowercase_digits (n p : ℕ) : Lowercase (digits n p) := by
  induction n generalizing p with
  | zero => simp [digits, Lowercase]
  | succ n ih =>
      have hfirst := (letter_spec (p % 26) (Nat.mod_lt p (by decide))).1
      exact List.forall_mem_cons.mpr ⟨hfirst, ih (p / 26)⟩

theorem increment_digits {n p : ℕ} (h : p + 1 < 26 ^ n) (rest : Str) :
    increment (digits n p ++ rest) = digits n (p + 1) ++ rest := by
  induction n generalizing p with
  | zero => simp at h
  | succ n ih =>
      obtain ⟨-, hz, -, hsucc⟩ := letter_spec (p % 26) (Nat.mod_lt p (by decide))
      rw [digits, List.cons_append, increment, digits]
      split
      · next heq =>
        have hlast := hz.mp heq
        have hmod : (p + 1) % 26 = 0 := by omega
        have hdiv : (p + 1) / 26 = p / 26 + 1 := by omega
        rw [ih (by rw [pow_succ] at h; omega), hmod, hdiv]
        rfl
      · next hne =>
        have hlast : p % 26 ≠ 25 := fun heq ↦ hne (hz.mpr heq)
        have hmod : (p + 1) % 26 = p % 26 + 1 := by omega
        have hdiv : (p + 1) / 26 = p / 26 := by omega
        rw [hsucc, hmod, hdiv, List.cons_append]

theorem digits_injOn (n : ℕ) : Set.InjOn (digits n) (Set.Iio (26 ^ n)) := by
  induction n with
  | zero =>
      intro p hp q hq _
      simp only [pow_zero, Set.mem_Iio, Nat.lt_one_iff] at hp hq
      rw [hp, hq]
  | succ n ih =>
      intro p hp q hq heq
      rw [Set.mem_Iio, pow_succ] at hp hq
      obtain ⟨hfirst, hrest⟩ := List.cons.inj heq
      have hmod : p % 26 = q % 26 := by
        have hp' := (letter_spec (p % 26) (Nat.mod_lt p (by decide))).2.2.1
        have hq' := (letter_spec (q % 26) (Nat.mod_lt q (by decide))).2.2.1
        rw [hfirst] at hp'
        omega
      have hdiv : p / 26 = q / 26 :=
        ih (by rw [Set.mem_Iio]; omega) (by rw [Set.mem_Iio]; omega) hrest
      omega

theorem exists_digits {w : Str} (h : Lowercase w) : ∃ p < 26 ^ w.length, digits w.length p = w := by
  induction w with
  | nil => exact ⟨0, by simp, rfl⟩
  | cons c w ih =>
      obtain ⟨⟨ha, hz⟩, hw⟩ := List.forall_mem_cons.mp h
      obtain ⟨p, hp, hdigits⟩ := ih hw
      have ha' : 97 ≤ c.toNat := ha
      have hz' : c.toNat ≤ 122 := hz
      refine ⟨26 * p + (c.toNat - 97), ?_, ?_⟩
      · rw [List.length_cons, pow_succ]
        omega
      · have hmod : (26 * p + (c.toNat - 97)) % 26 = c.toNat - 97 := by omega
        have hdiv : (26 * p + (c.toNat - 97)) / 26 = p := by omega
        have hletter : letter (c.toNat - 97) = c := by
          rw [letter]
          have hnat : 'a'.toNat + (c.toNat - 97) = c.toNat := by
            change 97 + _ = _
            omega
          rw [hnat, Char.ofNat_toNat]
        rw [List.length_cons, digits, hmod, hdiv, hdigits, hletter]

theorem base26_lawful (crypt : Str → Str) :
    (base26 crypt).Lawful fun n p ↦ (digits n p).reverse := by
  refine ⟨?_, ?_, ?_, ?_⟩
  · intro w
    exact (List.takeWhile_prefix _).length_le
  · intro n
    refine ⟨?_, ?_, ?_⟩
    · intro p _
      refine ⟨by rw [List.length_reverse, length_digits], ?_⟩
      intro c hc
      exact lowercase_digits n p c (List.mem_reverse.mp hc)
    · intro p hp q hq heq
      exact digits_injOn n hp hq (List.reverse_injective heq)
    · rintro w ⟨rfl, hw⟩
      obtain ⟨p, hp, hdigits⟩ := exists_digits (w := w.reverse) fun c hc ↦
        hw c (List.mem_reverse.mp hc)
      rw [List.length_reverse] at hp hdigits
      exact ⟨p, hp, by simp only [hdigits, List.reverse_reverse]⟩
  · intro w p _
    rfl
  · intro known n p hp
    change (increment (known ++ (digits n p).reverse).reverse).reverse = _
    rw [List.reverse_append, List.reverse_reverse, increment_digits hp, List.reverse_append,
      List.reverse_reverse]

/-- What `crypt_r` computes for the password `a`. -/
def cryptOfA (w : Str) : Str := if w = ['a'] then "xxKKTqMtVyyHI".toList else []

end SystemProgramming.PasswordCracker
