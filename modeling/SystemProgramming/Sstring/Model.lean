import SystemProgramming.Lib.CBuffer
import SystemProgramming.Lib.Substring
import SystemProgramming.Vector.Slots

/-!
# The sstring

An sstring knows the length of the string that its pointer points to. Every access to a block of
memory is checked against it. What `malloc` answers is a parameter, and so is the constructor that
copies a string into a vector.
-/

namespace SystemProgramming

open SystemProgramming.Vector (Outcome decrement sizeTypeRange)

/-- The struct, with the block that `str` points to. -/
structure Sstring where
  str : List UInt8
  size : ℕ
deriving DecidableEq

namespace Sstring

/-- The invariant. The block may be longer than the string. -/
structure Holds (s : Sstring) (text : List UInt8) : Prop where
  terminated : Terminated s.str text
  size : s.size = text.length

/-- What is in the bytes that the call with a number grants, and `none` for `NULL`. -/
abbrev Allocator := ℕ → ℕ → Option (ℕ → UInt8)

def malloc (alloc : Allocator) (call bytes : ℕ) : Option (List UInt8) :=
  (alloc call bytes).map fun fresh ↦ (List.range bytes).map fresh

/-- An access that may leave the block. -/
def access {α : Type} : Option α → Outcome α
  | some a => .returned a
  | none => .outside

/-- `sizeof( sstring )` -/
def sstringBytes : ℕ := 16

/-- The string is copied before the pointer is looked at. -/
def cstrToSstring (alloc : Allocator) (input : List UInt8) : Outcome Sstring :=
  match malloc alloc 0 sstringBytes with
  | none => .aborted
  | some _ => do
      let size ← access (strlen input)
      let str ← access (malloc alloc 1 (size + 1))
      let str ← access (strcpy str 0 input)
      .returned ⟨str, size⟩

variable (alloc : Allocator) (s : Sstring)

/-- The loop of `sstring_to_cstr`, with the number of characters that are left. -/
def copyLoop : ℕ → ℕ → List UInt8 → Option (List UInt8)
  | 0, _, output => some output
  | count + 1, i, output =>
      s.str[i]?.bind fun c ↦ (storeAt output i c).bind (copyLoop count (i + 1))

/-- The inner `none` is `NULL`. -/
def toCstr : Outcome (Option (List UInt8)) :=
  match malloc alloc 0 s.size with
  | none => .returned none
  | some output => do
      let output ← access (s.copyLoop s.size 0 output)
      .returned (some output)

/-- The length is computed in an `int`. -/
def slice (start stop : ℤ) : Outcome (Option (List UInt8)) :=
  let len := (Int.bmod (stop - start + 1) (2 ^ 32) % sizeTypeRange).toNat
  match malloc alloc 0 len with
  | none => .returned none
  | some output => do
      let source ← access (if start < 0 then none else some (s.str.drop start.toNat))
      let output ← access (strncpy output source (decrement len))
      let output ← access (storeAt output len 0)
      .returned (some output)

/-- The loop of `sstring_split`. The vector is the list of the copies that it holds. -/
def splitLoop (copyConstructor : List UInt8 → Option (List UInt8)) (delimiter : UInt8) :
    ℕ → ℕ → List (List UInt8) → Outcome (Option (List (List UInt8)))
  | 0, _, _ => .looping
  | fuel + 1, start, output =>
      if start < s.size then do
        match ← access (strchr delimiter (s.str.drop start)) with
        | some len =>
            match malloc alloc output.length (len + 1) with
            | none => .returned none
            | some substr => do
                let substr ← access (strncpy substr (s.str.drop start) len)
                let substr ← access (storeAt substr len 0)
                let copy ← access (copyConstructor substr)
                splitLoop copyConstructor delimiter fuel (start + len + 1) (output ++ [copy])
        | none => do
            let copy ← access (copyConstructor (s.str.drop start))
            .returned (some (output ++ [copy]))
      else .returned (some output)

/-- In every round but the last one there is a delimiter. -/
def split (copyConstructor : List UInt8 → Option (List UInt8)) (delimiter : UInt8) :
    Outcome (Option (List (List UInt8))) :=
  s.splitLoop alloc copyConstructor delimiter (s.size + 1) 0 []

/-- `strstr( this->str + offset, target ) - this->str`, where the inner `none` is `NULL`. -/
def locate (offset : ℕ) (target : List UInt8) : Option (Option ℕ) :=
  (readString (s.str.drop offset)).bind fun text ↦ (readString target).map fun word ↦
    (strstr word text).map fun (front, _) ↦ offset + front.length

def substitute (offset : ℕ) (target substitution : List UInt8) : Outcome (ℤ × Sstring) := do
  let targetLen ← access (strlen target)
  let substitutionLen ← access (strlen substitution)
  if offset ≥ s.size ∨ targetLen = 0 then .returned (-1, s)
  else
    match ← access (s.locate offset target) with
    | none => .returned (-1, s)
    | some index =>
        match malloc alloc 0 (s.size - targetLen + substitutionLen + 1) with
        | none => .returned (-1, s)
        | some buf => do
            let buf ← access (strncpy buf s.str index)
            let buf ← access (storeAt buf index 0)
            let buf ← access (strcat buf substitution)
            let buf ← access (strcat buf (s.str.drop (index + targetLen)))
            let size ← access (strlen buf)
            .returned (0, ⟨buf, size⟩)

theorem exists_malloc {alloc : Allocator} {call bytes : ℕ} (h : (alloc call bytes).isSome) :
    ∃ block, malloc alloc call bytes = some block ∧ block.length = bytes := by
  obtain ⟨fresh, hfresh⟩ := Option.isSome_iff_exists.mp h
  refine ⟨(List.range bytes).map fresh, by rw [malloc, hfresh, Option.map_some], ?_⟩
  rw [List.length_map, List.length_range]

theorem malloc_of_refused {alloc : Allocator} {call bytes : ℕ}
    (h : ¬ (alloc call bytes).isSome) : malloc alloc call bytes = none := by
  rw [malloc, Option.not_isSome_iff_eq_none.mp h, Option.map_none]

end Sstring

end SystemProgramming
