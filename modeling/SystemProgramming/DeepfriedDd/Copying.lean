import SystemProgramming.Lib.CString

/-!
# Copying a range of blocks

The loop of `main` ends when the count is reached, at a short block, or at the end of the input. A
file has fewer bytes than a `size_t` can count, and reading and writing succeed.
-/

namespace SystemProgramming.DeepfriedDd

abbrev Byte := UInt8

structure FILE where
  bytes : List Byte
  pos : ℕ
deriving DecidableEq

def FILE.fseek (file : FILE) (offset : ℕ) : FILE := { file with pos := offset }

/-- The bytes that are read, at most `n`. -/
def FILE.fread (file : FILE) (n : ℕ) : List Byte × FILE :=
  let data := (file.bytes.drop file.pos).take n
  (data, { file with pos := file.pos + data.length })

/-- A gap in front of the data is filled with zeros. -/
def FILE.fwrite (file : FILE) (data : List Byte) : FILE :=
  if data = [] then file
  else {
    bytes := file.bytes.take file.pos ++ List.replicate (file.pos - file.bytes.length) 0 ++ data ++
      file.bytes.drop (file.pos + data.length)
    pos := file.pos + data.length }

/-! ## The arguments -/

/-- An option with its number. The files are given apart from these. -/
inductive Argument
  | b (n : ℕ)
  | c (n : ℕ)
  | p (n : ℕ)
  | k (n : ℕ)
deriving DecidableEq

def Argument.number : Argument → ℕ
  | b n => n
  | c n => n
  | p n => n
  | k n => n

structure Settings where
  copyBlock : ℤ
  blockSize : ℕ
  inputOffset : ℕ
  outputOffset : ℕ

def Settings.default : Settings := ⟨-1, 512, 0, 0⟩

/-- The number has to be an `int`. -/
def atoi (n : ℕ) : Option ℕ := if n < 2 ^ 31 then some n else none

def parsingInput : List Argument → Settings → Option Settings
  | [], settings => some settings
  | argument :: arguments, settings => do
      let n ← atoi argument.number
      match argument with
      | .b _ => parsingInput arguments { settings with blockSize := n }
      | .c _ => parsingInput arguments { settings with copyBlock := n }
      | .p _ => parsingInput arguments { settings with inputOffset := n }
      | .k _ => parsingInput arguments { settings with outputOffset := n }

/-! ## The loop -/

structure State where
  input : FILE
  output : FILE
  blocksCopied : ℕ
  fullBlocksIn : ℕ
  fullBlocksOut : ℕ
  partialBlocksIn : ℕ
  partialBlocksOut : ℕ
  totalBytesCopied : ℕ
deriving DecidableEq

/-- A round behind `fread`, and whether it ends in `break`. The block size is an `int` as well. -/
def copyRound (blockSize : ℕ) (copyBlock : ℤ) (buf : List Byte) (s : State) :
    Option (State × Bool) := do
  let blocksCopied ← increment s.blocksCopied
  let s := { s with
    output := s.output.fwrite buf
    blocksCopied := blocksCopied
    totalBytesCopied := s.totalBytesCopied + buf.length }
  if copyBlock = blocksCopied then some ({ s with
    fullBlocksIn := s.fullBlocksIn + 1
    fullBlocksOut := s.fullBlocksOut + 1 }, true)
  else if blockSize ≠ buf.length then some ({ s with
    partialBlocksIn := s.partialBlocksIn + 1
    partialBlocksOut := s.partialBlocksOut + 1 }, true)
  else some ({ s with
    fullBlocksIn := s.fullBlocksIn + 1
    fullBlocksOut := s.fullBlocksOut + 1 }, false)

/-- The number of rounds is bounded by the first argument. -/
def copyLoop (blockSize : ℕ) (copyBlock : ℤ) : ℕ → State → Option State
  | 0, _ => none
  | fuel + 1, s =>
      let (buf, input) := s.input.fread blockSize
      if buf.length = 0 then some { s with input := input }
      else do
        let (s, stops) ← copyRound blockSize copyBlock buf { s with input := input }
        if stops then some s else copyLoop blockSize copyBlock fuel s

/-- The input and the output at the start of the loop. -/
def Settings.start (settings : Settings) (input : List Byte) : State where
  input := if settings.inputOffset ≠ 0 then
    FILE.fseek ⟨input, 0⟩ (settings.inputOffset * settings.blockSize) else ⟨input, 0⟩
  output := if settings.outputOffset ≠ 0 then
    FILE.fseek ⟨[], 0⟩ (settings.outputOffset * settings.blockSize) else ⟨[], 0⟩
  blocksCopied := 0
  fullBlocksIn := 0
  fullBlocksOut := 0
  partialBlocksIn := 0
  partialBlocksOut := 0
  totalBytesCopied := 0

/-- Every round but the last one reads at least one byte. -/
def main (arguments : List Argument) (input : List Byte) : Option State := do
  let settings ← parsingInput arguments .default
  copyLoop settings.blockSize settings.copyBlock (input.length + 1) (settings.start input)

/-! ## What is to be copied -/

/-- The last number of each kind counts. -/
structure Request where
  count : Option ℕ
  blockSize : ℕ
  skip : ℕ
  seek : ℕ

def Request.apply (request : Request) : Argument → Request
  | .b n => { request with blockSize := n }
  | .c n => { request with count := some n }
  | .p n => { request with skip := n }
  | .k n => { request with seek := n }

def Request.of (arguments : List Argument) : Request := arguments.foldl .apply ⟨none, 512, 0, 0⟩

/-- What follows the skipped blocks. -/
def Request.rest (request : Request) (input : List Byte) : List Byte :=
  input.drop (request.skip * request.blockSize)

def Request.expected (request : Request) (input : List Byte) : List Byte :=
  match request.count with
  | none => request.rest input
  | some count => (request.rest input).take (count * request.blockSize)

/-- The output holds the data at the offset, and the counters fit to it. -/
structure Report (request : Request) (data : List Byte) (s : State) : Prop where
  output : s.output.bytes.drop (request.seek * request.blockSize) = data
  totalBytesCopied : s.totalBytesCopied = data.length
  fullBlocksIn : s.fullBlocksIn = data.length / request.blockSize
  fullBlocksOut : s.fullBlocksOut = data.length / request.blockSize
  partialBlocksIn : s.partialBlocksIn = if request.blockSize ∣ data.length then 0 else 1
  partialBlocksOut : s.partialBlocksOut = if request.blockSize ∣ data.length then 0 else 1

def Correct (arguments : List Argument) (input : List Byte) : Prop :=
  ∃ s, main arguments input = some s ∧
    Report (.of arguments) ((Request.of arguments).expected input) s

/-- The last counted block is not a short one, and the blocks can be counted. -/
def Request.Regular (request : Request) (input : List Byte) : Prop :=
  match request.count with
  | none => (request.rest input).length ≤ (2 ^ 31 - 1) * request.blockSize
  | some 0 => request.rest input = []
  | some (count + 1) => (request.rest input).length ≤ count * request.blockSize ∨
      (count + 1) * request.blockSize ≤ (request.rest input).length

/-! ## Blocks -/

/-- The number of rounds for so many bytes, of which the last one may be short. -/
def partialBlocks (b n : ℕ) : ℕ := if b ∣ n then 0 else 1

def blocks (b n : ℕ) : ℕ := n / b + partialBlocks b n

variable {b n m i fuel : ℕ} {c : ℤ} {s : State} {file : FILE} {data : List Byte}

theorem partialBlocks_add_self : partialBlocks b (n + b) = partialBlocks b n := by
  simp only [partialBlocks, Nat.dvd_add_self_right]

theorem blocks_zero : blocks b 0 = 0 := by simp [blocks, partialBlocks]

theorem blocks_add_self (hb : 0 < b) : blocks b (n + b) = blocks b n + 1 := by
  rw [blocks, partialBlocks_add_self, Nat.add_div_right n hb, blocks]
  omega

theorem blocks_of_lt (h : n < b) (hn : 0 < n) : n / b = 0 ∧ partialBlocks b n = 1 :=
  ⟨Nat.div_eq_of_lt h, if_neg fun hdvd ↦ (Nat.le_of_dvd hn hdvd).not_gt h⟩

/-- The blocks are the least ones that have room for the bytes. -/
theorem blocks_le_iff (hb : 0 < b) : blocks b n ≤ m ↔ n ≤ m * b := by
  have hdiv := Nat.div_add_mod n b
  have hmod := Nat.mod_lt n hb
  rw [blocks, partialBlocks]
  split
  · next hdvd =>
    rw [Nat.add_zero, ← Nat.lt_succ_iff, Nat.div_lt_iff_lt_mul hb, Nat.succ_mul]
    obtain ⟨q, rfl⟩ := hdvd
    rw [Nat.mul_comm b q]
    constructor
    · intro h
      have hlt : q * b < (m + 1) * b := by rwa [Nat.succ_mul]
      exact Nat.mul_le_mul_right b (Nat.lt_succ_iff.mp (Nat.lt_of_mul_lt_mul_right hlt))
    · omega
  · next hdvd =>
    have hne : n ≠ m * b := by
      rintro rfl
      exact hdvd (Nat.dvd_mul_left b m)
    rw [Nat.add_one_le_iff, Nat.div_lt_iff_lt_mul hb]
    omega

/-! ## Rounds -/

theorem FILE.fwrite_fwrite (file : FILE) (first second : List Byte) :
    (file.fwrite first).fwrite second = file.fwrite (first ++ second) := by
  by_cases hfirst : first = []
  · simp [fwrite, hfirst]
  by_cases hsecond : second = []
  · simp [fwrite, hsecond]
  rw [fwrite, fwrite, fwrite, if_neg hfirst, if_neg hsecond, if_neg (by simp [hfirst])]
  set front := file.bytes.take file.pos ++ List.replicate (file.pos - file.bytes.length) 0
    with hfront
  have hlength : (front ++ first).length = file.pos + first.length := by
    simp only [hfront, List.length_append, List.length_take, List.length_replicate]
    omega
  have hgap : file.pos + first.length -
      (front ++ first ++ file.bytes.drop (file.pos + first.length)).length = 0 := by
    rw [List.length_append, hlength, Nat.sub_add_eq, Nat.sub_self, Nat.zero_sub]
  simp only [hgap, List.take_left' hlength, List.replicate_zero, List.append_nil, FILE.mk.injEq]
  constructor
  · rw [← hlength, List.drop_length_add_append, List.drop_drop, hlength, List.length_append,
      Nat.add_assoc, List.append_assoc front]
  · rw [List.length_append, Nat.add_assoc]

/-- So many blocks with the data have been copied. -/
def State.copied (s : State) (data : List Byte) (full part : ℕ) : State where
  input := { s.input with pos := s.input.pos + data.length }
  output := s.output.fwrite data
  blocksCopied := s.blocksCopied + (full + part)
  fullBlocksIn := s.fullBlocksIn + full
  fullBlocksOut := s.fullBlocksOut + full
  partialBlocksIn := s.partialBlocksIn + part
  partialBlocksOut := s.partialBlocksOut + part
  totalBytesCopied := s.totalBytesCopied + data.length

theorem State.copied_copied (first second : List Byte) (full full' part part' : ℕ) :
    (s.copied first full part).copied second full' part' =
      s.copied (first ++ second) (full + full') (part + part') := by
  simp only [copied, FILE.fwrite_fwrite, List.length_append, Nat.add_assoc]
  congr 1
  omega

theorem State.copied_nil : s.copied [] 0 0 = s := rfl

/-- What is left of the input. -/
def State.rest (s : State) : List Byte := s.input.bytes.drop s.input.pos

theorem State.rest_copied (full part : ℕ) :
    (s.copied data full part).rest = s.rest.drop data.length := by
  rw [rest, copied, rest, List.drop_drop]

theorem copyLoop_end (h : s.rest = []) : copyLoop b c (fuel + 1) s = some s := by
  have hread : s.input.fread b = ([], s.input) := by
    rw [State.rest] at h
    rw [FILE.fread, h, List.take_nil]
    rfl
  rw [copyLoop, hread]
  rfl

theorem length_block_ne_zero (hb : 0 < b) (h : s.rest ≠ []) : (s.rest.take b).length ≠ 0 := by
  have hpos := List.length_pos_iff.mpr h
  rw [List.length_take]
  omega

theorem copyLoop_round (hb : 0 < b) (h : s.rest ≠ []) (hn : s.blocksCopied + 1 < 2 ^ 31) :
    copyLoop b c (fuel + 1) s =
      if c = (s.blocksCopied + 1 : ℕ) then some (s.copied (s.rest.take b) 1 0)
      else if b ≠ (s.rest.take b).length then some (s.copied (s.rest.take b) 0 1)
      else copyLoop b c fuel (s.copied (s.rest.take b) 1 0) := by
  have hread : s.input.fread b = (s.rest.take b,
      { s.input with pos := s.input.pos + (s.rest.take b).length }) := rfl
  rw [copyLoop, hread]
  simp only
  rw [if_neg (length_block_ne_zero hb h), copyRound, increment_of_lt hn]
  simp only [Option.bind_eq_bind, Option.bind_some]
  split
  · rfl
  · split <;> rfl

theorem copyLoop_overflow (hb : 0 < b) (h : s.rest ≠ []) (hn : ¬ s.blocksCopied + 1 < 2 ^ 31) :
    copyLoop b c (fuel + 1) s = none := by
  have hread : s.input.fread b = (s.rest.take b,
      { s.input with pos := s.input.pos + (s.rest.take b).length }) := rfl
  rw [copyLoop, hread]
  simp only
  rw [if_neg (length_block_ne_zero hb h), copyRound, increment_of_not_lt hn]
  rfl

/-- A full block that is not the last counted one. -/
theorem copyLoop_full (hb : 0 < b) (h : b ≤ s.rest.length) (hn : s.blocksCopied + 1 < 2 ^ 31)
    (hc : c ≠ (s.blocksCopied + 1 : ℕ)) :
    copyLoop b c (fuel + 1) s = copyLoop b c fuel (s.copied (s.rest.take b) 1 0) := by
  have hne : s.rest ≠ [] := List.ne_nil_of_length_pos (hb.trans_le h)
  have hlength : b = (s.rest.take b).length := by
    rw [List.length_take, min_eq_left h]
  rw [copyLoop_round hb hne hn, if_neg hc, if_neg (not_not.mpr hlength)]

/-- A short block that is not the last counted one. -/
theorem copyLoop_short (h : s.rest.length < b) (hne : s.rest ≠ [])
    (hn : s.blocksCopied + 1 < 2 ^ 31) (hc : c ≠ (s.blocksCopied + 1 : ℕ)) :
    copyLoop b c (fuel + 1) s = some (s.copied s.rest 0 1) := by
  have hb : 0 < b := (Nat.zero_le _).trans_lt h
  have htake : s.rest.take b = s.rest := List.take_of_length_le h.le
  rw [copyLoop_round hb hne hn, if_neg hc, htake, if_pos h.ne']

/-- The last counted block is always counted as a full one. -/
theorem copyLoop_counted (hb : 0 < b) (hne : s.rest ≠ []) (hn : s.blocksCopied + 1 < 2 ^ 31)
    (hc : c = (s.blocksCopied + 1 : ℕ)) :
    copyLoop b c (fuel + 1) s = some (s.copied (s.rest.take b) 1 0) := by
  rw [copyLoop_round hb hne hn, if_pos hc]

/-! ## Runs of the loop -/

/-- As long as the count is not reached, everything is copied. By induction on the rounds. -/
theorem copyLoop_uncounted (hb : 0 < b) (hfuel : s.rest.length < fuel)
    (hc : ∀ i < blocks b s.rest.length, c ≠ (s.blocksCopied + i + 1 : ℕ))
    (hn : s.blocksCopied < 2 ^ 31) :
    copyLoop b c fuel s = if s.blocksCopied + blocks b s.rest.length < 2 ^ 31 then
      some (s.copied s.rest (s.rest.length / b) (partialBlocks b s.rest.length)) else none := by
  induction fuel generalizing s with
  | zero => exact absurd hfuel (Nat.not_lt_zero _)
  | succ fuel ih =>
      by_cases hnil : s.rest = []
      · rw [copyLoop_end hnil, hnil, List.length_nil, blocks_zero, Nat.add_zero, if_pos hn,
          Nat.zero_div, partialBlocks, if_pos (dvd_zero b), State.copied_nil]
      have hpos : 0 < s.rest.length := List.length_pos_iff.mpr hnil
      have hblocks : 0 < blocks b s.rest.length := by
        rw [← not_le, blocks_le_iff hb, Nat.zero_mul]
        exact hpos.not_ge
      have hfirst := hc 0 hblocks
      by_cases hcount : s.blocksCopied + 1 < 2 ^ 31
      · rcases lt_or_ge s.rest.length b with hshort | hfull
        · obtain ⟨hdiv, hpartial⟩ := blocks_of_lt hshort hpos
          rw [copyLoop_short hshort hnil hcount hfirst, blocks, hdiv, hpartial, if_pos hcount]
        · have hrest : (s.copied (s.rest.take b) 1 0).rest = s.rest.drop b := by
            rw [State.rest_copied, List.length_take, min_eq_left hfull]
          obtain ⟨k, hk⟩ := Nat.exists_eq_add_of_le' hfull
          have hlength : (s.rest.drop b).length = k := by
            rw [List.length_drop, hk, Nat.add_sub_cancel]
          have hcopied : (s.copied (s.rest.take b) 1 0).blocksCopied = s.blocksCopied + 1 := rfl
          have hnext := @ih (s.copied (s.rest.take b) 1 0)
          rw [hrest, hlength, hcopied, State.copied_copied, List.take_append_drop] at hnext
          rw [hk, blocks_add_self hb] at hc
          rw [copyLoop_full hb hfull hcount hfirst, hk, blocks_add_self hb,
            partialBlocks_add_self, Nat.add_div_right k hb, hnext (by omega) _ hcount,
            Nat.add_comm 1, Nat.zero_add, Nat.add_right_comm s.blocksCopied 1, ← Nat.add_assoc]
          intro i hi
          have hlater := hc (i + 1) (Nat.succ_lt_succ hi)
          rwa [← Nat.add_assoc, Nat.add_right_comm s.blocksCopied] at hlater
      · have hover : ¬ s.blocksCopied + blocks b s.rest.length < 2 ^ 31 := by omega
        rw [copyLoop_overflow hb hnil hcount, if_neg hover]

/-- Every counted block but the last one is a full one. By induction on these. -/
theorem copyLoop_reached (hb : 0 < b) (hc : c = (s.blocksCopied + m + 1 : ℕ))
    (hn : s.blocksCopied + m + 1 < 2 ^ 31) (hrest : m * b < s.rest.length) (hfuel : m < fuel) :
    copyLoop b c fuel s = some (s.copied (s.rest.take ((m + 1) * b)) (m + 1) 0) := by
  induction m generalizing s fuel with
  | zero =>
      obtain ⟨k, rfl⟩ := Nat.exists_eq_add_of_lt hfuel
      rw [Nat.zero_mul] at hrest
      rw [copyLoop_counted hb (List.ne_nil_of_length_pos hrest) hn hc, Nat.zero_add, Nat.one_mul]
  | succ m ih =>
      obtain ⟨k, rfl⟩ := Nat.exists_eq_add_of_lt hfuel
      rw [Nat.succ_mul] at hrest
      have hfull : b ≤ s.rest.length := by omega
      have hcount : s.blocksCopied + 1 < 2 ^ 31 := by omega
      have hfirst : c ≠ (s.blocksCopied + 1 : ℕ) := by omega
      have hlength : (s.rest.take b).length = b := by rw [List.length_take, min_eq_left hfull]
      have hcopied : (s.copied (s.rest.take b) 1 0).blocksCopied = s.blocksCopied + 1 := rfl
      have hnext := @ih (m + 1 + k) (s.copied (s.rest.take b) 1 0)
      rw [hcopied, State.rest_copied, hlength, List.length_drop, State.copied_copied] at hnext
      rw [copyLoop_full hb hfull hcount hfirst, hnext (by omega) (by omega) (by omega) (by omega),
        ← List.take_add, Nat.add_comm b, ← Nat.succ_mul, Nat.add_comm 1]

/-! ## The program -/

variable {arguments : List Argument} {request : Request} {input : List Byte}

/-- What the arguments set. No count is `-1`. -/
def Request.settings (request : Request) : Settings where
  copyBlock := match request.count with
    | none => -1
    | some count => count
  blockSize := request.blockSize
  inputOffset := request.skip
  outputOffset := request.seek

theorem parsingInput_eq (h : ∀ argument ∈ arguments, argument.number < 2 ^ 31) :
    parsingInput arguments request.settings = some (arguments.foldl .apply request).settings := by
  induction arguments generalizing request with
  | nil => rfl
  | cons argument arguments ih =>
      obtain ⟨hnumber, hrest⟩ := List.forall_mem_cons.mp h
      have hatoi : atoi argument.number = some argument.number := if_pos hnumber
      rw [parsingInput, hatoi, List.foldl_cons, ← ih hrest]
      cases argument <;> rfl

theorem parsingInput_eq_none {settings : Settings}
    (h : ¬ ∀ argument ∈ arguments, argument.number < 2 ^ 31) :
    parsingInput arguments settings = none := by
  induction arguments generalizing settings with
  | nil => exact absurd (List.forall_mem_nil _) h
  | cons argument arguments ih =>
      rw [List.forall_mem_cons, not_and_or] at h
      rw [parsingInput]
      by_cases hnumber : argument.number < 2 ^ 31
      · have hatoi : atoi argument.number = some argument.number := if_pos hnumber
        have hrest := h.resolve_left (not_not.mpr hnumber)
        rw [hatoi]
        cases argument <;> exact ih hrest
      · have hatoi : atoi argument.number = none := if_neg hnumber
        rw [hatoi]
        rfl

/-- Without blocks to skip there is no need to seek. -/
theorem fseek_start (bytes : List Byte) (n b : ℕ) :
    (if n ≠ 0 then FILE.fseek ⟨bytes, 0⟩ (n * b) else ⟨bytes, 0⟩) = ⟨bytes, n * b⟩ := by
  split
  · rfl
  · next hzero => rw [not_not.mp hzero, Nat.zero_mul]

theorem start_input : (request.settings.start input).input =
    ⟨input, request.skip * request.blockSize⟩ := fseek_start input _ _

theorem start_output : (request.settings.start input).output =
    ⟨[], request.seek * request.blockSize⟩ := fseek_start [] _ _

theorem start_rest : (request.settings.start input).rest = request.rest input := by
  rw [State.rest, start_input, Request.rest]

theorem drop_fwrite : ((FILE.mk [] n).fwrite data).bytes.drop n = data := by
  rw [FILE.fwrite]
  split
  · next hnil => rw [hnil, List.drop_nil]
  · simp

/-- Whatever has been copied, it is at its place. -/
theorem report_copied (data : List Byte) : Report request data
    ((request.settings.start input).copied data (data.length / request.blockSize)
      (partialBlocks request.blockSize data.length)) := by
  constructor
  case output =>
    rw [State.copied, start_output]
    exact drop_fwrite
  all_goals exact Nat.zero_add _

/-- The loop, after the arguments have been read. -/
def Request.run (request : Request) (input : List Byte) : Option State :=
  copyLoop request.blockSize request.settings.copyBlock (input.length + 1)
    (request.settings.start input)

theorem main_eq_run (h : ∀ argument ∈ arguments, argument.number < 2 ^ 31) :
    main arguments input = (Request.of arguments).run input := by
  have hparse : parsingInput arguments Settings.default =
      some (Request.of arguments).settings := @parsingInput_eq arguments ⟨none, 512, 0, 0⟩ h
  rw [main, hparse]
  rfl

theorem main_eq_none (h : ¬ ∀ argument ∈ arguments, argument.number < 2 ^ 31) :
    main arguments input = none := by
  rw [main, parsingInput_eq_none h]
  rfl

theorem length_rest_lt : (request.settings.start input).rest.length < input.length + 1 := by
  rw [start_rest, Request.rest, List.length_drop]
  omega

/-- Without a count, or with one that is not reached, everything is copied if the blocks can be
counted. -/
theorem run_uncounted (hb : 0 < request.blockSize)
    (hc : ∀ i < blocks request.blockSize (request.rest input).length,
      request.settings.copyBlock ≠ (i + 1 : ℕ)) :
    request.run input =
      if blocks request.blockSize (request.rest input).length < 2 ^ 31 then
        some ((request.settings.start input).copied (request.rest input)
          ((request.rest input).length / request.blockSize)
          (partialBlocks request.blockSize (request.rest input).length))
      else none := by
  have hzero : (request.settings.start input).blocksCopied = 0 := rfl
  have hloop := @copyLoop_uncounted request.blockSize (input.length + 1)
    request.settings.copyBlock (request.settings.start input) hb length_rest_lt
  rw [hzero, start_rest, Nat.zero_add] at hloop
  refine hloop (fun i hi ↦ ?_) (by decide)
  rw [Nat.zero_add]
  exact hc i hi

theorem run_reached {count : ℕ} (hb : 0 < request.blockSize)
    (hcount : request.count = some (count + 1)) (hfits : count + 1 < 2 ^ 31)
    (hrest : count * request.blockSize < (request.rest input).length) :
    request.run input = some ((request.settings.start input).copied
      ((request.rest input).take ((count + 1) * request.blockSize)) (count + 1) 0) := by
  have hzero : (request.settings.start input).blocksCopied = 0 := rfl
  have hc : request.settings.copyBlock = (count + 1 : ℕ) := by rw [Request.settings, hcount]
  have hloop := @copyLoop_reached request.blockSize count (input.length + 1)
    request.settings.copyBlock (request.settings.start input) hb
  rw [hzero, start_rest, Nat.zero_add] at hloop
  refine hloop hc hfits hrest ?_
  have hlt := @length_rest_lt request input
  rw [start_rest] at hlt
  have hle : count ≤ count * request.blockSize := Nat.le_mul_of_pos_right count hb
  omega

theorem blocks_lt_iff (hb : 0 < b) : blocks b n < 2 ^ 31 ↔ n ≤ (2 ^ 31 - 1) * b := by
  rw [← blocks_le_iff hb]
  omega

theorem expected_prefix : request.expected input <+: request.rest input := by
  rw [Request.expected]
  split
  · exact List.prefix_rfl
  · exact List.take_prefix _ _

/-- Everything is copied, which is right if everything is expected. -/
theorem uncounted_iff (hb : 0 < request.blockSize)
    (hc : ∀ i < blocks request.blockSize (request.rest input).length,
      request.settings.copyBlock ≠ (i + 1 : ℕ)) :
    (∃ s, request.run input = some s ∧ Report request (request.expected input) s) ↔
      blocks request.blockSize (request.rest input).length < 2 ^ 31 ∧
        (request.expected input).length = (request.rest input).length := by
  rw [run_uncounted hb hc]
  constructor
  · rintro ⟨s, hs, hreport⟩
    split at hs
    · next hfits =>
      obtain rfl := Option.some.inj hs
      have htotal := hreport.totalBytesCopied
      rw [State.copied] at htotal
      exact ⟨hfits, htotal.symm.trans (Nat.zero_add _)⟩
    · cases hs
  · rintro ⟨hfits, hlength⟩
    rw [if_pos hfits, expected_prefix.eq_of_length hlength]
    exact ⟨_, rfl, report_copied _⟩

/-- The count is reached, but the last block may be a short one. -/
theorem reached_iff {count : ℕ} (hb : 0 < request.blockSize)
    (hcount : request.count = some (count + 1)) (hfits : count + 1 < 2 ^ 31)
    (hrest : count * request.blockSize < (request.rest input).length) :
    (∃ s, request.run input = some s ∧ Report request (request.expected input) s) ↔
      (count + 1) * request.blockSize ≤ (request.rest input).length := by
  have hexpected : request.expected input =
      (request.rest input).take ((count + 1) * request.blockSize) := by
    rw [Request.expected, hcount]
  rw [run_reached hb hcount hfits hrest, hexpected]
  constructor
  · rintro ⟨s, hs, hreport⟩
    obtain rfl := Option.some.inj hs
    have hfull := hreport.fullBlocksIn
    rw [State.copied] at hfull
    have hdiv : count + 1 = ((request.rest input).take
        ((count + 1) * request.blockSize)).length / request.blockSize :=
      (Nat.zero_add _).symm.trans hfull
    have hle := Nat.mul_le_of_le_div _ _ _ hdiv.le
    exact hle.trans (List.length_take_le' _ _)
  · intro hfull
    have hlength : ((request.rest input).take ((count + 1) * request.blockSize)).length =
        (count + 1) * request.blockSize := by rw [List.length_take, min_eq_left hfull]
    have hreport := @report_copied request input
      ((request.rest input).take ((count + 1) * request.blockSize))
    rw [hlength, Nat.mul_div_cancel _ hb, partialBlocks, if_pos (Nat.dvd_mul_left _ _)] at hreport
    exact ⟨_, rfl, hreport⟩

theorem run_iff (hb : 0 < request.blockSize) (hcount : ∀ count ∈ request.count, count < 2 ^ 31) :
    (∃ s, request.run input = some s ∧ Report request (request.expected input) s) ↔
      request.Regular input := by
  rw [Request.Regular]
  match h : request.count with
  | none =>
      have hc : request.settings.copyBlock = -1 := by rw [Request.settings, h]
      have hexpected : request.expected input = request.rest input := by rw [Request.expected, h]
      rw [uncounted_iff hb (fun i _ ↦ by omega), hexpected, blocks_lt_iff hb]
      exact and_iff_left rfl
  | some 0 =>
      have hc : request.settings.copyBlock = 0 := by rw [Request.settings, h]; rfl
      have hexpected : request.expected input = [] := by
        rw [Request.expected, h]
        simp
      rw [uncounted_iff hb (fun i _ ↦ by omega), hexpected, List.length_nil, eq_comm,
        List.length_eq_zero_iff]
      refine and_iff_right_of_imp fun hnil ↦ ?_
      rw [hnil, List.length_nil, blocks_zero]
      decide
  | some (count + 1) =>
      have hfits : count + 1 < 2 ^ 31 := hcount _ h
      have hc : request.settings.copyBlock = (count + 1 : ℕ) := by rw [Request.settings, h]
      rcases le_or_gt (request.rest input).length (count * request.blockSize) with hle | hlt
      · have hblocks := (blocks_le_iff hb).mpr hle
        have hexpected : request.expected input = request.rest input := by
          rw [Request.expected, h]
          apply List.take_of_length_le
          rw [Nat.succ_mul]
          omega
        rw [uncounted_iff hb (fun i hi ↦ by omega), hexpected]
        exact iff_of_true ⟨by omega, rfl⟩ (.inl hle)
      · exact (reached_iff hb h hfits hlt).trans (or_iff_right hlt.not_ge).symm

theorem count_foldl_lt (hcount : ∀ count ∈ request.count, count < 2 ^ 31)
    (h : ∀ argument ∈ arguments, argument.number < 2 ^ 31) :
    ∀ count ∈ (arguments.foldl .apply request).count, count < 2 ^ 31 := by
  induction arguments generalizing request with
  | nil => exact hcount
  | cons argument arguments ih =>
      obtain ⟨hnumber, hrest⟩ := List.forall_mem_cons.mp h
      refine ih (fun count hmem ↦ ?_) hrest
      cases argument with
      | c n => exact Option.mem_some_iff.mp hmem ▸ hnumber
      | b n => exact hcount count hmem
      | p n => exact hcount count hmem
      | k n => exact hcount count hmem

/-- The requested range is copied and counted right exactly if every number is an `int`, the blocks
can be counted by an `int`, and the last counted block is not a short one. -/
theorem copying_correct_iff (hb : 0 < (Request.of arguments).blockSize) :
    Correct arguments input ↔ (∀ argument ∈ arguments, argument.number < 2 ^ 31) ∧
      (Request.of arguments).Regular input := by
  by_cases h : ∀ argument ∈ arguments, argument.number < 2 ^ 31
  · rw [Correct, main_eq_run h, run_iff hb (count_foldl_lt (by simp) h), and_iff_right h]
  · rw [Correct, main_eq_none h]
    refine iff_of_false ?_ fun hregular ↦ h hregular.1
    rintro ⟨s, hs, -⟩
    cases hs

/-- `-b 2 -c 2` -/
theorem copying_correct_iff_two_blocks : Correct [.b 2, .c 2] [1, 2, 3, 4, 5] :=
  (copying_correct_iff (by decide)).mpr ⟨by decide, .inr (by decide)⟩

/-- A count of zero copies the whole input. -/
theorem zero_count_copies : ¬ ∀ (arguments : List Argument) (input : List Byte),
    0 < (Request.of arguments).blockSize → Correct arguments input := by
  intro h
  obtain ⟨s, hs, hreport⟩ := h [.c 0] [1] (by decide)
  have hmain : (main [.c 0] [1]).map State.totalBytesCopied = some 1 := by decide
  rw [hs] at hmain
  have hone : s.totalBytesCopied = 1 := Option.some.inj hmain
  have htotal := hreport.totalBytesCopied
  rw [hone] at htotal
  exact absurd htotal (by decide)

end SystemProgramming.DeepfriedDd
