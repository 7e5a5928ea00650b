import SystemProgramming.Shell.Model
import SystemProgramming.Lib.Lines

/-!
# The history file

The history is written with one line for each command.  It is loaded with a buffer of 256
characters.
-/

namespace SystemProgramming.Shell

/-- What `%s` prints and `strlen` measures. -/
def cstring (text : Str) : Str := text.takeWhile (· ≠ '\x00')

def writeHistory (cmdHis : List Str) : Str := cmdHis.flatMap fun line ↦ cstring line ++ ['\n']

/-- The newline is overwritten at the end of a piece. -/
def stripNewline (cmd : Str) : Str := if cmd.getLast? = some '\n' then cmd.dropLast else cmd

/-- The loop over the file.  Every round reads at least one character. -/
def loadLoop : ℕ → Str → List Str → Option (List Str)
  | 0, _, _ => none
  | fuel + 1, history, cmdHis => match fgets '\n' 255 history with
    | none => some cmdHis
    | some (cmd, history) => loadLoop fuel history (cmdHis ++ [stripNewline (cstring cmd)])

def loadHistory (history : Str) : Option (List Str) := loadLoop (history.length + 1) history []

variable {line history : Str} {cmdHis loaded : List Str} {m : ℕ}

theorem cstring_eq (h : '\x00' ∉ line) : cstring line = line := by
  rw [cstring, List.takeWhile_eq_self_iff]
  intro c hc
  exact decide_eq_true fun heq ↦ h (heq ▸ hc)

/-! ## Pieces of lines -/

/-- A line that is stored as it has been written. -/
theorem loadLoop_short (hline : '\n' ∉ line) (hnul : '\x00' ∉ line) (h : line.length < 255) :
    loadLoop (m + 1) (line ++ '\n' :: history) loaded = loadLoop m history (loaded ++ [line]) := by
  have hne : line ++ '\n' :: history ≠ [] := by simp
  have hread : fgets '\n' 255 (line ++ '\n' :: history) = some (line ++ ['\n'], history) := by
    rw [fgets, if_neg hne, readLine_of_lt hline h]
  have hstring : cstring (line ++ ['\n']) = line ++ ['\n'] := by
    apply cstring_eq
    simp [hnul]
  have hstrip : stripNewline (line ++ ['\n']) = line := by
    rw [stripNewline, List.getLast?_concat, if_pos rfl, List.dropLast_concat]
  rw [loadLoop, hread]
  simp only [hstring, hstrip]

/-- The first piece of a line that is longer than the buffer. -/
theorem loadLoop_piece (hline : '\n' ∉ line) (hnul : '\x00' ∉ line) (h : 255 ≤ line.length) :
    loadLoop (m + 1) (line ++ '\n' :: history) loaded =
      loadLoop m (line.drop 255 ++ '\n' :: history) (loaded ++ [line.take 255]) := by
  have hne : line ++ '\n' :: history ≠ [] := by simp
  have hread : fgets '\n' 255 (line ++ '\n' :: history) =
      some (line.take 255, line.drop 255 ++ '\n' :: history) := by
    rw [fgets, if_neg hne, readLine_of_le hline h]
  have hstring : cstring (line.take 255) = line.take 255 :=
    cstring_eq fun hmem ↦ hnul (List.mem_of_mem_take hmem)
  have hstrip : stripNewline (line.take 255) = line.take 255 := by
    rw [stripNewline, if_neg]
    exact fun hlast ↦ hline (List.mem_of_mem_take (List.mem_of_getLast? hlast))
  rw [loadLoop, hread]
  simp only [hstring, hstrip]

/-- The number of entries that a line becomes. -/
def pieces (line : Str) : ℕ := line.length / 255 + 1

theorem pieces_of_lt (h : line.length < 255) : pieces line = 1 := by
  rw [pieces, Nat.div_eq_of_lt h]

theorem pieces_drop (h : 255 ≤ line.length) : pieces line = pieces (line.drop 255) + 1 := by
  rw [pieces, pieces, List.length_drop, Nat.div_eq_sub_div (by decide) h]

theorem pieces_eq_one_iff : pieces line = 1 ↔ line.length ≤ 254 := by
  rw [pieces]
  omega

/-- By induction on the length of the line. -/
theorem exists_loadLoop_line (hline : '\n' ∉ line) (hnul : '\x00' ∉ line) :
    ∃ entries : List Str, entries.length = pieces line ∧ (pieces line = 1 → entries = [line]) ∧
      ∀ m history loaded, loadLoop (m + pieces line) (line ++ '\n' :: history) loaded =
        loadLoop m history (loaded ++ entries) := by
  induction hn : line.length using Nat.strong_induction_on generalizing line with
  | h n ih =>
      rcases lt_or_ge line.length 255 with hshort | hlong
      · refine ⟨[line], (pieces_of_lt hshort).symm, fun _ ↦ rfl, fun m history loaded ↦ ?_⟩
        rw [pieces_of_lt hshort, loadLoop_short hline hnul hshort]
      · have hlt : (line.drop 255).length < n := by
          rw [List.length_drop]
          omega
        obtain ⟨entries, hlength, -, hload⟩ := ih _ hlt
          (fun hmem ↦ hline (List.mem_of_mem_drop hmem))
          (fun hmem ↦ hnul (List.mem_of_mem_drop hmem)) rfl
        refine ⟨line.take 255 :: entries, ?_, ?_, fun m history loaded ↦ ?_⟩
        · rw [List.length_cons, hlength, pieces_drop hlong]
        · intro hone
          rw [pieces_eq_one_iff] at hone
          omega
        · rw [pieces_drop hlong, ← Nat.add_assoc, loadLoop_piece hline hnul hlong, hload,
            List.append_assoc, List.singleton_append]

/-! ## The whole file -/

/-- A history of lines that can stand in the file. -/
def Storable (cmdHis : List Str) : Prop := ∀ line ∈ cmdHis, '\n' ∉ line ∧ '\x00' ∉ line

theorem writeHistory_cons (hnul : '\x00' ∉ line) :
    writeHistory (line :: cmdHis) = line ++ '\n' :: writeHistory cmdHis := by
  rw [writeHistory, List.flatMap_cons, cstring_eq hnul, List.append_assoc]
  rfl

/-- The number of entries that are loaded. -/
def rounds (cmdHis : List Str) : ℕ := (cmdHis.map pieces).sum

theorem rounds_le (h : Storable cmdHis) : rounds cmdHis ≤ (writeHistory cmdHis).length := by
  induction cmdHis with
  | nil => exact Nat.le_refl 0
  | cons line cmdHis ih =>
      obtain ⟨⟨-, hnul⟩, hrest⟩ := List.forall_mem_cons.mp h
      have hle := ih hrest
      have hpieces : pieces line ≤ line.length + 1 := Nat.succ_le_succ (Nat.div_le_self _ _)
      rw [writeHistory_cons hnul, rounds, List.map_cons, List.sum_cons, List.length_append,
        List.length_cons]
      rw [rounds] at hle
      omega

theorem length_le_rounds (cmdHis : List Str) : cmdHis.length ≤ rounds cmdHis := by
  induction cmdHis with
  | nil => exact Nat.le_refl 0
  | cons line cmdHis ih =>
      rw [rounds, List.map_cons, List.sum_cons, List.length_cons, pieces]
      rw [rounds] at ih
      omega

/-- There are as many pieces as lines exactly if no line is cut. -/
theorem rounds_eq_length_iff :
    rounds cmdHis = cmdHis.length ↔ ∀ line ∈ cmdHis, line.length ≤ 254 := by
  induction cmdHis with
  | nil => simp [rounds]
  | cons line cmdHis ih =>
      have hle := length_le_rounds cmdHis
      have hpos : 1 ≤ pieces line := Nat.le_add_left 1 _
      rw [List.forall_mem_cons, ← ih, ← pieces_eq_one_iff, rounds, List.map_cons, List.sum_cons,
        List.length_cons]
      rw [rounds] at hle ⊢
      omega

theorem exists_loadLoop_history (h : Storable cmdHis) :
    ∃ entries : List Str, entries.length = rounds cmdHis ∧
      ((∀ line ∈ cmdHis, line.length ≤ 254) → entries = cmdHis) ∧
      ∀ m loaded, loadLoop (m + rounds cmdHis) (writeHistory cmdHis) loaded =
        loadLoop m [] (loaded ++ entries) := by
  induction cmdHis with
  | nil => exact ⟨[], rfl, fun _ ↦ rfl, fun m loaded ↦ by rw [List.append_nil]; rfl⟩
  | cons line cmdHis ih =>
      obtain ⟨⟨hline, hnul⟩, hrest⟩ := List.forall_mem_cons.mp h
      obtain ⟨first, hfirst, hone, hload⟩ := exists_loadLoop_line hline hnul
      obtain ⟨entries, hlength, hshort, hloads⟩ := ih hrest
      have hrounds : rounds (line :: cmdHis) = pieces line + rounds cmdHis := by
        rw [rounds, List.map_cons, List.sum_cons, rounds]
      refine ⟨first ++ entries, ?_, fun hall ↦ ?_, fun m loaded ↦ ?_⟩
      · rw [List.length_append, hfirst, hlength, hrounds]
      · obtain ⟨hle, hall⟩ := List.forall_mem_cons.mp hall
        rw [hone (pieces_eq_one_iff.mpr hle), hshort hall, List.singleton_append]
      · rw [hrounds, Nat.add_comm (pieces line), ← Nat.add_assoc, writeHistory_cons hnul, hload,
          hloads, List.append_assoc]

theorem exists_loadHistory (h : Storable cmdHis) :
    ∃ entries : List Str, loadHistory (writeHistory cmdHis) = some entries ∧
      entries.length = rounds cmdHis ∧
      ((∀ line ∈ cmdHis, line.length ≤ 254) → entries = cmdHis) := by
  obtain ⟨entries, hlength, hshort, hload⟩ := exists_loadLoop_history h
  refine ⟨entries, ?_, hlength, hshort⟩
  obtain ⟨k, hk⟩ := Nat.exists_eq_add_of_le (rounds_le h)
  rw [loadHistory, hk, Nat.add_assoc, Nat.add_comm (rounds cmdHis), hload, List.nil_append]
  rfl

/-- The history comes back exactly if every line fits into the buffer with its newline. -/
theorem loadHistory_writeHistory_iff (h : Storable cmdHis) :
    loadHistory (writeHistory cmdHis) = some cmdHis ↔ ∀ line ∈ cmdHis, line.length ≤ 254 := by
  obtain ⟨entries, hload, hlength, hshort⟩ := exists_loadHistory h
  rw [hload, Option.some.injEq]
  constructor
  · intro heq
    rw [← rounds_eq_length_iff, ← hlength, heq]
  · exact hshort

theorem loadHistory_writeHistory_iff_ls :
    loadHistory (writeHistory [['l', 's'], []]) = some [['l', 's'], []] :=
  (loadHistory_writeHistory_iff (by simp [Storable])).mpr (by decide)

/-- A line of 255 characters is loaded with an empty one behind it. -/
theorem long_line_is_cut : ¬ ∀ cmdHis, Storable cmdHis →
    loadHistory (writeHistory cmdHis) = some cmdHis := by
  intro h
  have hstorable : Storable [List.replicate 255 'a'] := by
    intro line hline
    rw [List.mem_singleton.mp hline]
    exact ⟨fun hmem ↦ absurd (List.eq_of_mem_replicate hmem) (by decide),
      fun hmem ↦ absurd (List.eq_of_mem_replicate hmem) (by decide)⟩
  obtain ⟨entries, hload, hlength, -⟩ := exists_loadHistory hstorable
  rw [h _ hstorable] at hload
  rw [← Option.some.inj hload] at hlength
  have hle := rounds_eq_length_iff.mp hlength.symm _ (List.mem_singleton_self _)
  rw [List.length_replicate] at hle
  omega

end SystemProgramming.Shell
