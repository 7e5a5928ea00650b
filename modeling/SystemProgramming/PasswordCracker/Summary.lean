import SystemProgramming.PasswordCracker.Cracker1

/-!
# The summary of the first cracker

What is reported for a task is right if the task has an unknown part and its search does not
count too far, and only such tasks are counted as they are reported.
-/

namespace SystemProgramming.PasswordCracker.Cracker1

open WorkerPool (Done)

variable {u : Utils} {nth : ℕ → ℕ → Str} {task : Task} {n i : ℕ} {o : Outcome}

/-! ## One task -/

/-- What the search of a task can end with. -/
def Searched (u : Utils) (nth : ℕ → ℕ → Str) (task : Task) (o : Outcome) : Prop :=
  (o.result = 0 ∧ o.counts = true ∧ ∃ j < 26 ^ task.suffixLen u,
      o.password = task.candidate u nth j ∧ u.crypt o.password = task.hash) ∨
    (o.result = 1 ∧ o.counts = false ∧
      ∀ j < 26 ^ task.suffixLen u, u.crypt (task.candidate u nth j) ≠ task.hash)

theorem crackLoop_username {pre : Str} (h : crackLoop u task n i pre = some o) :
    o.username = task.username := by
  induction n generalizing i pre with
  | zero =>
      rw [crackLoop, Option.some.injEq] at h
      rw [← h]
  | succ n ih =>
      rw [crackLoop] at h
      split at h
      · exact absurd h (by simp)
      split at h
      · rw [Option.some.injEq] at h
        rw [← h]
      · exact ih h

theorem crackLoop_spec (hu : u.Lawful nth) (hn : n + i = 26 ^ task.suffixLen u)
    (hbefore : ∀ j < i, u.crypt (task.candidate u nth j) ≠ task.hash)
    (h : crackLoop u task n i (task.candidate u nth i) = some o) : Searched u nth task o := by
  induction n generalizing i with
  | zero =>
      rw [crackLoop, Option.some.injEq] at h
      rw [← h]
      refine .inr ⟨rfl, rfl, fun j hj ↦ hbefore j ?_⟩
      omega
  | succ n ih =>
      rw [crackLoop] at h
      split at h
      · exact absurd h (by simp)
      split at h
      · next hmatch =>
        rw [Option.some.injEq] at h
        rw [← h]
        exact .inl ⟨rfl, rfl, i, by omega, rfl, hmatch⟩
      · next hmatch =>
        have hnext : ∀ j < i + 1, u.crypt (task.candidate u nth j) ≠ task.hash := by
          intro j hj
          rcases Nat.lt_succ_iff_lt_or_eq.mp hj with hlt | rfl
          · exact hbefore j hlt
          · exact hmatch
        cases n with
        | zero =>
            rw [crackLoop, Option.some.injEq] at h
            rw [← h]
            exact .inr ⟨rfl, rfl, fun j hj ↦ hnext j (by omega)⟩
        | succ n =>
            rw [Task.incrementString_eq hu (by omega)] at h
            exact ih (by omega) hnext h

/-- The search ends if the counter reaches neither its limit before the last candidate nor
before one that matches. -/
theorem crackLoop_isSome_iff (hu : u.Lawful nth) (hn : n + i = 26 ^ task.suffixLen u) :
    (crackLoop u task n i (task.candidate u nth i)).isSome ↔
      n = 0 ∨ 26 ^ task.suffixLen u ≤ intMax ∨
        ∃ j < intMax, i ≤ j ∧ j < 26 ^ task.suffixLen u ∧
          u.crypt (task.candidate u nth j) = task.hash := by
  induction n generalizing i with
  | zero => simp [crackLoop]
  | succ n ih =>
      rw [crackLoop]
      split
      · next hmax =>
        simp only [Option.isSome_none, Bool.false_eq_true, false_iff]
        rintro (h | h | ⟨j, hj, hij, -⟩) <;> omega
      split
      · next hmax hmatch =>
        simp only [Option.isSome_some, true_iff]
        exact .inr (.inr ⟨i, by omega, le_rfl, by omega, hmatch⟩)
      · next hmax hmatch =>
        have hlater : (∃ j < intMax, i ≤ j ∧ j < 26 ^ task.suffixLen u ∧
            u.crypt (task.candidate u nth j) = task.hash) ↔
              ∃ j < intMax, i + 1 ≤ j ∧ j < 26 ^ task.suffixLen u ∧
                u.crypt (task.candidate u nth j) = task.hash := by
          constructor
          · rintro ⟨j, hj, hij, hlt, heq⟩
            rcases hij.eq_or_lt with rfl | hij
            · exact absurd heq hmatch
            · exact ⟨j, hj, hij, hlt, heq⟩
          · rintro ⟨j, hj, hij, hrest⟩
            exact ⟨j, hj, by omega, hrest⟩
        cases n with
        | zero =>
            simp only [crackLoop, Option.isSome_some, true_iff]
            exact .inr (.inl (by omega))
        | succ n =>
            rw [Task.incrementString_eq hu (by omega), ih (by omega), hlater]
            simp

/-- A part of the password is unknown, and the search does not count beyond the largest `int`. -/
def Searchable (u : Utils) (nth : ℕ → ℕ → Str) (task : Task) : Prop :=
  0 < task.suffixLen u ∧ (26 ^ task.suffixLen u ≤ intMax ∨
    ∃ j < intMax, j < 26 ^ task.suffixLen u ∧ u.crypt (task.candidate u nth j) = task.hash)

theorem crack_of_known (hu : u.Lawful nth) (h : task.suffixLen u = 0) :
    crack u task = some ⟨task.username, task.pre, 0, 0, false⟩ := by
  have hle := hu.getPrefixLength_le task.pre
  rw [Task.suffixLen] at h
  exact if_pos (by omega)

theorem crack_eq_loop (hu : u.Lawful nth) (h : 0 < task.suffixLen u) :
    crack u task = crackLoop u task (26 ^ task.suffixLen u) 0 (task.candidate u nth 0) := by
  have hne : u.getPrefixLength task.pre ≠ task.pre.length := by
    intro heq
    simp [Task.suffixLen, heq] at h
  rw [← Task.setStringPosition_eq hu (Nat.pow_pos (by decide))]
  exact if_neg hne

theorem crack_username (h : crack u task = some o) : o.username = task.username := by
  dsimp only [crack] at h
  split at h
  · rw [Option.some.injEq] at h
    rw [← h]
  · exact crackLoop_username h

theorem crack_isSome_iff (hu : u.Lawful nth) (hpos : 0 < task.suffixLen u) :
    (crack u task).isSome ↔ Searchable u nth task := by
  rw [crack_eq_loop hu hpos, crackLoop_isSome_iff hu (Nat.add_zero _), Searchable]
  simp [hpos]

theorem searched_of_crack (hu : u.Lawful nth) (hpos : 0 < task.suffixLen u)
    (h : crack u task = some o) : Searched u nth task o := by
  rw [crack_eq_loop hu hpos] at h
  exact crackLoop_spec hu (Nat.add_zero _) (by simp) h

/-! ## The whole run -/

variable {input : Str} {lines : List Str} {threadCount : ℕ} {s t : State} {es : List Event}

/-- The result is 0 exactly for a password that can be completed to one with the given hash, and
then that completion is reported. -/
def Report.Correct (u : Utils) (lines : List Str) (r : Report) : Prop :=
  ∃ task, lines[r.task]?.bind sscanf = some task ∧ r.outcome.username = task.username ∧
    (r.outcome.result = 0 ∨ r.outcome.result = 1) ∧
    (r.outcome.result = 0 ↔ ∃ w, task.Completion u w ∧ u.crypt w = task.hash) ∧
    (r.outcome.result = 0 →
      task.Completion u r.outcome.password ∧ u.crypt r.outcome.password = task.hash)

/-- The steps of the program on a list of lines. -/
abbrev Step (u : Utils) (lines : List Str) (threadCount : ℕ) : State → Event → State → Prop :=
  StepOf (step (process u) lines threadCount)

/-- Every schedule comes to an end, and then one report was made for each task, each report is
right, and so are the numbers of the summary. The program has read the strings `read`. -/
def Matches (u : Utils) (read lines : List Str) (threadCount : ℕ) : Prop :=
  ∀ es s, Run (Step u read threadCount) (init read) es s →
    (∃ es' t, Run (Step u read threadCount) s es' t ∧ Done threadCount t.pool) ∧
      (Done threadCount s.pool →
        (s.reports.map Report.task).Perm (List.range lines.length) ∧
          (∀ r ∈ s.reports, r.Correct u lines) ∧
          summary read s = some ((s.reports.countP (·.outcome.result = 0) : ℤ),
            (s.reports.countP (·.outcome.result = 1) : ℤ)))

/-- The tasks are the lines of the input, whatever `fgets` makes of them. -/
def SummaryMatches (u : Utils) (input : Str) (threadCount : ℕ) : Prop :=
  Matches u (bufs input) (inputLines input) threadCount

theorem outcome_process {task : ℕ} :
    outcome (process u) lines task = (lines[task]?.bind sscanf).bind (crack u) := by
  rw [outcome, Option.bind_assoc]
  rfl

/-- Only a search that finds the password is counted. -/
theorem result_of_counts (hu : u.Lawful nth) (h : crack u task = some o) (hcounts : o.counts = true) :
    o.result = 0 := by
  rcases Nat.eq_zero_or_pos (task.suffixLen u) with hzero | hpos
  · rw [crack_of_known hu hzero, Option.some.injEq] at h
    rw [← h]
  · obtain ⟨hresult, -⟩ | ⟨-, hfalse, -⟩ := searched_of_crack hu hpos h
    · exact hresult
    · simp [hcounts] at hfalse

theorem countP_lt_countP {β : Type*} {p q : β → Bool} {l : List β} {b : β} (hb : b ∈ l)
    (h : ∀ a ∈ l, p a = true → q a = true) (hp : p b = false) (hq : q b = true) :
    l.countP p < l.countP q := by
  obtain ⟨l₁, l₂, rfl⟩ := List.append_of_mem hb
  have h₁ : l₁.countP p ≤ l₁.countP q := List.countP_mono_left fun a ha ↦ h a (by simp [ha])
  have h₂ : l₂.countP p ≤ l₂.countP q := List.countP_mono_left fun a ha ↦ h a (by simp [ha])
  simp only [List.countP_append, List.countP_cons, hp, hq, if_true, Bool.false_eq_true, if_false]
  omega

theorem Searched.correct (hu : u.Lawful nth) {r : Report}
    (htask : lines[r.task]?.bind sscanf = some task) (hcrack : crack u task = some r.outcome)
    (h : Searched u nth task r.outcome) : r.Correct u lines := by
  obtain ⟨hresult, -, j, hj, hpassword, hmatch⟩ | ⟨hresult, -, hnone⟩ := h
  · have hcompletion : task.Completion u r.outcome.password :=
      (Task.completion_iff hu).mpr ⟨j, hj, hpassword⟩
    refine ⟨task, htask, crack_username hcrack, .inl hresult, ?_, fun _ ↦ ⟨hcompletion, hmatch⟩⟩
    simp only [hresult, true_iff]
    exact ⟨_, hcompletion, hmatch⟩
  · refine ⟨task, htask, crack_username hcrack, .inr hresult, ?_, ?_⟩
    · simp only [hresult, one_ne_zero, false_iff]
      rintro ⟨w, hw, hmatch⟩
      obtain ⟨j, hj, rfl⟩ := (Task.completion_iff hu).mp hw
      exact hnone j hj hmatch
    · simp [hresult]

theorem Searched.result_iff (h : Searched u nth task o) :
    (o.result = 0 ↔ o.counts = true) ∧ (o.result = 1 ↔ ¬ o.counts = true) := by
  obtain ⟨hresult, hcounts, -⟩ | ⟨hresult, hcounts, -⟩ := h
  · simp [hresult, hcounts]
  · simp [hresult, hcounts]

/-- At the end nothing is counted for a task that is not reported yet. -/
theorem Inv.success_of_done {processLine : Str → Option Outcome}
    (h : Inv processLine lines threadCount s) (hdone : Done threadCount s.pool) :
    s.success = s.reports.countP (·.outcome.counts) := by
  have hzero : ∑ i ∈ Finset.range threadCount, (s.counted i).toNat = 0 := by
    apply Finset.sum_eq_zero
    intro i hi
    cases hcounted : s.counted i with
    | false => rfl
    | true =>
        obtain ⟨task, o, hholding, -⟩ := h.counted_spec i hcounted
        simp [hdone i (Finset.mem_range.mp hi)] at hholding
  rw [h.success_eq, hzero, add_zero]

/-- At the end there is one report for each task. -/
theorem Inv.tasks_of_done {processLine : Str → Option Outcome}
    (h : Inv processLine lines threadCount s) (hcount : 1 ≤ threadCount)
    (hdone : Done threadCount s.pool) :
    (s.reports.map Report.task).Perm (List.range lines.length) := by
  obtain ⟨htaken, hperm, -⟩ := h.of_done hcount hdone
  have hsnd := hperm.symm.map Prod.snd
  rw [List.map_map, List.map_map] at hsnd
  rw [← htaken]
  exact hsnd

theorem Inv.exists_report {processLine : Str → Option Outcome}
    (h : Inv processLine lines threadCount s) (hcount : 1 ≤ threadCount)
    (hdone : Done threadCount s.pool) {i : ℕ} (hi : i < lines.length) :
    ∃ r ∈ s.reports, r.task = i ∧ outcome processLine lines i = some r.outcome := by
  have hmem := (h.tasks_of_done hcount hdone).symm.subset (List.mem_range.mpr hi)
  obtain ⟨r, hr, rfl⟩ := List.mem_map.mp hmem
  exact ⟨r, hr, rfl, h.outcome_eq r hr⟩

/-- What `Matches` needs of the lines. -/
def LinesSearchable (u : Utils) (nth : ℕ → ℕ → Str) (lines : List Str) : Prop :=
  lines.length ≤ intMax ∧
    ∀ line ∈ lines, ∀ task, sscanf line = some task → Searchable u nth task

theorem matches_of_linesSearchable (hu : u.Lawful nth)
    (hlines : ∀ line ∈ lines, (sscanf line).isSome) (hcount : 1 ≤ threadCount)
    (h : LinesSearchable u nth lines) : Matches u lines lines threadCount := by
  obtain ⟨hlength, hsearchable⟩ := h
  intro es s hrun
  have hinv := inv_of_run hrun
  have hends : ∀ line ∈ lines, (process u line).isSome := by
    intro line hline
    obtain ⟨task, htask⟩ := Option.isSome_iff_exists.mp (hlines line hline)
    have hs := hsearchable line hline task htask
    rw [process, htask, Option.bind_some]
    exact (crack_isSome_iff hu hs.1).mpr hs
  have hsearched : ∀ r ∈ s.reports, ∃ task, lines[r.task]?.bind sscanf = some task ∧
      crack u task = some r.outcome ∧ Searched u nth task r.outcome := by
    intro r hr
    have ho := hinv.outcome_eq r hr
    rw [outcome_process] at ho
    obtain ⟨task, htask, hcrack⟩ := Option.bind_eq_some_iff.mp ho
    obtain ⟨line, hline, hscan⟩ := Option.bind_eq_some_iff.mp htask
    have hs := hsearchable line (List.mem_of_getElem? hline) task hscan
    exact ⟨task, htask, hcrack, searched_of_crack hu hs.1 hcrack⟩
  refine ⟨exists_done hends hrun, fun hdone ↦ ⟨hinv.tasks_of_done hcount hdone, ?_, ?_⟩⟩
  · intro r hr
    obtain ⟨task, htask, hcrack, hs⟩ := hsearched r hr
    exact hs.correct hu htask hcrack
  · have htotal : s.reports.length = lines.length := by
      have hperm := (hinv.tasks_of_done hcount hdone).length_eq
      rwa [List.length_map, List.length_range] at hperm
    have hzero : s.reports.countP (·.outcome.result = 0) =
        s.reports.countP (·.outcome.counts) := by
      apply List.countP_congr
      intro r hr
      obtain ⟨task, -, -, hs⟩ := hsearched r hr
      simpa using hs.result_iff.1
    have hone : s.reports.countP (·.outcome.result = 1) =
        s.reports.countP (fun r ↦ ¬ r.outcome.counts = true) := by
      apply List.countP_congr
      intro r hr
      obtain ⟨task, -, -, hs⟩ := hsearched r hr
      simpa using hs.result_iff.2
    have hsplit := List.length_eq_countP_add_countP (·.outcome.counts) (l := s.reports)
    rw [summary, if_pos hlength, hinv.success_of_done hdone, hzero, hone, ← htotal]
    congr 2
    omega

theorem linesSearchable_of_matches (hu : u.Lawful nth) (hcount : 1 ≤ threadCount)
    (h : Matches u lines lines threadCount) : LinesSearchable u nth lines := by
  obtain ⟨⟨es, s, hrun, hdone⟩, -⟩ := h [] (init lines) Run.nil
  have hinv := inv_of_run hrun
  obtain ⟨-, -, hsummary⟩ := (h es s hrun).2 hdone
  rw [summary, Option.ite_none_right_eq_some] at hsummary
  obtain ⟨hlength, hsummary⟩ := hsummary
  refine ⟨hlength, fun line hline task htask ↦ ?_⟩
  obtain ⟨i, hi, rfl⟩ := List.getElem_of_mem hline
  obtain ⟨r, hr, rfl, ho⟩ := hinv.exists_report hcount hdone hi
  have hcrack : crack u task = some r.outcome := by
    rw [outcome_process] at ho
    simpa [hi, htask] using ho
  rcases Nat.eq_zero_or_pos (task.suffixLen u) with hzero | hpos
  · -- result 0 is reported, but `success` does not count it
    exfalso
    have hknown : r.outcome = ⟨task.username, task.pre, 0, 0, false⟩ := by
      rw [crack_of_known hu hzero] at hcrack
      exact (Option.some.inj hcrack).symm
    have hlt : s.reports.countP (·.outcome.counts) < s.reports.countP (·.outcome.result = 0) := by
      apply countP_lt_countP hr
      · intro r' hr' hcounts
        have ho' := hinv.outcome_eq r' hr'
        rw [outcome_process] at ho'
        obtain ⟨task', -, hcrack'⟩ := Option.bind_eq_some_iff.mp ho'
        simpa using result_of_counts hu hcrack' hcounts
      · rw [hknown]
      · simp [hknown]
    have hsuccess := congrArg Prod.fst (Option.some.inj hsummary)
    rw [hinv.success_of_done hdone, Nat.cast_inj] at hsuccess
    omega
  · exact (crack_isSome_iff hu hpos).mp (by rw [hcrack]; rfl)

/-- Reports that match the lines are as many, and there is one for each string that was read. -/
theorem fits_of_summaryMatches (hcount : 1 ≤ threadCount)
    (h : SummaryMatches u input threadCount) : Fits input := by
  obtain ⟨⟨es, s, hrun, hdone⟩, -⟩ := h [] (init (bufs input)) Run.nil
  obtain ⟨hlines, -, -⟩ := (h es s hrun).2 hdone
  have hread := (inv_of_run hrun).tasks_of_done hcount hdone
  have hlength := (hread.symm.trans hlines).length_eq
  rw [List.length_range, List.length_range] at hlength
  exact length_bufs_eq_iff.mp hlength

/-- The results and the summary are right under every schedule exactly if each line fits into the
buffer and there are no more tasks than an `int` can count, none of which is known completely or
has no match among as many candidates as an `int` can count. -/
theorem summaryMatches_iff (hu : u.Lawful nth)
    (hlines : ∀ line ∈ inputLines input, (sscanf line).isSome) (hcount : 1 ≤ threadCount) :
    SummaryMatches u input threadCount ↔
      Fits input ∧ (inputLines input).length ≤ intMax ∧
        ∀ line ∈ inputLines input, ∀ task, sscanf line = some task → Searchable u nth task := by
  constructor
  · intro h
    have hfits := fits_of_summaryMatches hcount h
    rw [SummaryMatches, hfits.bufs_eq] at h
    exact ⟨hfits, linesSearchable_of_matches hu hcount h⟩
  · rintro ⟨hfits, hsearchable⟩
    rw [SummaryMatches, hfits.bufs_eq]
    exact matches_of_linesSearchable hu hlines hcount hsearchable

theorem summaryMatches_iff_one :
    SummaryMatches (base26 cryptOfA) "user xxKKTqMtVyyHI .\n".toList 1 := by
  have hinput : inputLines "user xxKKTqMtVyyHI .\n".toList = ["user xxKKTqMtVyyHI .\n".toList] := by
    decide
  have hscan : sscanf "user xxKKTqMtVyyHI .\n".toList =
      some ⟨"user".toList, "xxKKTqMtVyyHI".toList, ['.']⟩ := by decide
  apply (summaryMatches_iff (base26_lawful cryptOfA) _ (le_refl 1)).mpr
  · refine ⟨by decide, by rw [hinput]; decide, fun line hline task htask ↦ ?_⟩
    rw [hinput] at hline
    rw [List.mem_singleton.mp hline, hscan, Option.some.injEq] at htask
    rw [← htask]
    exact ⟨by decide, .inl (by decide)⟩
  · intro line hline
    rw [hinput] at hline
    rw [List.mem_singleton.mp hline, hscan]
    rfl

/-- A password without unknown letters is reported with result 0, but the summary counts it as
one that was not recovered. -/
theorem known_password_not_counted :
    ¬ SummaryMatches (base26 cryptOfA) "user xxKKTqMtVyyHI a\n".toList 1 := by
  intro h
  have hinput : bufs "user xxKKTqMtVyyHI a\n".toList = ["user xxKKTqMtVyyHI a\n".toList] := by
    decide
  have hexec : (execute (step (process (base26 cryptOfA)) ["user xxKKTqMtVyyHI a\n".toList] 1)
      (init ["user xxKKTqMtVyyHI a\n".toList]) [.pull 0, .report 0, .pull 0, .push 0]).map
        (fun s ↦ (s.success, s.reports, s.pool.worker 0)) =
      some (0, [⟨1, 0, ⟨"user".toList, ['a'], 0, 0, false⟩⟩], .left) := by decide
  obtain ⟨s, hs, hfields⟩ := Option.map_eq_some_iff.mp hexec
  simp only [Prod.mk.injEq] at hfields
  obtain ⟨hsuccess, hreports, hleft⟩ := hfields
  have hdone : Done 1 s.pool := by
    intro i hi
    rwa [Nat.lt_one_iff.mp hi]
  rw [SummaryMatches, hinput] at h
  obtain ⟨-, -, hsummary⟩ := (h _ s (Run.execute_eq_some_iff.mp hs)).2 hdone
  rw [summary, hsuccess, hreports] at hsummary
  exact absurd hsummary (by decide)

end SystemProgramming.PasswordCracker.Cracker1
