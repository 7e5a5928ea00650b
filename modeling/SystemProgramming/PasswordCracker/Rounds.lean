import SystemProgramming.PasswordCracker.Cracker2

/-!
# The rounds of the second cracker

The passwords are right in every round. The hash counts are those of all rounds so far, so that
they are right in the first round only.
-/

namespace SystemProgramming.PasswordCracker.Cracker2

variable {u : Utils} {nth : ℕ → ℕ → Str} {getSubrange : ℕ → ℕ → ℕ → ℕ × ℕ} {tasks : List Task}
  {threadCount : ℕ} {s t : State} {e : Event} {i : ℕ}

/-- What a step has to keep is the records, and the lines that are left. -/
theorem History.of_records (h : History u tasks threadCount s)
    (hdefined : t.undefined = s.undefined)
    (hlines : t.lines.map sscanf = (tasks.drop t.linesRead).map some)
    (hstarts : t.starts = s.starts) (hcalls : t.calls = s.calls)
    (hcounts : t.hashCount = s.hashCount) (hsummaries : t.summaries = s.summaries) :
    History u tasks threadCount t := by
  cases s
  cases t
  dsimp only at hdefined hstarts hcalls hcounts hsummaries
  subst hdefined hstarts hcalls hcounts hsummaries
  exact ⟨h.defined, hlines, h.starts, h.calls, h.calls_le, h.total_eq, h.rounds, h.passwords,
    h.hashCounts⟩

/-! ## The main thread -/

theorem Inv.read (h : Inv u nth getSubrange tasks threadCount s)
    (hread : Cracker2.read s = some t) : Inv u nth getSubrange tasks threadCount t := by
  obtain ⟨hround, hhistory⟩ := h
  unfold Cracker2.read at hread
  rw [Option.ite_none_right_eq_some] at hread
  obtain ⟨hmain, hread⟩ := hread
  simp only [RoundInv, hmain] at hround
  have hlines := hhistory.lines_eq
  simp only [State.linesRead, hmain] at hlines
  cases hcons : s.lines with
  | nil =>
      simp only [hcons, Option.some.injEq] at hread
      subst hread
      refine ⟨⟨hround, rfl⟩, hhistory.of_records rfl ?_ rfl rfl rfl rfl⟩
      rw [hcons] at hlines
      exact hlines
  | cons line lines =>
      rw [hcons, List.map_cons] at hlines
      obtain ⟨task, hdrop⟩ : ∃ task, tasks.drop s.round = task :: tasks.drop (s.round + 1) := by
        cases hdrop : tasks.drop s.round with
        | nil => simp [hdrop] at hlines
        | cons task rest =>
            refine ⟨task, ?_⟩
            rw [← List.tail_drop, hdrop, List.tail_cons]
      rw [hdrop, List.map_cons, List.cons.injEq] at hlines
      simp only [hcons, hlines.1, Option.some.injEq] at hread
      subst hread
      have htask : tasks[s.round]? = some task := by
        rw [← List.head?_drop, hdrop, List.head?_cons]
      exact ⟨⟨hround, ⟨rfl, htask⟩, rfl⟩, hhistory.of_records rfl hlines.2 rfl rfl rfl rfl⟩

theorem Inv.startBarrier (h : Inv u nth getSubrange tasks threadCount s)
    (hbarrier : Cracker2.startBarrier threadCount s = some t) :
    Inv u nth getSubrange tasks threadCount t := by
  obtain ⟨hround, hhistory⟩ := h
  unfold Cracker2.startBarrier at hbarrier
  rw [Option.ite_none_right_eq_some] at hbarrier
  obtain ⟨-, hbarrier⟩ := hbarrier
  have hlines := hhistory.lines_eq
  cases hmain : s.main <;> simp only [hmain, reduceCtorEq, Option.some.injEq] at hbarrier
  case atStart =>
    subst hbarrier
    simp only [RoundInv, hmain] at hround
    simp only [State.linesRead, hmain] at hlines
    refine ⟨⟨fun i _ ↦ trivial, hround.2.1, ?_⟩, hhistory.of_records rfl hlines rfl rfl rfl rfl⟩
    intro w hw
    exact absurd (hround.2.2.symm.trans hw) (by simp)
  case lastStart =>
    subst hbarrier
    simp only [RoundInv, hmain] at hround
    simp only [State.linesRead, hmain] at hlines
    exact ⟨⟨fun i _ ↦ .inl rfl, hround.2⟩, hhistory.of_records rfl hlines rfl rfl rfl rfl⟩

/-- The ranges of all workers have been searched, unless there is an answer. -/
theorem no_completion_of_finished (hu : u.Lawful nth) (hsplits : Splits getSubrange)
    (hcount : 1 ≤ threadCount)
    (hfinished : ∀ i < threadCount, Finished u nth getSubrange threadCount s i)
    (hnone : s.answer = none) (w : Str) (hw : s.task.Completion u w) :
    u.crypt w ≠ s.task.hash := by
  obtain ⟨p, hp, rfl⟩ := (Task.completion_iff hu).mp hw
  obtain ⟨id, ⟨hpos, hle, hlow, hhigh⟩, -⟩ := hsplits.covers _ threadCount hcount p hp
  obtain ⟨i, rfl⟩ := Nat.exists_eq_add_of_le' hpos
  obtain ⟨j, rfl⟩ := Nat.exists_eq_add_of_le hlow
  have hfails := (hfinished i (by omega)).1
  rw [hnone, Option.isSome_none, Bool.false_eq_true, false_or] at hfails
  exact hfails j (by simp only [subrange]; omega)

/-- Some worker has a candidate, so that at least one hash is computed. -/
theorem called_of_finished (hsplits : Splits getSubrange) (hcount : 1 ≤ threadCount)
    (hfinished : ∀ i < threadCount, Finished u nth getSubrange threadCount s i) :
    0 < s.callsIn s.round := by
  obtain ⟨id, ⟨hpos, hle, hlow, hhigh⟩, -⟩ :=
    hsplits.covers (s.task.suffixLen u) threadCount hcount 0 (by positivity)
  obtain ⟨i, rfl⟩ := Nat.exists_eq_add_of_le' hpos
  exact (hfinished i (by omega)).2 (by simp only [subrange]; omega)

theorem Inv.endBarrier (hu : u.Lawful nth) (hsplits : Splits getSubrange) (hcount : 1 ≤ threadCount)
    (h : Inv u nth getSubrange tasks threadCount s)
    (hbarrier : Cracker2.endBarrier threadCount s = some t) :
    Inv u nth getSubrange tasks threadCount t := by
  obtain ⟨hround, hhistory⟩ := h
  unfold Cracker2.endBarrier at hbarrier
  rw [Option.ite_none_right_eq_some] at hbarrier
  obtain ⟨⟨hmain, hall⟩, hbarrier⟩ := hbarrier
  rw [Option.some.injEq] at hbarrier
  subst hbarrier
  simp only [RoundInv, hmain] at hround
  have hlines := hhistory.lines_eq
  simp only [State.linesRead, hmain] at hlines
  obtain ⟨hworkers, hgiven, hanswer⟩ := hround
  have hended : ∀ i < threadCount,
      s.Begun s.round i ∧ Finished u nth getSubrange threadCount s i := by
    intro i hi
    have hworker := hworkers i hi
    rwa [hall i hi] at hworker
  have hfinished := fun i hi ↦ (hended i hi).2
  exact ⟨⟨fun i _ ↦ rfl, hgiven, hanswer, no_completion_of_finished hu hsplits hcount hfinished,
    called_of_finished hsplits hcount hfinished, fun i hi ↦ (hended i hi).1⟩,
    hhistory.of_records rfl hlines rfl rfl rfl rfl⟩

theorem getElem?_concat_cases {β : Type*} {l : List β} {a b : β} {k : ℕ}
    (h : (l ++ [a])[k]? = some b) : l[k]? = some b ∨ (k = l.length ∧ b = a) := by
  rcases lt_or_ge k l.length with hk | hk
  · rw [List.getElem?_append_left hk] at h
    exact .inl h
  · rw [List.getElem?_append_right hk, List.getElem?_singleton] at h
    obtain ⟨hzero, heq⟩ := Option.ite_none_right_eq_some.mp h
    exact .inr ⟨by omega, (Option.some.inj heq).symm⟩

theorem Inv.summarize (h : Inv u nth getSubrange tasks threadCount s)
    (hsum : s.total threadCount ≤ intMax) (hsummarize : Cracker2.summarize threadCount s = some t) :
    Inv u nth getSubrange tasks threadCount t := by
  obtain ⟨hround, hhistory⟩ := h
  unfold Cracker2.summarize at hsummarize
  rw [Option.ite_none_right_eq_some, if_pos hsum] at hsummarize
  obtain ⟨hmain, hsummarize⟩ := hsummarize
  rw [Option.some.injEq] at hsummarize
  subst hsummarize
  simp only [RoundInv, hmain] at hround
  have hlines := hhistory.lines_eq
  simp only [State.linesRead, hmain] at hlines
  obtain ⟨hworkers, hgiven, hanswer, hnone, hcalled, hbegun⟩ := hround
  refine ⟨hworkers, ⟨hhistory.defined, ?_, hhistory.starts, hhistory.calls, ?_,
    hhistory.total_eq, ?_, ?_, ?_⟩⟩
  · simpa [State.linesRead, State.round] using hlines
  · intro c hc
    have hle := hhistory.calls_le c hc
    simp only [State.round, List.length_append, List.length_singleton] at hle ⊢
    omega
  · intro round hlt
    simp only [State.round, List.length_append, List.length_singleton] at hlt
    rcases Nat.lt_succ_iff_lt_or_eq.mp hlt with hlt | rfl
    · exact hhistory.rounds round hlt
    · exact ⟨hcalled, hbegun⟩
  · intro round sm hsm
    rcases getElem?_concat_cases hsm with hold | ⟨rfl, rfl⟩
    · exact hhistory.passwords round sm hold
    · refine ⟨s.task, hgiven.2, rfl, ?_, fun w hw ↦ ?_, rfl⟩
      · constructor
        · intro hsome
          obtain ⟨w, hw⟩ := Option.isSome_iff_exists.mp hsome
          exact ⟨w, (hanswer w hw).1, (hanswer w hw).2.1⟩
        · rintro ⟨w, hcompletion, hmatch⟩
          by_contra hempty
          exact hnone (Option.not_isSome_iff_eq_none.mp hempty) w hcompletion hmatch
      · exact ⟨(hanswer w hw).1, (hanswer w hw).2.1⟩
  · intro round sm hsm
    rcases getElem?_concat_cases hsm with hold | ⟨rfl, rfl⟩
    · exact hhistory.hashCounts round sm hold
    · have hall : s.calls.countP (·.round ≤ s.summaries.length) = s.calls.length := by
        apply List.countP_eq_length.mpr
        intro c hc
        exact decide_eq_true (hhistory.calls_le c hc)
      rw [hall]
      exact hhistory.total_eq

/-! ## The workers -/

/-- A worker in its search shows that the main thread waits at the second barrier. -/
theorem RoundInv.main_eq_atEnd (h : RoundInv u nth getSubrange tasks threadCount s)
    (hi : i < threadCount) (hstart : s.worker i ≠ .atStart) (hstarted : s.worker i ≠ .started)
    (hleft : s.worker i ≠ .left) : s.main = .atEnd := by
  cases hmain : s.main <;> simp only [RoundInv, hmain] at h
  case reading => exact absurd (h i hi) hstart
  case atStart => exact absurd (h.1 i hi) hstart
  case atEnd => rfl
  case summing => exact absurd (h.1 i hi) hstart
  case lastStart => exact absurd (h.1 i hi) hstart
  case joining =>
    rcases h.1 i hi with hstarted' | hleft'
    · exact absurd hstarted' hstarted
    · exact absurd hleft' hleft

/-- One worker goes on between the barriers. -/
theorem RoundInv.worker_step (h : RoundInv u nth getSubrange tasks threadCount s)
    (hmain : s.main = .atEnd) (hmain' : t.main = .atEnd) (hlater : Later s t)
    (hworking : t.working = s.working) {phase : Phase}
    (hworker : t.worker = Function.update s.worker i phase)
    (hphase : WorkerInv u nth getSubrange threadCount t i phase) (hanswer : AnswerInv u t) :
    RoundInv u nth getSubrange tasks threadCount t := by
  simp only [RoundInv, hmain] at h
  simp only [RoundInv, hmain']
  obtain ⟨hworkers, hgiven, -⟩ := h
  refine ⟨fun j hj ↦ ?_, ⟨hworking ▸ hgiven.1, ?_⟩, hanswer⟩
  · rw [hworker]
    rcases eq_or_ne j i with rfl | hne
    · rwa [Function.update_self]
    · rw [Function.update_of_ne hne]
      exact hlater.workerInv (hworkers j hj)
  · rw [hlater.round_eq, hlater.task_eq]
    exact hgiven.2

/-- A worker's search starts at the first candidate of its range. -/
theorem work_start (hu : u.Lawful nth) (hsplits : Splits getSubrange) (hi : i < threadCount) :
    Work u nth getSubrange threadCount s i
      ⟨s.task.pre.take (u.getPrefixLength s.task.pre) ++
          u.setStringPosition (s.task.pre.drop (u.getPrefixLength s.task.pre))
            (subrange u getSubrange threadCount s.task i).1,
        (subrange u getSubrange threadCount s.task i).2, 0⟩ := by
  refine ⟨rfl, Nat.zero_le _, fun hpos ↦ ?_, by simp, by simp⟩
  apply Task.setStringPosition_eq hu
  exact hsplits.bounded _ threadCount (i + 1) (by omega) (by omega) _ le_rfl (by
    simp only [subrange] at hpos ⊢
    omega)

theorem Inv.begin (hu : u.Lawful nth) (hsplits : Splits getSubrange)
    (h : Inv u nth getSubrange tasks threadCount s) (hi : i < threadCount)
    (hbegin : Cracker2.begin u getSubrange threadCount s i = some t) :
    Inv u nth getSubrange tasks threadCount t := by
  obtain ⟨hround, hhistory⟩ := h
  unfold Cracker2.begin at hbegin
  rw [Option.ite_none_right_eq_some] at hbegin
  obtain ⟨hstarted, hbegin⟩ := hbegin
  have hround' := hround
  cases hmain : s.main <;> simp only [RoundInv, hmain] at hround'
  case reading => simp [hround' i hi] at hstarted
  case atStart => simp [hround'.1 i hi] at hstarted
  case summing => simp [hround'.1 i hi] at hstarted
  case lastStart => simp [hround'.1 i hi] at hstarted
  case joining =>
    rw [if_neg (by simp [hround'.2]), Option.some.injEq] at hbegin
    subst hbegin
    refine ⟨?_, hhistory.of_records rfl hhistory.lines_eq rfl rfl rfl rfl⟩
    simp only [RoundInv, State.setWorker, hmain]
    refine ⟨fun j hj ↦ ?_, hround'.2⟩
    rcases eq_or_ne j i with rfl | hne
    · simp
    · simpa [hne] using hround'.1 j hj
  case atEnd =>
    obtain ⟨-, hgiven, hanswer⟩ := hround'
    rw [if_pos hgiven.1, Option.some.injEq] at hbegin
    subst hbegin
    refine ⟨hround.worker_step hmain hmain
      ⟨rfl, rfl, id, id, fun st hst ↦ List.mem_append_left _ hst⟩ rfl rfl ⟨?_, ?_⟩ hanswer, ?_⟩
    · exact ⟨_, List.mem_append_right _ (List.mem_singleton_self _), rfl, rfl⟩
    · exact work_start hu hsplits hi
    · refine ⟨hhistory.defined, hhistory.lines_eq, ?_, hhistory.calls, hhistory.calls_le,
        hhistory.total_eq, ?_, hhistory.passwords, hhistory.hashCounts⟩
      · intro st hst
        rcases List.mem_append.mp hst with hst | hst
        · exact hhistory.starts st hst
        · obtain rfl := List.mem_singleton.mp hst
          exact ⟨s.task, hgiven.2, rfl, List.prefix_append _ _⟩
      · intro round hlt
        refine ⟨(hhistory.rounds round hlt).1, fun j hj ↦ ?_⟩
        obtain ⟨st, hst, heq⟩ := (hhistory.rounds round hlt).2 j hj
        exact ⟨st, List.mem_append_left _ hst, heq⟩

theorem Inv.check (h : Inv u nth getSubrange tasks threadCount s) (hi : i < threadCount)
    (hcheck : Cracker2.check s i = some t) : Inv u nth getSubrange tasks threadCount t := by
  obtain ⟨hround, hhistory⟩ := h
  unfold Cracker2.check at hcheck
  split at hcheck
  swap
  · exact absurd hcheck (by simp)
  next w hw =>
  have hmain := hround.main_eq_atEnd hi (by simp [hw]) (by simp [hw]) (by simp [hw])
  have hround' := hround
  simp only [RoundInv, hmain] at hround'
  have hanswer := hround'.2.2
  have hworker := hround'.1 i hi
  rw [hw] at hworker
  obtain ⟨hbegun, hwork⟩ := hworker
  have hsame : ∀ phase, Later s (s.setWorker i phase) := fun phase ↦
    ⟨rfl, rfl, id, id, fun _ ↦ id⟩
  have hstep : ∀ phase, WorkerInv u nth getSubrange threadCount s i phase →
      Inv u nth getSubrange tasks threadCount (s.setWorker i phase) := fun phase hphase ↦
    ⟨hround.worker_step hmain hmain (hsame phase) rfl rfl ((hsame phase).workerInv hphase) hanswer,
      hhistory.of_records rfl hhistory.lines_eq rfl rfl rfl rfl⟩
  split at hcheck
  · next hlt =>
    split at hcheck
    · next hsome =>
      obtain rfl := Option.some.inj hcheck
      apply hstep
      obtain ⟨v, hv⟩ := Option.isSome_iff_exists.mp hsome
      exact ⟨hbegun, .inl hsome, fun _ ↦ (hanswer v hv).2.2⟩
    · obtain rfl := Option.some.inj hcheck
      exact hstep _ ⟨hbegun, hwork, hlt⟩
  · next hge =>
    obtain rfl := Option.some.inj hcheck
    have hall : w.i = (subrange u getSubrange threadCount s.task i).2 := by
      rw [← hwork.count_eq]
      exact le_antisymm hwork.le (not_lt.mp hge)
    apply hstep
    refine ⟨hbegun, .inr ?_, ?_⟩
    · rw [← hall]
      exact hwork.fails
    · rw [← hall]
      exact hwork.called

theorem Inv.print (h : Inv u nth getSubrange tasks threadCount s) (hi : i < threadCount)
    (hprint : Cracker2.print s i = some t) : Inv u nth getSubrange tasks threadCount t := by
  obtain ⟨hround, hhistory⟩ := h
  unfold Cracker2.print at hprint
  split at hprint
  swap
  · exact absurd hprint (by simp)
  next result hw =>
  have hmain := hround.main_eq_atEnd hi (by simp [hw]) (by simp [hw]) (by simp [hw])
  have hround' := hround
  simp only [RoundInv, hmain] at hround'
  have hworker := hround'.1 i hi
  rw [hw] at hworker
  obtain rfl := Option.some.inj hprint
  exact ⟨hround.worker_step hmain hmain ⟨rfl, rfl, id, id, fun _ ↦ id⟩ rfl rfl hworker
    hround'.2.2, hhistory.of_records rfl hhistory.lines_eq rfl rfl rfl rfl⟩

/-- The state after a call of `crypt_r`. -/
def State.called (s : State) (i : ℕ) (password : Str) : State :=
  { s with
    hashCount := Function.update s.hashCount i (s.hashCount i + 1)
    calls := s.calls ++ [⟨s.round, i + 1, password, s.task.hash⟩] }

theorem callsIn_called (s : State) (i : ℕ) (password : Str) :
    0 < (s.called i password).callsIn (s.called i password).round := by
  apply List.countP_pos_iff.mpr
  exact ⟨_, List.mem_append_right _ (List.mem_singleton_self _), decide_eq_true rfl⟩

/-- A call is recorded for the right task, and counted by the worker that makes it. -/
theorem History.called (h : History u tasks threadCount s) (hi : i < threadCount)
    (htask : tasks[s.round]? = some s.task) {password : Str}
    (hpassword : s.task.Completion u password) :
    History u tasks threadCount (s.called i password) := by
  refine ⟨h.defined, h.lines_eq, h.starts, ?_, ?_, ?_, ?_, h.passwords, ?_⟩
  · intro c hc
    rcases List.mem_append.mp hc with hc | hc
    · exact h.calls c hc
    · obtain rfl := List.mem_singleton.mp hc
      exact ⟨s.task, htask, rfl, hpassword⟩
  · intro c hc
    rcases List.mem_append.mp hc with hc | hc
    · exact h.calls_le c hc
    · obtain rfl := List.mem_singleton.mp hc
      exact le_refl s.round
  · have hmem := Finset.mem_range.mpr hi
    have htotal := h.total_eq
    simp only [State.total, State.called, List.length_append, List.length_singleton] at htotal ⊢
    rw [← htotal, Finset.sum_update_of_mem hmem, ← Finset.add_sum_erase _ _ hmem,
      Finset.sdiff_singleton_eq_erase]
    omega
  · intro round hlt
    obtain ⟨hcalled, hbegun⟩ := h.rounds round hlt
    refine ⟨?_, hbegun⟩
    simp only [State.callsIn, State.called, List.countP_append] at hcalled ⊢
    omega
  · intro round sm hsm
    have hlt : round < s.round := (List.getElem?_eq_some_iff.mp hsm).1
    rw [h.hashCounts round sm hsm, State.called, List.countP_append, List.countP_singleton,
      if_neg (by simpa using hlt), add_zero]

theorem Work.lt_pow (hsplits : Splits getSubrange) (hi : i < threadCount) {w : Search}
    (h : Work u nth getSubrange threadCount s i w) {j : ℕ} (hj : j < w.count) :
    (subrange u getSubrange threadCount s.task i).1 + j < 26 ^ s.task.suffixLen u := by
  rw [h.count_eq] at hj
  exact hsplits.bounded _ threadCount (i + 1) (by omega) (by omega) _ (Nat.le_add_right _ _)
    (Nat.add_lt_add_left hj _)

/-- What holds of the next iteration after a candidate that did not match. -/
theorem Work.next (hu : u.Lawful nth) (hsplits : Splits getSubrange) (hi : i < threadCount)
    {w : Search} (h : Work u nth getSubrange threadCount s i w) (hlt : w.i < w.count)
    (hmatch : u.crypt w.curPrefix ≠ s.task.hash) :
    (w.i + 1 < w.count → u.incrementString w.curPrefix =
        s.task.candidate u nth ((subrange u getSubrange threadCount s.task i).1 + (w.i + 1))) ∧
      ∀ j < w.i + 1, Fails u nth getSubrange threadCount s.task i j := by
  rw [h.curPrefix_eq hlt] at hmatch ⊢
  refine ⟨fun hnext ↦ ?_, fun j hj ↦ ?_⟩
  · exact Task.incrementString_eq hu (h.lt_pow hsplits hi hnext)
  · rcases Nat.lt_succ_iff_lt_or_eq.mp hj with hj | rfl
    · exact h.fails j hj
    · exact hmatch

theorem Inv.hash (hu : u.Lawful nth) (hsplits : Splits getSubrange)
    (h : Inv u nth getSubrange tasks threadCount s) (hi : i < threadCount)
    (hcount : s.hashCount i < intMax) (hhash : Cracker2.hash u s i = some t) :
    Inv u nth getSubrange tasks threadCount t := by
  obtain ⟨hround, hhistory⟩ := h
  unfold Cracker2.hash at hhash
  split at hhash
  swap
  · exact absurd hhash (by simp)
  next w hw =>
  rw [if_pos hcount] at hhash
  have hmain := hround.main_eq_atEnd hi (by simp [hw]) (by simp [hw]) (by simp [hw])
  have hround' := hround
  simp only [RoundInv, hmain] at hround'
  obtain ⟨hworkers, hgiven, hanswer⟩ := hround'
  have hworker := hworkers i hi
  rw [hw] at hworker
  obtain ⟨hbegun, hwork, hlt⟩ := hworker
  have hcompletion : s.task.Completion u w.curPrefix :=
    (Task.completion_iff hu).mpr ⟨_, hwork.lt_pow hsplits hi hlt, hwork.curPrefix_eq hlt⟩
  have hcalled := hhistory.called hi hgiven.2 hcompletion
  split at hhash
  · next hmatch =>
    obtain rfl := Option.some.inj hhash
    refine ⟨hround.worker_step hmain hmain
      ⟨rfl, rfl, fun _ ↦ rfl, fun _ ↦ callsIn_called s i w.curPrefix, fun _ ↦ id⟩ rfl rfl
      ⟨hbegun, .inl rfl, fun _ ↦ callsIn_called s i w.curPrefix⟩ ?_, ?_⟩
    · intro v hv
      obtain rfl := Option.some.inj hv
      exact ⟨hcompletion, hmatch, callsIn_called s i w.curPrefix⟩
    · exact hcalled.of_records rfl hcalled.lines_eq rfl rfl rfl rfl
  · next hmatch =>
    obtain rfl := Option.some.inj hhash
    refine ⟨hround.worker_step hmain hmain
      ⟨rfl, rfl, id, fun _ ↦ callsIn_called s i w.curPrefix, fun _ ↦ id⟩ rfl rfl
      ⟨hbegun, ?_⟩ ?_, ?_⟩
    · obtain ⟨hnext, hfails⟩ := hwork.next hu hsplits hi hlt hmatch
      exact ⟨hwork.count_eq, hlt, hnext, hfails, fun _ ↦ callsIn_called s i w.curPrefix⟩
    · intro v hv
      obtain ⟨hv, hvmatch, -⟩ := hanswer v hv
      exact ⟨hv, hvmatch, callsIn_called s i w.curPrefix⟩
    · exact hcalled.of_records rfl hcalled.lines_eq rfl rfl rfl rfl

/-! ## Runs -/

/-- No counter is at its limit. -/
def NoOverflow (threadCount : ℕ) (s : State) : Event → Prop
  | .hash i => s.hashCount i < intMax
  | .summarize => s.total threadCount ≤ intMax
  | _ => True

theorem Inv.step (hu : u.Lawful nth) (hsplits : Splits getSubrange) (hcount : 1 ≤ threadCount)
    (h : Inv u nth getSubrange tasks threadCount s) (hok : NoOverflow threadCount s e)
    (hstep : Cracker2.step u getSubrange threadCount s e = some t) :
    Inv u nth getSubrange tasks threadCount t := by
  rw [Cracker2.step, if_neg (by simp [h.history.defined])] at hstep
  cases e with
  | read => exact h.read hstep
  | startBarrier => exact h.startBarrier hstep
  | begin i =>
      obtain ⟨hi, hbegin⟩ := Option.ite_none_right_eq_some.mp hstep
      exact h.begin hu hsplits hi hbegin
  | check i =>
      obtain ⟨hi, hcheck⟩ := Option.ite_none_right_eq_some.mp hstep
      exact h.check hi hcheck
  | hash i =>
      obtain ⟨hi, hhash⟩ := Option.ite_none_right_eq_some.mp hstep
      exact h.hash hu hsplits hi hok hhash
  | print i =>
      obtain ⟨hi, hprint⟩ := Option.ite_none_right_eq_some.mp hstep
      exact h.print hi hprint
  | endBarrier => exact h.endBarrier hu hsplits hcount hstep
  | summarize => exact h.summarize hok hstep

/-- Each worker works on the task of the round, the password of a summary is right, and its hash
count is the number of calls in the round. -/
structure Correct (u : Utils) (tasks : List Task) (threadCount : ℕ) (s : State) : Prop where
  defined : s.undefined = false
  begun : ∀ round < s.round, ∀ i < threadCount, s.Begun round i
  starts : ∀ st ∈ s.starts, ∃ task, tasks[st.round]? = some task ∧
    st.username = task.username ∧ task.known u <+: st.curPrefix
  calls : ∀ c ∈ s.calls, ∃ task, tasks[c.round]? = some task ∧ c.hash = task.hash ∧
    task.Completion u c.password
  passwords : ∀ (round : ℕ) sm, s.summaries[round]? = some sm → ∃ task,
    tasks[round]? = some task ∧ sm.PasswordCorrect u task
  hashCounts : ∀ (round : ℕ) sm, s.summaries[round]? = some sm →
    sm.hashCount = s.callsIn round

theorem countP_le_one (calls : List Call) : calls.countP (·.round ≤ 1) =
    calls.countP (·.round = 0) + calls.countP (·.round = 1) := by
  induction calls with
  | nil => rfl
  | cons c calls ih =>
      simp only [List.countP_cons, ih]
      rcases c.round with _ | _ | round <;> simp <;> omega

/-- The hash count of the first summary is right, and that of a later one is too large. -/
theorem History.correct_iff (h : History u tasks threadCount s) :
    Correct u tasks threadCount s ↔ s.round ≤ 1 := by
  constructor
  · intro hcorrect
    by_contra hlt
    have hfirst := (h.rounds 0 (by omega)).1
    obtain ⟨sm, hsm⟩ : ∃ sm, s.summaries[1]? = some sm :=
      ⟨_, List.getElem?_eq_getElem (not_le.mp hlt)⟩
    have hcount := (h.hashCounts 1 sm hsm).symm.trans (hcorrect.hashCounts 1 sm hsm)
    have hsplit : s.calls.countP (·.round ≤ 1) = s.callsIn 0 + s.callsIn 1 :=
      countP_le_one s.calls
    omega
  · intro hle
    refine ⟨h.defined, fun round hlt ↦ (h.rounds round hlt).2, h.starts, h.calls, h.passwords, ?_⟩
    intro round sm hsm
    have hlt : round < s.round := (List.getElem?_eq_some_iff.mp hsm).1
    obtain rfl : round = 0 := by omega
    rw [h.hashCounts 0 sm hsm, State.callsIn]
    simp only [Nat.le_zero_eq]

/-- Whatever the hash counts are, the passwords are right in every round. -/
theorem passwords_correct (hu : u.Lawful nth) (hsplits : Splits getSubrange)
    (hcount : 1 ≤ threadCount) {lines : List Str} (hlines : lines.map sscanf = tasks.map some)
    {es : List Event}
    (hrun : Run (Guarded (StepOf (step u getSubrange threadCount)) (NoOverflow threadCount))
      (init lines) es s) {round : ℕ} {sm : Summary} (hsm : s.summaries[round]? = some sm) :
    ∃ task, tasks[round]? = some task ∧ sm.PasswordCorrect u task :=
  (hrun.invariant (I := Inv u nth getSubrange tasks threadCount)
    (fun _ _ _ h hstep ↦ h.step hu hsplits hcount hstep.1 hstep.2)
    (inv_init hlines)).history.passwords round sm hsm

/-- The steps that meet the condition: no counter is at its limit, and a summary is the first. -/
def Fine (threadCount : ℕ) (s : State) : Event → Prop
  | .hash i => s.hashCount i < intMax
  | .summarize => s.total threadCount ≤ intMax ∧ s.summaries = []
  | _ => True

instance (threadCount : ℕ) (s : State) (e : Event) : Decidable (Fine threadCount s e) := by
  cases e <;> unfold Fine <;> infer_instance

theorem noOverflow_of_fine (h : Fine threadCount s e) : NoOverflow threadCount s e := by
  cases e with
  | hash i => exact h
  | summarize => exact h.1
  | _ => trivial

/-- Only the main thread prints a summary. -/
theorem summaries_of_step (h : Cracker2.step u getSubrange threadCount s e = some t)
    (hne : e ≠ .summarize) : t.summaries = s.summaries := by
  rw [Cracker2.step, Option.ite_none_left_eq_some] at h
  obtain ⟨-, h⟩ := h
  cases e with
  | read => grind [dispatch, Cracker2.read]
  | startBarrier => grind [dispatch, Cracker2.startBarrier]
  | begin i => grind [dispatch, Cracker2.begin, State.setWorker]
  | check i => grind [dispatch, Cracker2.check, State.setWorker]
  | hash i => grind [dispatch, Cracker2.hash, State.setWorker]
  | print i => grind [dispatch, Cracker2.print, State.setWorker]
  | endBarrier =>
      obtain ⟨-, h⟩ := Option.ite_none_right_eq_some.mp h
      rw [← Option.some.inj h]
  | summarize => exact absurd rfl hne

theorem round_of_summarize (h : Cracker2.step u getSubrange threadCount s .summarize = some t)
    (hsum : s.total threadCount ≤ intMax) : t.round = s.round + 1 := by
  rw [Cracker2.step, Option.ite_none_left_eq_some] at h
  obtain ⟨-, h⟩ := h
  obtain ⟨-, h⟩ := Option.ite_none_right_eq_some.mp h
  rw [if_pos hsum, Option.some.injEq] at h
  simp [← h, State.round]

theorem undefined_of_overflow (h : Cracker2.step u getSubrange threadCount s e = some t)
    (hover : ¬ NoOverflow threadCount s e) : t.undefined = true := by
  rw [Cracker2.step, Option.ite_none_left_eq_some] at h
  obtain ⟨-, h⟩ := h
  cases e with
  | hash i =>
      obtain ⟨-, h⟩ := Option.ite_none_right_eq_some.mp h
      unfold Cracker2.hash at h
      split at h
      · rw [if_neg (show ¬ s.hashCount i < intMax from hover), Option.some.injEq] at h
        rw [← h]
      · exact absurd h (by simp)
  | summarize =>
      obtain ⟨-, h⟩ := Option.ite_none_right_eq_some.mp h
      rw [if_neg (show ¬ s.total threadCount ≤ intMax from hover), Option.some.injEq] at h
      rw [← h]
  | _ => exact absurd trivial hover

theorem fine_step (hu : u.Lawful nth) (hsplits : Splits getSubrange) (hcount : 1 ≤ threadCount)
    (h : Inv u nth getSubrange tasks threadCount s ∧ s.round ≤ 1) (hfine : Fine threadCount s e)
    (hstep : Cracker2.step u getSubrange threadCount s e = some t) :
    Inv u nth getSubrange tasks threadCount t ∧ t.round ≤ 1 := by
  refine ⟨h.1.step hu hsplits hcount (noOverflow_of_fine hfine) hstep, ?_⟩
  by_cases hsummarize : e = .summarize
  · subst hsummarize
    rw [round_of_summarize hstep hfine.1, State.round, hfine.2, List.length_nil]
  · rw [State.round, summaries_of_step hstep hsummarize]
    exact h.2

theorem not_correct_of_not_fine (hu : u.Lawful nth) (hsplits : Splits getSubrange)
    (hcount : 1 ≤ threadCount) (h : Inv u nth getSubrange tasks threadCount s)
    (hfine : ¬ Fine threadCount s e)
    (hstep : Cracker2.step u getSubrange threadCount s e = some t) :
    ¬ Correct u tasks threadCount t := by
  by_cases hover : NoOverflow threadCount s e
  · have hsummarize : e = .summarize := by
      cases e with
      | summarize => rfl
      | hash i => exact absurd hover hfine
      | _ => exact absurd trivial hfine
    subst hsummarize
    have hsome : s.summaries ≠ [] := fun hnil ↦ hfine ⟨hover, hnil⟩
    have hround := round_of_summarize hstep hover
    have hpos := List.length_pos_iff.mpr hsome
    rw [(h.step hu hsplits hcount hover hstep).history.correct_iff, hround, State.round]
    omega
  · intro hcorrect
    have hundefined := undefined_of_overflow hstep hover
    rw [hcorrect.defined] at hundefined
    exact absurd hundefined (by simp)

/-- If each line of the input fits into the buffer, then the program is right in every state of a
run exactly if the counters are below their limits and only one summary is printed. -/
theorem correct_iff_fine (hu : u.Lawful nth) (hsplits : Splits getSubrange)
    (hcount : 1 ≤ threadCount) {input : Str} (hfits : Fits input)
    (hlines : (inputLines input).map sscanf = tasks.map some) {es : List Event}
    (hrun : Run (StepOf (step u getSubrange threadCount)) (init (bufs input)) es s) :
    (∀ pre post t, es = pre ++ post →
        Run (StepOf (step u getSubrange threadCount)) (init (bufs input)) pre t →
          Correct u tasks threadCount t) ↔
      Run (Guarded (StepOf (step u getSubrange threadCount)) (Fine threadCount))
        (init (bufs input)) es s := by
  rw [← hfits.bufs_eq] at hlines
  exact Run.forall_visited_iff_guarded
    (I := fun s ↦ Inv u nth getSubrange tasks threadCount s ∧ s.round ≤ 1)
    (fun _ h ↦ h.1.history.correct_iff.mpr h.2)
    (fun _ _ _ h hfine hstep ↦ fine_step hu hsplits hcount h hfine hstep)
    (fun _ _ _ h hfine hstep ↦ not_correct_of_not_fine hu hsplits hcount h.1 hfine hstep)
    ⟨inv_init hlines, Nat.zero_le 1⟩ hrun

/-- The suffixes are split into ranges of almost the same length. -/
def balanced (suffixLen numThreads id : ℕ) : ℕ × ℕ :=
  let start := 26 ^ suffixLen * (id - 1) / numThreads
  (start, 26 ^ suffixLen * id / numThreads - start)

theorem splits_balanced : Splits balanced := by
  refine ⟨?_, ?_⟩
  · intro suffixLen numThreads id hpos hle p hlow hhigh
    have hend : 26 ^ suffixLen * id / numThreads ≤ 26 ^ suffixLen := by
      apply Nat.div_le_of_le_mul
      rw [mul_comm numThreads]
      exact Nat.mul_le_mul_left _ hle
    simp only [balanced] at hlow hhigh
    omega
  · intro suffixLen numThreads hpos p hp
    have hex : ∃ id, p < 26 ^ suffixLen * id / numThreads :=
      ⟨numThreads, by rwa [Nat.mul_div_cancel _ hpos]⟩
    have hmono : ∀ id id', id ≤ id' →
        26 ^ suffixLen * id / numThreads ≤ 26 ^ suffixLen * id' / numThreads := fun id id' h ↦
      Nat.div_le_div_right (Nat.mul_le_mul_left _ h)
    have hfind := Nat.find_spec hex
    have hone : 1 ≤ Nat.find hex := by
      by_contra hzero
      rw [Nat.lt_one_iff.mp (not_le.mp hzero)] at hfind
      simp at hfind
    have hbefore := Nat.find_min hex (Nat.sub_lt hone one_pos)
    refine ⟨Nat.find hex, ⟨hone, Nat.find_min' hex (by rwa [Nat.mul_div_cancel _ hpos]), ?_, ?_⟩,
      ?_⟩
    · exact not_lt.mp hbefore
    · simp only [balanced]
      omega
    · rintro id ⟨hid, -, hlow, hhigh⟩
      simp only [balanced] at hlow hhigh
      apply le_antisymm
      · by_contra hlt
        have hle := hmono (Nat.find hex) (id - 1) (by omega)
        omega
      · exact Nat.find_min' hex (by omega)

/-- One task and two workers. The second one stops when the first has found the password. -/
theorem correct_iff_fine_one :
    ∃ s, Run (StepOf (step (base26 cryptOfA) balanced 2))
        (init (bufs "user xxKKTqMtVyyHI .\n".toList))
        [.read, .startBarrier, .begin 0, .begin 1, .check 0, .hash 0, .check 1, .print 0, .print 1,
          .endBarrier, .summarize] s ∧
      s.summaries = [⟨"user".toList, some ['a'], 1, 0⟩] ∧
      Correct (base26 cryptOfA) [⟨"user".toList, "xxKKTqMtVyyHI".toList, ['.']⟩] 2 s := by
  have hexec : (execute (guarded (step (base26 cryptOfA) balanced 2) (Fine 2))
      (init (bufs "user xxKKTqMtVyyHI .\n".toList)) [.read, .startBarrier, .begin 0, .begin 1,
        .check 0, .hash 0, .check 1, .print 0, .print 1, .endBarrier, .summarize]).map
        State.summaries = some [⟨"user".toList, some ['a'], 1, 0⟩] := by decide +kernel
  obtain ⟨s, hs, hsummaries⟩ := Option.map_eq_some_iff.mp hexec
  have hguarded := Run.execute_guarded_eq_some_iff.mp hs
  refine ⟨s, hguarded.of_guarded, hsummaries, ?_⟩
  have hlines : (inputLines "user xxKKTqMtVyyHI .\n".toList).map sscanf =
      [⟨"user".toList, "xxKKTqMtVyyHI".toList, ['.']⟩].map some := by decide
  exact (correct_iff_fine (base26_lawful cryptOfA) splits_balanced (by decide) (by decide) hlines
    hguarded.of_guarded).mpr hguarded _ [] s (List.append_nil _).symm hguarded.of_guarded

/-- One worker and two tasks. The second summary counts the hash of the first round too. -/
theorem second_hashCount_wrong :
    ¬ ∀ es s, Run (StepOf (step (base26 cryptOfA) balanced 1))
        (init (bufs "user xxKKTqMtVyyHI .\nother xxKKTqMtVyyHI .\n".toList)) es s →
      Correct (base26 cryptOfA) [⟨"user".toList, "xxKKTqMtVyyHI".toList, ['.']⟩,
        ⟨"other".toList, "xxKKTqMtVyyHI".toList, ['.']⟩] 1 s := by
  intro h
  have hexec : (execute (step (base26 cryptOfA) balanced 1)
      (init (bufs "user xxKKTqMtVyyHI .\nother xxKKTqMtVyyHI .\n".toList))
      [.read, .startBarrier, .begin 0, .check 0, .hash 0, .print 0, .endBarrier, .summarize,
        .read, .startBarrier, .begin 0, .check 0, .hash 0, .print 0, .endBarrier, .summarize]).map
        (fun s ↦ (s.summaries[1]?.map Summary.hashCount, s.callsIn 1)) = some (some 2, 1) := by
    decide +kernel
  obtain ⟨s, hs, hfields⟩ := Option.map_eq_some_iff.mp hexec
  obtain ⟨hsummary, hcalls⟩ := Prod.mk.inj hfields
  obtain ⟨sm, hsm, hcount⟩ := Option.map_eq_some_iff.mp hsummary
  have hcorrect := (h _ s (Run.execute_eq_some_iff.mp hs)).hashCounts 1 sm hsm
  rw [hcount, hcalls] at hcorrect
  exact absurd hcorrect (by decide)

end SystemProgramming.PasswordCracker.Cracker2
