import SystemProgramming.Lib.Monitor

/-!
# The reusable barrier

`barrier.c`: the thread that completes a round advances `times_used`, which the others wait
for.  The value is read again after the mutex has been released.
-/

namespace SystemProgramming.CriticalConcurrency

open Monitor

variable {ι : Type*}

/-- The counter stays below the number of threads, and `times_used` wraps around. -/
structure Barrier where
  count : ℕ
  nThreads : ℕ
  timesUsed : BitVec 32

def barrierInit (numThreads : ℕ) : Barrier := ⟨0, numThreads, 0⟩

namespace Barrier

/-- Outside the mutex a thread is between two calls, or has unlocked and not returned. -/
inductive Outside
  | idle
  | unlocked
  deriving DecidableEq

/-- A section begins at the entry of `barrier_wait` or behind `pthread_cond_wait`. -/
inductive Place
  | entry
  | loop (stage : BitVec 32)
  deriving DecidableEq

inductive Event
  | call
  | enter
  | complete
  | sleep
  | leave
  | ret (value : ℤ)

variable (b : Barrier)

/-- The sections of `barrier_wait`. -/
def barrierWait : Place → Event × Barrier × Exit Outside Place
  | .entry =>
      let b := { b with count := b.count + 1 }
      if b.count < b.nThreads then (.enter, b, .wait (.loop b.timesUsed))
      else (.complete, { b with count := 0, timesUsed := b.timesUsed + 1 }, .leave .unlocked true)
  | .loop stage =>
      if stage = b.timesUsed then (.sleep, b, .wait (.loop stage))
      else (.leave, b, .leave .unlocked false)

def program : Program Barrier Outside Place Event where
  outside b l e next := l = .idle ∧ e = .call ∧ next = .inr .entry ∨
    l = .unlocked ∧ e = .ret b.timesUsed.toInt ∧ next = .inl .idle
  critical b place e b' exit := b.barrierWait place = (e, b', exit)

def start (n : ℕ) : State ι Barrier Outside Place := ⟨barrierInit n, fun _ ↦ .out .idle⟩

/-! ## History -/

/-- The calls of `t` that have entered their round. -/
def entered [DecidableEq ι] (t : ι) (es : List (Label ι Event)) : ℕ :=
  es.countP fun
    | .act u .enter => u = t
    | .act u .complete => u = t
    | _ => false

/-- The rounds that all threads have entered. -/
def rounds (es : List (Label ι Event)) : ℕ :=
  es.countP fun
    | .act _ .complete => true
    | _ => false

/-- The values that `t` has returned with. -/
def values [DecidableEq ι] (t : ι) (es : List (Label ι Event)) : List ℤ :=
  es.filterMap fun
    | .act u (.ret value) => if u = t then some value else none
    | _ => none

/-- The value of a call. -/
def valueOf (k : ℕ) : ℤ := (BitVec.ofNat 32 (k + 1)).toInt

variable [DecidableEq ι] {es : List (Label ι Event)} {s s' : State ι Barrier Outside Place}
  {t u : ι} {e : Event}

theorem entered_snoc (l : Label ι Event) :
    entered t (es ++ [l]) = entered t es + entered t [l] := List.countP_append

omit [DecidableEq ι] in
theorem rounds_snoc (l : Label ι Event) : rounds (es ++ [l]) = rounds es + rounds [l] :=
  List.countP_append

theorem values_snoc (l : Label ι Event) : values t (es ++ [l]) = values t es ++ values t [l] :=
  List.filterMap_append

theorem step_call (ht : s.pc t = .out .idle) :
    Step program s (.act t .call) (s.setPc t (.ready .entry)) := by
  have hout : program.outside s.shared .idle .call (.inr .entry) := .inl ⟨rfl, rfl, rfl⟩
  exact .outside ht hout

theorem step_ret (ht : s.pc t = .out .unlocked) :
    Step program s (.act t (.ret s.shared.timesUsed.toInt)) (s.setPc t (.out .idle)) := by
  have hout : program.outside s.shared .unlocked (.ret s.shared.timesUsed.toInt) (.inl .idle) :=
    .inr ⟨rfl, rfl, rfl⟩
  exact .outside ht hout

/-- Where a thread may stand when `r` rounds are complete. -/
def Place.Ok (r entered returned : ℕ) : Monitor.Pc Outside Place → Prop
  | .out .idle | .ready .entry => entered = r ∧ returned = r
  | .out .unlocked => entered = r ∧ returned + 1 = r
  | .asleep .entry => False
  | .asleep (.loop stage) => entered = r + 1 ∧ returned = r ∧ stage = BitVec.ofNat 32 r
  | .ready (.loop stage) => stage = BitVec.ofNat 32 returned ∧
      (entered = r + 1 ∧ returned = r ∨ entered = r ∧ returned + 1 = r)

/-- The threads in the current round. -/
def inRound [Fintype ι] (es : List (Label ι Event)) : Finset ι :=
  Finset.univ.filter fun t ↦ rounds es < entered t es

structure Inv [Fintype ι] (es : List (Label ι Event)) (s : State ι Barrier Outside Place) :
    Prop where
  ok : ∀ t, Place.Ok (rounds es) (entered t es) (values t es).length (s.pc t)
  count_eq : s.shared.count = (inRound es).card
  count_lt : s.shared.count < Fintype.card ι
  nThreads : s.shared.nThreads = Fintype.card ι
  timesUsed : s.shared.timesUsed = BitVec.ofNat 32 (rounds es)
  values_eq : ∀ t, values t es = (List.range (values t es).length).map valueOf

theorem stage_ne_succ (k : ℕ) : BitVec.ofNat 32 k ≠ BitVec.ofNat 32 (k + 1) := by
  intro h
  have := congrArg BitVec.toNat h
  simp only [BitVec.toNat_ofNat] at this
  omega

theorem map_valueOf_snoc {vs : List ℤ} (h : vs = (List.range vs.length).map valueOf) :
    vs ++ [valueOf vs.length] = (List.range (vs ++ [valueOf vs.length]).length).map valueOf := by
  rw [List.length_append, List.length_singleton, List.range_succ, List.map_append, ← h]
  rfl

/-- A thread that has entered the current round is in its loop. -/
theorem Place.Ok.entered_eq {r entered returned : ℕ} {pc : Monitor.Pc Outside Place}
    (h : Place.Ok r entered returned pc) (hlt : r < entered) : entered = r + 1 := by
  match pc with
  | .out .idle | .ready .entry | .out .unlocked => exact absurd h.1 hlt.ne'
  | .asleep .entry => exact h.elim
  | .asleep (.loop stage) => exact h.1
  | .ready (.loop stage) =>
    rcases h.2 with ⟨hentered, -⟩ | ⟨hentered, -⟩
    · exact hentered
    · exact absurd hentered hlt.ne'

theorem Place.Ok.le_entered {r entered returned : ℕ} {pc : Monitor.Pc Outside Place}
    (h : Place.Ok r entered returned pc) : r ≤ entered := by
  match pc with
  | .out .idle | .ready .entry | .out .unlocked => exact h.1.ge
  | .asleep .entry => exact h.elim
  | .asleep (.loop stage) => exact h.1 ▸ Nat.le_succ r
  | .ready (.loop stage) =>
    rcases h.2 with ⟨hentered, -⟩ | ⟨hentered, -⟩
    · exact hentered ▸ Nat.le_succ r
    · exact hentered.ge

theorem Place.Ok.returned_le {r entered returned : ℕ} {pc : Monitor.Pc Outside Place}
    (h : Place.Ok r entered returned pc) : returned ≤ r := by
  match pc with
  | .out .idle | .ready .entry => exact h.2.le
  | .out .unlocked => exact h.2 ▸ Nat.le_succ returned
  | .asleep .entry => exact h.elim
  | .asleep (.loop stage) => exact h.2.1.le
  | .ready (.loop stage) =>
    rcases h.2 with ⟨-, hreturned⟩ | ⟨-, hreturned⟩
    · exact hreturned.le
    · exact hreturned ▸ Nat.le_succ returned

/-- When its round is complete it is awake. -/
theorem Place.Ok.wake {r entered returned : ℕ} {pc : Monitor.Pc Outside Place}
    (h : Place.Ok r entered returned pc) (hlt : r < entered) :
    Place.Ok (r + 1) (r + 1) returned pc.wake := by
  match pc with
  | .out .idle | .ready .entry | .out .unlocked => exact absurd h.1 hlt.ne'
  | .asleep .entry => exact h.elim
  | .asleep (.loop stage) =>
    obtain ⟨-, rfl, hstage⟩ := h
    exact ⟨hstage, .inr ⟨rfl, rfl⟩⟩
  | .ready (.loop stage) =>
    obtain ⟨hstage, ⟨-, rfl⟩ | ⟨hentered, -⟩⟩ := h
    · exact ⟨hstage, .inr ⟨rfl, rfl⟩⟩
    · exact absurd hentered hlt.ne'

namespace Inv

variable [Fintype ι]

theorem init [Nonempty ι] : Inv ([] : List (Label ι Event)) (start (Fintype.card ι)) where
  ok _ := ⟨rfl, rfl⟩
  count_eq := by simp [start, barrierInit, inRound, rounds, entered]
  count_lt := Fintype.card_pos
  nThreads := rfl
  timesUsed := rfl
  values_eq _ := rfl

/-- A step with which no thread enters a round. -/
theorem quiet {l : Label ι Event} {pc : Monitor.Pc Outside Place} (h : Inv es s)
    (hrounds : rounds [l] = 0) (hentered : ∀ u, entered u [l] = 0)
    (hothers : ∀ u, u ≠ t → values u [l] = [])
    (hvalue : values t [l] = [] ∨ values t [l] = [valueOf (values t es).length])
    (hok : Place.Ok (rounds es) (entered t es) (values t (es ++ [l])).length pc) :
    Inv (es ++ [l]) (s.setPc t pc) := by
  have hr : rounds (es ++ [l]) = rounds es := by rw [rounds_snoc, hrounds, add_zero]
  have he (u : ι) : entered u (es ++ [l]) = entered u es := by
    rw [entered_snoc, hentered, add_zero]
  have hin : inRound (es ++ [l]) = inRound es := by simp [inRound, hr, he]
  refine ⟨?_, ?_, h.count_lt, h.nThreads, ?_, ?_⟩
  · intro u
    rw [hr, he]
    rcases eq_or_ne u t with rfl | hne
    · simpa [State.setPc] using hok
    · rw [values_snoc, hothers u hne, List.append_nil]
      simpa [State.setPc, hne] using h.ok u
  · rw [hin]
    exact h.count_eq
  · rw [hr]
    exact h.timesUsed
  · intro u
    rw [values_snoc]
    rcases eq_or_ne u t with rfl | hne
    · rcases hvalue with hnone | hone
      · rw [hnone, List.append_nil]
        exact h.values_eq u
      · rw [hone]
        exact map_valueOf_snoc (h.values_eq u)
    · rw [hothers u hne, List.append_nil]
      exact h.values_eq u

theorem wake (h : Inv es s) (t : ι) : Inv (es ++ [.wake t]) (s.setPc t (s.pc t).wake) := by
  have hok := h.ok t
  refine h.quiet rfl (fun _ ↦ rfl) (fun _ _ ↦ rfl) (.inl rfl) ?_
  rw [values_snoc, List.length_append]
  cases hpc : s.pc t with
  | out l =>
    rw [hpc] at hok
    exact hok
  | ready place =>
    rw [hpc] at hok
    exact hok
  | asleep place =>
    rw [hpc] at hok
    cases place with
    | entry => exact hok.elim
    | loop stage =>
      obtain ⟨hentered, hreturned, hstage⟩ := hok
      exact ⟨hreturned.symm ▸ hstage, .inl ⟨hentered, hreturned⟩⟩

theorem outside {l : Outside} {next : Outside ⊕ Place} (h : Inv es s) (hpc : s.pc t = .out l)
    (hout : program.outside s.shared l e next) :
    Inv (es ++ [.act t e]) (s.setPc t (next.elim .out .ready)) := by
  have hok := h.ok t
  rw [hpc] at hok
  obtain ⟨rfl, rfl, rfl⟩ | ⟨rfl, rfl, rfl⟩ := hout
  · refine h.quiet rfl (fun _ ↦ rfl) (fun _ _ ↦ rfl) (.inl rfl) ?_
    rw [values_snoc, List.length_append]
    exact hok
  · obtain ⟨hentered, hreturned⟩ := hok
    -- no round has been completed since this thread left its own
    have hvalue : s.shared.timesUsed.toInt = valueOf (values t es).length := by
      rw [h.timesUsed, valueOf, hreturned]
    have hvalues : values t [.act t (.ret s.shared.timesUsed.toInt)] =
        [valueOf (values t es).length] := by
      simp [values, hvalue]
    refine h.quiet rfl (fun _ ↦ rfl) ?_ (.inr hvalues) ?_
    · intro u hne
      simp [values, hne.symm]
    · rw [values_snoc, hvalues]
      exact ⟨hentered, by simpa using hreturned⟩

/-- A thread behind `pthread_cond_wait` tests its stage again. -/
theorem loop {stage : BitVec 32} {b : Barrier} {exit : Exit Outside Place} (h : Inv es s)
    (hpc : s.pc t = .ready (.loop stage))
    (hwait : s.shared.barrierWait (.loop stage) = (e, b, exit)) :
    Inv (es ++ [.act t e]) (s.finish t b exit) := by
  have hok := h.ok t
  rw [hpc] at hok
  obtain ⟨hstage, hround⟩ := hok
  by_cases hsame : stage = s.shared.timesUsed
  · simp only [barrierWait, hsame, if_true, Prod.mk.injEq] at hwait
    obtain ⟨rfl, rfl, rfl⟩ := hwait
    rw [State.finish_of_not_broadcasts (by rintro ⟨_, ⟨⟩⟩)]
    refine h.quiet rfl (fun _ ↦ rfl) (fun _ _ ↦ rfl) (.inl rfl) ?_
    rw [values_snoc, List.length_append]
    rcases hround with ⟨hentered, hreturned⟩ | ⟨-, hreturned⟩
    · exact ⟨hentered, hreturned, h.timesUsed⟩
    · rw [hstage, h.timesUsed, ← hreturned] at hsame
      exact absurd hsame (stage_ne_succ _)
  · simp only [barrierWait, hsame, if_false, Prod.mk.injEq] at hwait
    obtain ⟨rfl, rfl, rfl⟩ := hwait
    rw [State.finish_of_not_broadcasts (by rintro ⟨_, ⟨⟩⟩)]
    refine h.quiet rfl (fun _ ↦ rfl) (fun _ _ ↦ rfl) (.inl rfl) ?_
    rw [values_snoc, List.length_append]
    rcases hround with ⟨-, hreturned⟩ | hdone
    · rw [hstage, h.timesUsed, hreturned] at hsame
      exact absurd rfl hsame
    · exact hdone

/-- A thread that enters a round and is not the last one. -/
theorem enter (h : Inv es s) (hpc : s.pc t = .ready .entry)
    (hlt : s.shared.count + 1 < s.shared.nThreads) :
    Inv (es ++ [.act t .enter]) (s.finish t { s.shared with count := s.shared.count + 1 }
      (.wait (.loop s.shared.timesUsed))) := by
  have hok := h.ok t
  rw [hpc] at hok
  obtain ⟨hentered, hreturned⟩ := hok
  have hr : rounds (es ++ [.act t .enter]) = rounds es := rounds_snoc _
  have hself : entered t (es ++ [.act t .enter]) = rounds es + 1 := by
    rw [entered_snoc, hentered]
    simp [entered]
  have hother : ∀ u, u ≠ t → entered u (es ++ [.act t .enter]) = entered u es := by
    intro u hne
    rw [entered_snoc]
    simp [entered, hne.symm]
  have hvalues (u : ι) : values u (es ++ [.act t .enter]) = values u es := by
    rw [values_snoc]
    exact List.append_nil _
  have hin : inRound (es ++ [.act t .enter]) = insert t (inRound es) := by
    ext u
    rcases eq_or_ne u t with rfl | hne
    · simp [inRound, hr, hself]
    · simp [inRound, hr, hother u hne, hne]
  refine ⟨?_, ?_, ?_, h.nThreads, ?_, ?_⟩
  · intro u
    rw [hr, hvalues]
    rcases eq_or_ne u t with rfl | hne
    · rw [hself]
      simpa [State.finish, Exit.pc, Place.Ok] using ⟨hreturned, h.timesUsed⟩
    · rw [hother u hne]
      simpa [State.finish, hne, Exit.others] using h.ok u
  · have hnot : t ∉ inRound es := by simp [inRound, hentered]
    rw [hin, Finset.card_insert_of_notMem hnot, ← h.count_eq]
    rfl
  · have hn := h.nThreads
    simp only [State.finish_shared]
    omega
  · rw [hr]
    exact h.timesUsed
  · intro u
    rw [hvalues]
    exact h.values_eq u

/-- The last thread finds all others in the round. -/
theorem complete (h : Inv es s) (hpc : s.pc t = .ready .entry)
    (hlast : ¬ s.shared.count + 1 < s.shared.nThreads) :
    Inv (es ++ [.act t .complete]) (s.finish t
      { s.shared with count := 0, timesUsed := s.shared.timesUsed + 1 }
      (.leave .unlocked true)) := by
  have hok := h.ok t
  rw [hpc] at hok
  obtain ⟨hentered, hreturned⟩ := hok
  have hnot : t ∉ inRound es := by simp [inRound, hentered]
  have hall : ∀ u, u ≠ t → u ∈ inRound es := by
    have hcard : (insert t (inRound es)).card = Fintype.card ι := by
      have hle := Finset.card_le_univ (insert t (inRound es))
      have hn := h.nThreads
      have hcount := h.count_eq
      rw [Finset.card_insert_of_notMem hnot] at hle ⊢
      omega
    intro u hne
    have hu : u ∈ insert t (inRound es) := by
      rw [(Finset.card_eq_iff_eq_univ _).mp hcard]
      exact Finset.mem_univ u
    exact (Finset.mem_insert.mp hu).resolve_left hne
  have hr : rounds (es ++ [.act t .complete]) = rounds es + 1 := rounds_snoc _
  have hself : entered t (es ++ [.act t .complete]) = rounds es + 1 := by
    rw [entered_snoc, hentered]
    simp [entered]
  have hother : ∀ u, u ≠ t → entered u (es ++ [.act t .complete]) = entered u es := by
    intro u hne
    rw [entered_snoc]
    simp [entered, hne.symm]
  have hvalues (u : ι) : values u (es ++ [.act t .complete]) = values u es := by
    rw [values_snoc]
    exact List.append_nil _
  have hround : ∀ u, entered u (es ++ [.act t .complete]) = rounds es + 1 := by
    intro u
    rcases eq_or_ne u t with rfl | hne
    · exact hself
    · rw [hother u hne]
      exact (h.ok u).entered_eq (by simpa [inRound] using hall u hne)
  have hin : inRound (es ++ [.act t .complete]) = ∅ := by simp [inRound, hr, hround]
  refine ⟨?_, ?_, ?_, h.nThreads, ?_, ?_⟩
  · intro u
    rw [hr, hround, hvalues]
    rcases eq_or_ne u t with rfl | hne
    · simpa [State.finish, Exit.pc, Place.Ok] using hreturned
    · simp only [State.finish, Function.update_of_ne hne, Exit.others]
      exact (h.ok u).wake (by simpa [inRound] using hall u hne)
  · rw [hin]
    rfl
  · exact Fintype.card_pos_iff.mpr ⟨t⟩
  · rw [hr]
    simp [h.timesUsed, BitVec.ofNat_add]
  · intro u
    rw [hvalues]
    exact h.values_eq u

theorem step {l : Label ι Event} (h : Inv es s) (hstep : Step program s l s') :
    Inv (es ++ [l]) s' := by
  cases hstep with
  | wake t => exact h.wake t
  | outside hpc hout => exact h.outside hpc hout
  | @critical t place e b exit hpc hwait =>
    cases place with
    | loop stage => exact h.loop hpc hwait
    | entry =>
      by_cases hlt : s.shared.count + 1 < s.shared.nThreads
      · simp only [program, barrierWait, hlt, if_true, Prod.mk.injEq] at hwait
        obtain ⟨rfl, rfl, rfl⟩ := hwait
        exact h.enter hpc hlt
      · simp only [program, barrierWait, hlt, if_false, Prod.mk.injEq] at hwait
        obtain ⟨rfl, rfl, rfl⟩ := hwait
        exact h.complete hpc hlt

end Inv

theorem inv_of_run [Fintype ι] [Nonempty ι]
    (hrun : Run (Step program) (start (Fintype.card ι)) es s) : Inv es s := by
  induction hrun with
  | nil => exact .init
  | snoc _ hlast ih => exact ih.step hlast

theorem Inv.getElem?_values [Fintype ι] (h : Inv es s) {k : ℕ} {value : ℤ}
    (hk : (values t es)[k]? = some value) : value = valueOf k := by
  rw [h.values_eq t, List.getElem?_map, Option.map_eq_some_iff] at hk
  obtain ⟨j, hj, rfl⟩ := hk
  obtain ⟨_, hget⟩ := List.getElem?_eq_some_iff.mp hj
  rw [← hget, List.getElem_range]

/-- The rounds of a barrier for all threads of `ι`. -/
theorem barrier_separates_rounds [Fintype ι] [Nonempty ι]
    (hrun : Run (Step program) (start (Fintype.card ι)) es s) :
    (∀ t u, (values t es).length ≤ entered u es) ∧
      (∀ t, entered t es = rounds es ∨ entered t es = rounds es + 1) ∧
      s.shared.count = (inRound es).card ∧ s.shared.count < Fintype.card ι ∧
      (∀ (t u : ι) (k : ℕ) (value value' : ℤ), (values t es)[k]? = some value →
        (values u es)[k]? = some value' → value = value') ∧
      ∀ t place, s.pc t = .asleep place → t ∈ inRound es := by
  have h := inv_of_run hrun
  refine ⟨?_, ?_, h.count_eq, h.count_lt, ?_, ?_⟩
  · intro t u
    exact (h.ok t).returned_le.trans (h.ok u).le_entered
  · intro t
    have hle := (h.ok t).le_entered
    rcases hle.eq_or_lt with heq | hlt
    · exact .inl heq.symm
    · exact .inr ((h.ok t).entered_eq hlt)
  · intro t u k value value' ht hu
    rw [h.getElem?_values ht, h.getElem?_values hu]
  · intro t place ht
    have hok := h.ok t
    rw [ht] at hok
    match place with
    | .entry => exact hok.elim
    | .loop stage => simp [inRound, hok.1]

/-- Two threads pass the barrier, and both get the value 1. -/
theorem barrier_separates_rounds_two : ∃ s : State Bool Barrier Outside Place,
    Run (Step program) (start (Fintype.card Bool)) [.act true .call, .act true .enter,
      .act false .call, .act false .complete, .act false (.ret 1), .act true .leave,
      .act true (.ret 1)] s ∧ s.shared.count < 2 ∧
    ∀ t, (values t ([.act true .call, .act true .enter, .act false .call, .act false .complete,
      .act false (.ret 1), .act true .leave, .act true (.ret 1)] : List (Label Bool Event))).length
        ≤ 1 := by
  let s₁ : State Bool Barrier Outside Place := (start 2).setPc true (.ready .entry)
  let s₂ := s₁.finish true ⟨1, 2, 0⟩ (.wait (.loop 0))
  let s₃ := s₂.setPc false (.ready .entry)
  let s₄ := s₃.finish false ⟨0, 2, 1⟩ (.leave .unlocked true)
  let s₅ := s₄.setPc false (.out .idle)
  let s₆ := s₅.finish true ⟨0, 2, 1⟩ (.leave .unlocked false)
  let s₇ := s₆.setPc true (.out .idle)
  have h₁ : Step program (start 2) (.act true .call) s₁ := step_call rfl
  have h₂ : Step program s₁ (.act true .enter) s₂ := .critical rfl rfl
  have h₃ : Step program s₂ (.act false .call) s₃ := step_call rfl
  have h₄ : Step program s₃ (.act false .complete) s₄ := .critical rfl rfl
  have h₅ : Step program s₄ (.act false (.ret 1)) s₅ := step_ret rfl
  have h₆ : Step program s₅ (.act true .leave) s₆ := .critical rfl rfl
  have h₇ : Step program s₆ (.act true (.ret 1)) s₇ := step_ret rfl
  have hrun := Run.cons h₁ (.cons h₂ (.cons h₃ (.cons h₄ (.cons h₅ (.cons h₆ (.single h₇))))))
  obtain ⟨hle, -, -, hlt, -⟩ := barrier_separates_rounds hrun
  exact ⟨s₇, hrun, hlt, fun t ↦ hle t true⟩

end Barrier

end SystemProgramming.CriticalConcurrency
