import SystemProgramming.CriticalConcurrency.Semamore
import SystemProgramming.Lib.Termination

/-!
# Threads that share a semamore

Every thread makes its calls one after the other.  Whether all of them get through depends
on the calls alone: threads that only take or only give must come out between the bounds, and
threads that give back what they have taken always do.
-/

namespace SystemProgramming.CriticalConcurrency.Semamore

open Monitor

variable {ι : Type*}

/-- What a call adds to the value. -/
def Call.net : Call → ℤ
  | .wait => -1
  | .post => 1

def net (calls : List Call) : ℤ := (calls.map Call.net).sum

@[simp] theorem net_nil : net [] = 0 := rfl

@[simp] theorem net_cons (c : Call) (calls : List Call) : net (c :: calls) = c.net + net calls :=
  List.sum_cons

/-- The semamore with the calls that each thread has not completed. -/
structure Clients (ι : Type*) where
  semamore : State ι Semamore Unit Call
  left : ι → List Call

namespace Clients

def start (value maxVal : ℤ) (programs : ι → List Call) : Clients ι :=
  ⟨Semamore.start value maxVal, programs⟩

def Finished (s : Clients ι) (t : ι) : Prop := s.semamore.pc t = .out () ∧ s.left t = []

def spurious : Label ι Event → Bool
  | .wake _ => true
  | .act _ _ => false

variable [DecidableEq ι]

def afterwards (left : ι → List Call) : Label ι Event → ι → List Call
  | .act t (.complete _) => Function.update left t (left t).tail
  | _ => left

structure Step (s : Clients ι) (l : Label ι Event) (s' : Clients ι) : Prop where
  semamore : Monitor.Step program s.semamore l s'.semamore
  follows : ∀ t c, l = .act t (.call c) → (s.left t).head? = some c
  left : s'.left = afterwards s.left l

variable {s s' : Clients ι} {es : List (Label ι Event)} {l : Label ι Event} {t : ι} {c : Call}
  {value maxVal : ℤ} {programs : ι → List Call}

theorem run_semamore (hrun : Run Step s es s') :
    Run (Monitor.Step program) s.semamore es s'.semamore := by
  induction hrun with
  | nil => exact .nil
  | snoc _ hlast ih => exact ih.snoc hlast.semamore

/-! ## What the calls add up to -/

/-- The value with these calls still to be made. -/
def current [Fintype ι] (value : ℤ) (programs left : ι → List Call) : ℤ :=
  value + ∑ t, (net (programs t) - net (left t))

def PcOk (left : List Call) : Monitor.Pc Unit Call → Prop
  | .out _ => True
  | .ready c | .asleep c => left.head? = some c

omit [DecidableEq ι] in
theorem PcOk.wake {left : List Call} {pc : Monitor.Pc Unit Call} (h : PcOk left pc) :
    PcOk left pc.wake := by
  cases pc <;> exact h

structure Inv [Fintype ι] (value maxVal : ℤ) (programs : ι → List Call) (s : Clients ι) :
    Prop where
  bounded : s.semamore.shared.Bounded maxVal
  pcOk : ∀ t, PcOk (s.left t) (s.semamore.pc t)
  suffix : ∀ t, s.left t <:+ programs t
  value_eq : s.semamore.shared.value = current value programs s.left

omit [DecidableEq ι] in
theorem Inv.start [Fintype ι] (hvalue : 0 ≤ value) (hle : value ≤ maxVal) :
    Inv value maxVal programs (start value maxVal programs) where
  bounded := ⟨rfl, hvalue, hle⟩
  pcOk _ := trivial
  suffix _ := List.suffix_rfl
  value_eq := by simp [current, Clients.start, Semamore.start, semmInit]

theorem current_tail [Fintype ι] {left : ι → List Call} (h : (left t).head? = some c) :
    current value programs (Function.update left t (left t).tail) =
      current value programs left + c.net := by
  obtain ⟨rest, hrest⟩ : ∃ rest, left t = c :: rest := List.head?_eq_some_iff.mp h
  have hsum : ∑ u, net (Function.update left t (left t).tail u) = ∑ u, net (left u) - c.net := by
    have hsplit (f : ι → ℤ) := Finset.add_sum_erase Finset.univ f (Finset.mem_univ t)
    rw [← hsplit, ← hsplit fun u ↦ net (left u)]
    have hothers : ∑ u ∈ Finset.univ.erase t, net (Function.update left t (left t).tail u) =
        ∑ u ∈ Finset.univ.erase t, net (left u) :=
      Finset.sum_congr rfl fun u hu ↦ by rw [Function.update_of_ne (Finset.ne_of_mem_erase hu)]
    rw [hothers, Function.update_self, hrest, List.tail_cons, net_cons]
    ring
  simp only [current, Finset.sum_sub_distrib, hsum]
  ring

theorem Inv.step [Fintype ι] (h : Inv value maxVal programs s) (hstep : Step s l s') :
    Inv value maxVal programs s' := by
  obtain ⟨semamore, left⟩ := s'
  obtain ⟨hsemamore, hfollows, rfl⟩ := hstep
  cases hsemamore with
  | wake t =>
    refine ⟨h.bounded, fun u ↦ ?_, h.suffix, h.value_eq⟩
    rcases eq_or_ne u t with rfl | hne
    · simpa [afterwards] using (h.pcOk u).wake
    · simpa [hne, afterwards] using h.pcOk u
  | @outside t _ e next hpc hout =>
    obtain ⟨c, rfl, rfl⟩ := hout
    refine ⟨h.bounded, fun u ↦ ?_, h.suffix, h.value_eq⟩
    rcases eq_or_ne u t with rfl | hne
    · simpa [PcOk, afterwards] using hfollows u c rfl
    · simpa [hne, afterwards] using h.pcOk u
  | @critical t c e shared exit hpc hcritical =>
    have hhead := h.pcOk t
    rw [hpc] at hhead
    have hbounded := h.bounded.enter hcritical
    obtain ⟨-, rfl, rfl, rfl⟩ | ⟨-, rfl, rfl, hshared⟩ := enter_cases hcritical
    · refine ⟨hbounded, fun u ↦ ?_, h.suffix, h.value_eq⟩
      rcases eq_or_ne u t with rfl | hne
      · simpa [Exit.pc, afterwards, PcOk] using hhead
      · simpa [hne, Exit.others, afterwards] using h.pcOk u
    · refine ⟨hbounded, fun u ↦ ?_, fun u ↦ ?_, ?_⟩
      · rcases eq_or_ne u t with rfl | hne
        · simp [Exit.pc, PcOk]
        · simpa [hne, Exit.others, afterwards] using (h.pcOk u).wake
      · rcases eq_or_ne u t with rfl | hne
        · simpa [afterwards] using (List.tail_suffix _).trans (h.suffix u)
        · simpa [afterwards, hne] using h.suffix u
      · change shared.value = current value programs (Function.update s.left t (s.left t).tail)
        rw [current_tail hhead, ← h.value_eq]
        obtain ⟨rfl, rfl⟩ | ⟨rfl, rfl⟩ := hshared
        · simp only [semmWait, Call.net]
          ring
        · rfl

theorem inv_of_run [Fintype ι] (hvalue : 0 ≤ value) (hle : value ≤ maxVal)
    (hrun : Run Step (Clients.start value maxVal programs) es s) : Inv value maxVal programs s :=
  hrun.invariant (fun _ _ _ h hstep ↦ h.step hstep) (Inv.start hvalue hle)

/-! ## Progress -/

/-- Whatever is left of the programs, at 0 somebody gives and at the bound somebody takes. -/
def Feasible [Fintype ι] (value maxVal : ℤ) (programs : ι → List Call) : Prop :=
  ∀ left : ι → List Call, (∀ t, left t <:+ programs t) → (∃ t, left t ≠ []) →
    (current value programs left = 0 → ∃ t, (left t).head? = some .post) ∧
    (current value programs left = maxVal → ∃ t, (left t).head? = some .wait)

theorem exists_step_of_awake (hawake : ∀ c, s.semamore.pc t ≠ .asleep c) (ht : ¬ s.Finished t) :
    ∃ l s', spurious l = false ∧ Step s l s' := by
  cases hpc : s.semamore.pc t with
  | asleep c => exact absurd hpc (hawake c)
  | out l =>
    cases hleft : s.left t with
    | nil => exact absurd ⟨hpc, hleft⟩ ht
    | cons c rest =>
      refine ⟨.act t (.call c), ⟨_, s.left⟩, rfl, step_call c hpc, ?_, rfl⟩
      rintro u c' ⟨⟩
      rw [hleft, List.head?_cons]
  | ready c =>
    obtain ⟨e, shared, exit, henter⟩ : ∃ e shared exit,
      s.semamore.shared.enter c = (e, shared, exit) := ⟨_, _, _, rfl⟩
    refine ⟨.act t e, ⟨_, _⟩, rfl, .critical hpc henter, ?_, rfl⟩
    rintro u c' ⟨⟩
    obtain ⟨-, ⟨⟩, -⟩ | ⟨-, ⟨⟩, -⟩ := enter_cases henter

omit [DecidableEq ι] in
theorem left_ne_nil (hhead : (s.left t).head? = some c) : s.left t ≠ [] := by
  intro hnil
  rw [hnil] at hhead
  cases hhead

omit [DecidableEq ι] in
theorem exists_asleep_of_stuck (hall : ∀ u, (∀ c, s.semamore.pc u ≠ .asleep c) → s.Finished u)
    (ht : ¬ s.Finished t) : ∃ c, s.semamore.pc t = .asleep c := by
  by_contra hawake
  push Not at hawake
  exact ht (hall t hawake)

omit [DecidableEq ι] in
theorem Inv.asleep_of_stuck [Fintype ι] (h : Inv value maxVal programs s)
    (hall : ∀ u, (∀ c, s.semamore.pc u ≠ .asleep c) → s.Finished u)
    (hhead : (s.left t).head? = some c) : s.semamore.pc t = .asleep c := by
  obtain ⟨c', hc'⟩ := exists_asleep_of_stuck (t := t) hall fun ht ↦ left_ne_nil hhead ht.2
  have hok := h.pcOk t
  rw [hc'] at hok
  obtain rfl : c' = c := Option.some.inj (hok.symm.trans hhead)
  exact hc'

omit [DecidableEq ι] in
/-- The threads are never all asleep: if they were, they would all wait for the same. -/
theorem Inv.exists_awake [Fintype ι] (h : Inv value maxVal programs s) (hpos : 0 < maxVal)
    (hfeasible : Feasible value maxVal programs)
    (hwaits : ∀ t c, s.semamore.pc t = .asleep c → s.semamore.shared.waits c)
    (ht : ¬ s.Finished t) :
    ∃ u, (∀ c, s.semamore.pc u ≠ .asleep c) ∧ ¬ s.Finished u := by
  by_contra hall
  push Not at hall
  have hmax := h.bounded.maxVal_eq
  have hfull : ∀ u, (s.left u).head? = some .post → s.semamore.shared.value = maxVal :=
    fun u hu ↦ (hwaits u .post (h.asleep_of_stuck hall hu)).trans hmax
  have hempty : ∀ u, (s.left u).head? = some .wait → s.semamore.shared.value = 0 :=
    fun u hu ↦ hwaits u .wait (h.asleep_of_stuck hall hu)
  obtain ⟨c, hc⟩ := exists_asleep_of_stuck hall ht
  have hhead := h.pcOk t
  rw [hc] at hhead
  obtain ⟨hgive, htake⟩ := hfeasible s.left h.suffix ⟨t, left_ne_nil hhead⟩
  rw [← h.value_eq] at hgive htake
  cases c with
  | wait =>
    have hzero := hempty t hhead
    obtain ⟨u, hu⟩ := hgive hzero
    have hfull' := hfull u hu
    omega
  | post =>
    have hfull' := hfull t hhead
    obtain ⟨u, hu⟩ := htake hfull'
    have hzero := hempty u hu
    omega

/-! ## The work that is left -/

def busy : Monitor.Pc Unit Call → ℕ
  | .out _ => 0
  | _ => 1

def isAwake : Monitor.Pc Unit Call → Bool
  | .asleep _ => false
  | _ => true

/-- A call takes two steps. -/
def work (s : Clients ι) (t : ι) : ℕ := 2 * (s.left t).length - busy (s.semamore.pc t)

def awake (s : Clients ι) (t : ι) : Bool := isAwake (s.semamore.pc t)

omit [DecidableEq ι] in
theorem busy_wake (pc : Monitor.Pc Unit Call) : busy pc.wake = busy pc := by
  cases pc <;> rfl

omit [DecidableEq ι] in
theorem workload_lt_of_work_lt [Fintype ι] (hother : ∀ u, u ≠ t → work s' u = work s u)
    (ht : work s' t < work s t) :
    workload (work s') s'.awake < workload (work s) s.awake := by
  refine workload_lt_of_work (t := t) (fun u ↦ ?_) ht
  rcases eq_or_ne u t with rfl | hne
  · exact ht.le
  · exact (hother u hne).le

theorem Inv.workload_lt [Fintype ι] (h : Inv value maxVal programs s) (hstep : Step s l s')
    (hspurious : spurious l = false) :
    workload (work s') s'.awake < workload (work s) s.awake := by
  obtain ⟨semamore, left⟩ := s'
  obtain ⟨hsemamore, hfollows, rfl⟩ := hstep
  cases hsemamore with
  | wake => cases hspurious
  | @outside t _ e next hpc hout =>
    obtain ⟨c, rfl, rfl⟩ := hout
    obtain ⟨rest, hrest⟩ := List.head?_eq_some_iff.mp (hfollows t c rfl)
    apply workload_lt_of_work_lt (t := t)
    · intro u hne
      simp [work, hne, afterwards]
    · simp [work, hpc, busy, afterwards, hrest]
  | @critical t c e shared exit hpc hcritical =>
    have hhead := h.pcOk t
    rw [hpc] at hhead
    obtain ⟨rest, hrest⟩ := List.head?_eq_some_iff.mp hhead
    obtain ⟨-, rfl, rfl, rfl⟩ | ⟨-, rfl, rfl, -⟩ := enter_cases hcritical
    · refine workload_lt_of_sleep (t := t) (fun u ↦ ?_) ?_ ?_ fun u hu ↦ ?_
      · rcases eq_or_ne u t with rfl | hne
        · simp [work, Exit.pc, hpc, busy, afterwards]
        · simp [work, hne, Exit.others, afterwards]
      · simp [awake, hpc, isAwake]
      · simp [awake, Exit.pc, isAwake]
      · rcases eq_or_ne u t with rfl | hne
        · simp [awake, hpc, isAwake]
        · simpa [awake, hne, Exit.others] using hu
    · apply workload_lt_of_work_lt (t := t)
      · intro u hne
        simp [work, hne, Exit.others, afterwards, busy_wake]
      · simp [work, Exit.pc, hpc, busy, afterwards, hrest]
        omega

theorem workload_le [Fintype ι] (hstep : Step s l s') (hspurious : spurious l = true) :
    workload (work s') s'.awake ≤ workload (work s) s.awake + 1 := by
  obtain ⟨semamore, left⟩ := s'
  obtain ⟨hsemamore, -, rfl⟩ := hstep
  cases hsemamore with
  | wake t =>
    refine workload_le_of_wake (t := t) (fun u ↦ ?_) fun u hne hu ↦ ?_
    · rcases eq_or_ne u t with rfl | hne
      · simp [work, busy_wake, afterwards]
      · simp [work, hne, afterwards]
    · simpa [awake, State.setPc, hne] using hu
  | _ => cases hspurious

omit [DecidableEq ι] in
theorem workload_start [Fintype ι] : workload (work (Clients.start value maxVal programs))
      (Clients.start value maxVal programs).awake =
    (∑ t, 2 * (programs t).length) * (Fintype.card ι + 1) + Fintype.card ι := by
  simp [workload, work, awake, Clients.start, Semamore.start, busy, isAwake]

/-- With feasible programs some thread can always go on without a wake-up out of nothing. -/
theorem exists_step_of_feasible [Fintype ι] (hvalue : 0 ≤ value) (hle : value ≤ maxVal)
    (hpos : 0 < maxVal) (hfeasible : Feasible value maxVal programs)
    (hrun : Run Step (Clients.start value maxVal programs) es s) (hnot : ¬ ∀ t, s.Finished t) :
    ∃ l s', spurious l = false ∧ Step s l s' := by
  have h := inv_of_run hvalue hle hrun
  push Not at hnot
  obtain ⟨t, ht⟩ := hnot
  obtain ⟨u, hawake, hu⟩ := h.exists_awake hpos hfeasible
    (fun _ _ hasleep ↦ waits_of_asleep (run_semamore hrun) hasleep) ht
  exact exists_step_of_awake hawake hu

/-- Each step but a wake-up out of nothing brings the end nearer. -/
theorem countP_le [Fintype ι] (hvalue : 0 ≤ value) (hle : value ≤ maxVal)
    (hrun : Run Step (Clients.start value maxVal programs) es s) :
    es.countP (fun l ↦ !spurious l) ≤
      (∑ t, 2 * (programs t).length) * (Fintype.card ι + 1) + Fintype.card ι +
        es.countP spurious := by
  have hcount := Run.countP_le (I := Inv value maxVal programs)
    (μ := fun s : Clients ι ↦ workload (work s) s.awake) (p := spurious)
    (fun _ _ _ h hstep ↦ h.step hstep) (fun _ _ _ h hstep hl ↦ h.workload_lt hstep hl)
    (fun _ _ _ _ hstep hl ↦ workload_le hstep hl) hrun (Inv.start hvalue hle)
  rw [workload_start] at hcount
  exact (Nat.le_add_right _ _).trans hcount

/-! ## Sections between a wait and a post -/

/-- A thread takes and gives back, again and again. -/
def sections (n : ℕ) : List Call := (List.replicate n [Call.wait, .post]).flatten

theorem sections_succ (n : ℕ) : sections (n + 1) = .wait :: .post :: sections n := by
  simp [sections, List.replicate_succ]

theorem net_sections (n : ℕ) : net (sections n) = 0 := by
  induction n with
  | zero => rfl
  | succ n ih => simp [sections_succ, Call.net, ih]

/-- A thread has one more to give than to take if and only if it gives next. -/
theorem net_of_suffix_sections {n : ℕ} {calls : List Call} (h : calls <:+ sections n) :
    net calls = if calls.head? = some .post then 1 else 0 := by
  induction n generalizing calls with
  | zero =>
    obtain rfl := List.suffix_nil.mp h
    rfl
  | succ n ih =>
    rw [sections_succ, List.suffix_cons_iff, List.suffix_cons_iff] at h
    rcases h with rfl | rfl | h
    · simp [Call.net, net_sections]
    · simp [Call.net, net_sections]
    · exact ih h

/-- The threads between a wait and a post. -/
def inside [Fintype ι] (left : ι → List Call) : Finset ι :=
  Finset.univ.filter fun t ↦ (left t).head? = some .post

omit [DecidableEq ι] in
theorem current_sections [Fintype ι] {n : ι → ℕ} {left : ι → List Call}
    (h : ∀ t, left t <:+ sections (n t)) :
    current value (fun t ↦ sections (n t)) left = value - (inside left).card := by
  have hleft (t : ι) : net (left t) = if (left t).head? = some .post then 1 else 0 :=
    net_of_suffix_sections (h t)
  simp only [current, net_sections, hleft, zero_sub, Finset.sum_neg_distrib, Finset.sum_boole]
  rw [inside]
  ring

omit [DecidableEq ι] in
theorem feasible_sections [Fintype ι] (n : ι → ℕ) (hpos : 0 < value) (hle : value ≤ maxVal) :
    Feasible value maxVal fun t ↦ sections (n t) := by
  intro left hsuffix hleft
  rw [current_sections hsuffix]
  refine ⟨fun hzero ↦ ?_, fun hfull ↦ ?_⟩
  · -- somebody is inside
    have hcard : 0 < (inside left).card := by omega
    obtain ⟨t, ht⟩ := Finset.card_pos.mp hcard
    exact ⟨t, by simpa [inside] using ht⟩
  · -- nobody is inside
    obtain ⟨t, ht⟩ := hleft
    refine ⟨t, ?_⟩
    obtain ⟨c, hc⟩ := Option.ne_none_iff_exists'.mp (mt List.head?_eq_none_iff.mp ht)
    cases c with
    | wait => exact hc
    | post =>
      have hcard : (inside left).card = 0 := by omega
      have hmem : t ∈ inside left := by simpa [inside] using hc
      rw [Finset.card_eq_zero.mp hcard] at hmem
      exact absurd hmem (Finset.notMem_empty t)

/-- Threads that go through any number of sections each, between a wait and a post: never are
more of them inside than the initial value, some thread can always go on until all are
through, each step but a wake-up out of nothing brings the end nearer, and in the end the
value is the initial one again. -/
theorem sections_complete [Fintype ι] {n : ι → ℕ} (hpos : 0 < value) (hle : value ≤ maxVal)
    (hrun : Run Step (Clients.start value maxVal fun t ↦ sections (n t)) es s) :
    ((inside s.left).card : ℤ) = value - s.semamore.shared.value ∧
      ((inside s.left).card : ℤ) ≤ value ∧
      (¬ (∀ t, s.Finished t) → ∃ l s', spurious l = false ∧ Step s l s') ∧
      es.countP (fun l ↦ !spurious l) ≤
        (∑ t, 2 * (sections (n t)).length) * (Fintype.card ι + 1) + Fintype.card ι +
          es.countP spurious ∧
      ((∀ t, s.Finished t) → s.semamore.shared.value = value) := by
  have h := inv_of_run hpos.le hle hrun
  have hvalue := h.value_eq
  rw [current_sections h.suffix] at hvalue
  have hnonneg := h.bounded.nonneg
  refine ⟨by omega, by omega, ?_, countP_le hpos.le hle hrun, fun hfinished ↦ ?_⟩
  · exact exists_step_of_feasible hpos.le hle (hpos.trans_le hle) (feasible_sections n hpos hle) hrun
  · have hnone : inside s.left = ∅ := by
      refine Finset.filter_eq_empty_iff.mpr fun t _ ↦ ?_
      rw [(hfinished t).2]
      simp
    rw [hvalue, hnone]
    simp

/-- One thread is inside and another one waits. -/
theorem sections_complete_one_inside : ∃ s : Clients Bool,
    Run Step (Clients.start 1 1 fun _ ↦ sections 1) [.act true (.call .wait),
      .act true (.complete .wait), .act false (.call .wait), .act false (.sleep .wait)] s ∧
    ((inside s.left).card : ℤ) ≤ 1 ∧ ∃ l s', spurious l = false ∧ Step s l s' := by
  let s₀ : Clients Bool := Clients.start 1 1 fun _ ↦ sections 1
  let s₁ : Clients Bool := ⟨s₀.semamore.setPc true (.ready .wait), s₀.left⟩
  let s₂ : Clients Bool := ⟨s₁.semamore.finish true ⟨0, 1⟩ (.leave () true),
    Function.update s₁.left true [.post]⟩
  let s₃ : Clients Bool := ⟨s₂.semamore.setPc false (.ready .wait), s₂.left⟩
  let s₄ : Clients Bool := ⟨s₃.semamore.finish false ⟨0, 1⟩ (.wait .wait), s₃.left⟩
  have h₁ : Step s₀ (.act true (.call .wait)) s₁ :=
    ⟨step_call .wait rfl, by rintro _ _ ⟨⟩; rfl, rfl⟩
  have h₂ : Step s₁ (.act true (.complete .wait)) s₂ := ⟨.critical rfl rfl, nofun, rfl⟩
  have h₃ : Step s₂ (.act false (.call .wait)) s₃ :=
    ⟨step_call .wait rfl, by rintro _ _ ⟨⟩; rfl, rfl⟩
  have h₄ : Step s₃ (.act false (.sleep .wait)) s₄ := ⟨.critical rfl rfl, nofun, rfl⟩
  have hrun := Run.cons h₁ (Run.cons h₂ (Run.cons h₃ (Run.single h₄)))
  obtain ⟨-, hinside, hprogress, -⟩ := sections_complete one_pos le_rfl hrun
  refine ⟨s₄, hrun, hinside, hprogress fun hfinished ↦ ?_⟩
  obtain ⟨-, hleft⟩ := hfinished true
  cases hleft

/-! ## Threads that only take or only give -/

omit [DecidableEq ι] in
theorem current_nil [Fintype ι] : current value programs (fun _ ↦ []) =
    value + ∑ t, net (programs t) := by
  simp [current]

omit [DecidableEq ι] in
theorem current_add [Fintype ι] (left : ι → List Call) :
    current value programs left + ∑ t, net (left t) = value + ∑ t, net (programs t) := by
  simp only [current, Finset.sum_sub_distrib]
  ring

theorem net_replicate (n : ℕ) (c : Call) : net (List.replicate n c) = n * c.net := by
  simp [net]

omit [DecidableEq ι] in
theorem feasible_replicate [Fintype ι] {kind : ι → Call} {n : ι → ℕ}
    (hnonneg : 0 ≤ value + ∑ t, n t * (kind t).net)
    (hle : value + ∑ t, n t * (kind t).net ≤ maxVal) :
    Feasible value maxVal fun t ↦ List.replicate (n t) (kind t) := by
  intro left hsuffix ⟨t, ht⟩
  have hreplicate (u : ι) : left u = List.replicate (left u).length (kind u) :=
    (List.suffix_replicate_iff.mp (hsuffix u)).2
  have hnet (u : ι) : net (left u) = (left u).length * (kind u).net := by
    rw [← net_replicate, ← hreplicate]
  have hhead {u : ι} (hu : left u ≠ []) : (left u).head? = some (kind u) := by
    rw [hreplicate u, List.head?_replicate, if_neg]
    exact fun hzero ↦ hu (List.eq_nil_of_length_eq_zero hzero)
  have hlength : 0 < (left t).length := List.length_pos_iff.mpr ht
  have hsum : current value (fun t ↦ List.replicate (n t) (kind t)) left + ∑ t, net (left t) = _ :=
    current_add left
  simp only [net_replicate, hnet] at hsum
  refine ⟨fun hzero ↦ ?_, fun hfull ↦ ?_⟩
  · by_contra hnone
    push Not at hnone
    have htake (u : ι) : ((left u).length : ℤ) * (kind u).net = -(left u).length := by
      by_cases hu : left u = []
      · simp [hu]
      · cases hkind : kind u with
        | wait => simp [Call.net]
        | post => exact absurd (hhead hu) (hkind ▸ hnone u)
    have hneg : ∑ u, ((left u).length : ℤ) * (kind u).net < 0 := by
      simp only [htake]
      refine Finset.sum_neg' (fun u _ ↦ by omega) ⟨t, Finset.mem_univ t, by omega⟩
    omega
  · by_contra hnone
    push Not at hnone
    have hgive (u : ι) : ((left u).length : ℤ) * (kind u).net = (left u).length := by
      by_cases hu : left u = []
      · simp [hu]
      · cases hkind : kind u with
        | wait => exact absurd (hhead hu) (hkind ▸ hnone u)
        | post => simp [Call.net]
    have hpos : 0 < ∑ u, ((left u).length : ℤ) * (kind u).net := by
      simp only [hgive]
      exact Finset.sum_pos' (fun u _ ↦ by omega) ⟨t, Finset.mem_univ t, by omega⟩
    omega

/-- Threads of which each only takes or only gives, any number of times.  If what they come to
lies between the bounds, some thread can go on in every state until all calls are completed;
otherwise no schedule completes them. -/
theorem producers_consumers_complete [Fintype ι] {kind : ι → Call} {n : ι → ℕ}
    (hvalue : 0 ≤ value) (hle : value ≤ maxVal) (hpos : 0 < maxVal)
    (hrun : Run Step (Clients.start value maxVal fun t ↦ List.replicate (n t) (kind t)) es s) :
    (0 ≤ value + ∑ t, n t * (kind t).net ∧ value + ∑ t, n t * (kind t).net ≤ maxVal →
      ¬ (∀ t, s.Finished t) → ∃ l s', spurious l = false ∧ Step s l s') ∧
    ((∀ t, s.Finished t) → s.semamore.shared.value = value + ∑ t, n t * (kind t).net ∧
      0 ≤ value + ∑ t, n t * (kind t).net ∧ value + ∑ t, n t * (kind t).net ≤ maxVal) ∧
    es.countP (fun l ↦ !spurious l) ≤
      (∑ t, 2 * n t) * (Fintype.card ι + 1) + Fintype.card ι + es.countP spurious := by
  have h := inv_of_run hvalue hle hrun
  refine ⟨fun ⟨hlow, hhigh⟩ ↦ ?_, fun hfinished ↦ ?_, ?_⟩
  · exact exists_step_of_feasible hvalue hle hpos (feasible_replicate hlow hhigh) hrun
  · have hnil : s.left = fun _ ↦ [] := funext fun t ↦ (hfinished t).2
    have hsum := h.value_eq
    rw [hnil, current_nil] at hsum
    simp only [net_replicate] at hsum
    rw [← hsum]
    exact ⟨rfl, h.bounded.nonneg, h.bounded.le⟩
  · simpa using countP_le hvalue hle hrun

/-- Who waits at 0 for the one that gives. -/
theorem producers_consumers_complete_one : ∃ s : Clients Bool,
    Run Step (Clients.start 0 1 fun t ↦ List.replicate 1 (if t then .post else .wait))
      [.act false (.call .wait), .act false (.sleep .wait)] s ∧
    ∃ l s', spurious l = false ∧ Step s l s' := by
  let s₀ : Clients Bool :=
    Clients.start 0 1 fun t ↦ List.replicate 1 (if t then .post else .wait)
  let s₁ : Clients Bool := ⟨s₀.semamore.setPc false (.ready .wait), s₀.left⟩
  let s₂ : Clients Bool := ⟨s₁.semamore.finish false ⟨0, 1⟩ (.wait .wait), s₁.left⟩
  have h₁ : Step s₀ (.act false (.call .wait)) s₁ :=
    ⟨step_call .wait rfl, by rintro _ _ ⟨⟩; rfl, rfl⟩
  have h₂ : Step s₁ (.act false (.sleep .wait)) s₂ := ⟨.critical rfl rfl, nofun, rfl⟩
  have hrun := Run.cons h₁ (Run.single h₂)
  have hsum : ∑ t : Bool, ((1 : ℕ) : ℤ) * (if t then Call.post else .wait).net = 0 := by decide
  obtain ⟨hprogress, -, -⟩ := producers_consumers_complete le_rfl zero_le_one one_pos hrun
  refine ⟨s₂, hrun, hprogress ?_ fun hfinished ↦ ?_⟩
  · rw [hsum]
    decide
  · obtain ⟨-, hleft⟩ := hfinished false
    cases hleft

end Clients

end SystemProgramming.CriticalConcurrency.Semamore
