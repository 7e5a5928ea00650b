import SystemProgramming.Lib.Termination

/-!
# The rendezvous

The two thread functions of `rendezvous_sol.c`: each decodes a quote, meets the other, and prints
the quote of the other.  They meet by two semaphores that begin at 0, as the `sem_init` calls have
it.  The `main` of the file lacks semicolons and does not compile, so it has no runs; what is
modelled is the two functions, started by any program as this `main` was to start them.
-/

namespace SystemProgramming.CriticalConcurrency.Rendezvous

/-! ## Quotes -/

/-- A quote whose first `k` characters have been decoded. -/
def decodedTo (k : ℕ) (quote : List UInt8) : List UInt8 :=
  quote.mapIdx fun j c ↦ if j < k then c - 1 else c

def decoded (quote : List UInt8) : List UInt8 := quote.map fun c ↦ c - 1

/-- The character of a C string at an index, the terminator behind its end. -/
def charAt (quote : List UInt8) (i : ℕ) : UInt8 := quote.getD i 0

variable {quote : List UInt8} {i k : ℕ}

theorem decodedTo_zero : decodedTo 0 quote = quote := by
  apply List.ext_getElem?
  intro j
  simp [decodedTo]

theorem decodedTo_of_length_le (h : quote.length ≤ k) : decodedTo k quote = decoded quote := by
  apply List.ext_getElem?
  intro j
  simp only [decodedTo, decoded, List.getElem?_mapIdx, List.getElem?_map]
  rcases lt_or_ge j quote.length with hj | hj
  · simp [hj.trans_le h]
  · simp [hj]

theorem charAt_decodedTo : charAt (decodedTo i quote) i = charAt quote i := by
  simp [charAt, decodedTo, List.getD_eq_getElem?_getD, List.getElem?_mapIdx]

theorem set_decodedTo :
    (decodedTo i quote).set i (charAt quote i - 1) = decodedTo (i + 1) quote := by
  apply List.ext_getElem?
  intro j
  simp only [decodedTo, List.getElem?_set, List.getElem?_mapIdx, List.length_mapIdx]
  rcases lt_trichotomy j i with hj | rfl | hj
  · simp [hj.ne', hj, Nat.lt_succ_of_lt hj]
  · rcases lt_or_ge j quote.length with hlt | hge
    · simp [hlt, charAt]
    · simp [hge]
  · simp [hj.ne, hj.not_gt, Nat.not_lt.mpr (Nat.succ_le_of_lt hj)]

theorem lt_length_of_charAt_ne_zero (h : charAt quote i ≠ 0) : i < quote.length := by
  by_contra hge
  exact h (List.getD_eq_default _ _ (Nat.le_of_not_lt hge))

theorem length_le_of_charAt_eq_zero (hzero : 0 ∉ quote) (h : charAt quote i = 0) :
    quote.length ≤ i := by
  by_contra hlt
  rw [charAt, List.getD_eq_getElem _ _ (Nat.lt_of_not_le hlt)] at h
  exact hzero (h ▸ List.getElem_mem _)

/-- Reading stops at the first character that is 0. -/
theorem takeWhile_eq_take (hfront : ∀ c ∈ quote.take i, c ≠ 0) (hstop : charAt quote i = 0) :
    quote.takeWhile (· ≠ 0) = quote.take i := by
  induction quote generalizing i with
  | nil => simp
  | cons c quote ih =>
    cases i with
    | zero =>
      have hc : c = 0 := hstop
      simp [hc]
    | succ i =>
      rw [List.take_succ_cons] at hfront ⊢
      have hc : c ≠ 0 := hfront c List.mem_cons_self
      rw [List.takeWhile_cons_of_pos (by simpa using hc)]
      congr 1
      exact ih (fun c hc ↦ hfront c (List.mem_cons_of_mem _ hc)) hstop

/-! ## The threads -/

/-- Where a thread stands: in its loop, at its two semaphore calls, or in `printf`. -/
inductive Pc
  | modify (i : ℕ)
  | post
  | wait
  | print (i : ℕ)
  | done
  deriving DecidableEq

/-- The thread `false` is `modifyA_printB`, the thread `true` is `modifyB_printA`; the quote and
the semaphore of a thread have its name.  `line` is what its `printf` has read so far. -/
structure State where
  quote : Bool → List UInt8
  sem : Bool → ℕ
  pc : Bool → Pc
  line : Bool → List UInt8
  stdout : List UInt8

def start (quotes : Bool → List UInt8) : State where
  quote := quotes
  sem _ := 0
  pc _ := .modify 0
  line _ := []
  stdout := []

def caption : Bool → List UInt8
  | false => "quote_B:\t".toUTF8.toList
  | true => "quote_A:\t".toUTF8.toList

namespace State

def setPc (s : State) (t : Bool) (pc : Pc) : State := { s with pc := Function.update s.pc t pc }

/-- One step of a thread; `none` when it is blocked or has returned. -/
def step (s : State) (t : Bool) : Option State :=
  match s.pc t with
  | .modify i =>
      let c := charAt (s.quote t) i
      if c = 0 then some (s.setPc t .post)
      else some ({ s with
        quote := Function.update s.quote t ((s.quote t).set i (c - 1)) }.setPc t (.modify (i + 1)))
  | .post => some ({ s with sem := Function.update s.sem t (s.sem t + 1) }.setPc t .wait)
  | .wait =>
      if s.sem (!t) = 0 then none
      else some ({ s with sem := Function.update s.sem (!t) (s.sem (!t) - 1) }.setPc t (.print 0))
  | .print i =>
      let c := charAt (s.quote (!t)) i
      if c = 0 then
        some ({ s with stdout := s.stdout ++ (caption t ++ s.line t ++ [10]) }.setPc t .done)
      else some ({ s with
        line := Function.update s.line t (s.line t ++ [c]) }.setPc t (.print (i + 1)))
  | .done => none

end State

/-- The line that a thread should print. -/
def lineOf (quotes : Bool → List UInt8) (t : Bool) : List UInt8 :=
  caption t ++ (decoded (quotes !t)).takeWhile (· ≠ 0) ++ [10]

/-! ## The invariant -/

namespace Pc

/-- The characters that the thread has decoded. -/
def reached (length : ℕ) : Pc → ℕ
  | .modify i => i
  | _ => length

def posted : Pc → ℕ
  | .modify _ | .post => 0
  | _ => 1

def passed : Pc → ℕ
  | .print _ | .done => 1
  | _ => 0

def isDone : Pc → Bool
  | .done => true
  | _ => false

end Pc

/-- What is printed when the threads `false` and `true` are done or not. -/
def output (quotes : Bool → List UInt8) (stdout : List UInt8) : Bool → Bool → Prop
  | true, true => stdout = lineOf quotes false ++ lineOf quotes true ∨
      stdout = lineOf quotes true ++ lineOf quotes false
  | true, false => stdout = lineOf quotes false
  | false, true => stdout = lineOf quotes true
  | false, false => stdout = []

/-- What `printf` knows of the characters that it has read. -/
structure Prints (quote line : List UInt8) (i : ℕ) : Prop where
  line_eq : line = (decoded quote).take i
  le : i ≤ quote.length
  ne_zero : ∀ c ∈ line, c ≠ 0

structure Inv (quotes : Bool → List UInt8) (s : State) : Prop where
  quote : ∀ t, s.quote t = decodedTo ((s.pc t).reached (quotes t).length) (quotes t)
  reached : ∀ t, (s.pc t).reached (quotes t).length ≤ (quotes t).length
  sem : ∀ t, s.sem t + (s.pc !t).passed = (s.pc t).posted
  prints : ∀ t i, s.pc t = .print i → Prints (quotes !t) (s.line t) i
  fresh : ∀ t, (s.pc t).passed = 0 → s.line t = []
  stdout : output quotes s.stdout (s.pc false).isDone (s.pc true).isDone

variable {quotes : Bool → List UInt8} {s s' : State} {t : Bool}

namespace Inv

theorem init : Inv quotes (start quotes) where
  quote _ := decodedTo_zero.symm
  reached _ := Nat.zero_le _
  sem _ := rfl
  prints _ _ h := by cases h
  fresh _ _ := rfl
  stdout := rfl

/-- Who has passed the other's semaphore finds the other's quote decoded. -/
theorem quote_eq (h : Inv quotes s) (ht : (s.pc t).passed = 1) :
    s.quote (!t) = decoded (quotes !t) ∧ (s.pc !t).posted = 1 := by
  have hsem := h.sem (!t)
  have hquote := h.quote (!t)
  rw [Bool.not_not, ht] at hsem
  cases hpc : s.pc (!t) with
  | modify i => simp [hpc, Pc.posted] at hsem
  | post => simp [hpc, Pc.posted] at hsem
  | _ =>
    rw [hpc] at hquote
    exact ⟨hquote.trans (decodedTo_of_length_le le_rfl), rfl⟩

/-- A step of `t` is judged by what it does to `t`, to the other and to the output. -/
theorem of_step (h : Inv quotes s) (pc : Pc) (hpc : s'.pc = Function.update s.pc t pc)
    (hquote : s'.quote t = decodedTo (pc.reached (quotes t).length) (quotes t))
    (hquotes : s'.quote (!t) = s.quote (!t))
    (hreached : pc.reached (quotes t).length ≤ (quotes t).length)
    (hsem : s'.sem t + (s.pc !t).passed = pc.posted)
    (hsems : s'.sem (!t) + pc.passed = (s.pc !t).posted)
    (hprints : ∀ i, pc = .print i → Prints (quotes !t) (s'.line t) i)
    (hfresh : pc.passed = 0 → s'.line t = [])
    (hlines : s'.line (!t) = s.line (!t))
    (hstdout : output quotes s'.stdout (s'.pc false).isDone (s'.pc true).isDone) :
    Inv quotes s' := by
  have hself : s'.pc t = pc := by rw [hpc, Function.update_self]
  have hother : s'.pc (!t) = s.pc (!t) := by
    rw [hpc, Function.update_of_ne (by cases t <;> simp)]
  have hcases : ∀ u, u = t ∨ u = !t := by
    intro u
    cases u <;> cases t <;> simp
  refine ⟨?_, ?_, ?_, ?_, ?_, hstdout⟩
  · intro u
    rcases hcases u with rfl | rfl
    · rw [hself, hquote]
    · rw [hother, hquotes, h.quote]
  · intro u
    rcases hcases u with rfl | rfl
    · rw [hself]
      exact hreached
    · rw [hother]
      exact h.reached _
  · intro u
    rcases hcases u with rfl | rfl
    · rw [hself, hother]
      exact hsem
    · rw [Bool.not_not, hself, hother]
      exact hsems
  · intro u i hu
    rcases hcases u with rfl | rfl
    · exact hprints i (hself.symm.trans hu)
    · rw [hlines]
      exact h.prints _ i (hother.symm.trans hu)
  · intro u hu
    rcases hcases u with rfl | rfl
    · exact hfresh (hself ▸ hu)
    · rw [hlines]
      exact h.fresh _ (hother ▸ hu)

theorem output_setPc {pc : Pc} (h : Inv quotes s) (hpc : pc.isDone = (s.pc t).isDone) :
    output quotes s.stdout (Function.update s.pc t pc false).isDone
      (Function.update s.pc t pc true).isDone := by
  have hsame : ∀ u, (Function.update s.pc t pc u).isDone = (s.pc u).isDone := by
    intro u
    rcases eq_or_ne u t with rfl | hne
    · rw [Function.update_self, hpc]
    · rw [Function.update_of_ne hne]
  rw [hsame, hsame]
  exact h.stdout

theorem modify {i : ℕ} (h : Inv quotes s) (hzero : 0 ∉ quotes t) (hpc : s.pc t = .modify i)
    (hstep : s.step t = some s') : Inv quotes s' := by
  have hquote := h.quote t
  have hsem := h.sem t
  have hsems := h.sem (!t)
  have hfresh := h.fresh t
  rw [hpc] at hquote hsem hfresh
  rw [Bool.not_not, hpc] at hsems
  have hchar : charAt (s.quote t) i = charAt (quotes t) i := by
    rw [hquote]
    exact charAt_decodedTo
  simp only [State.step, hpc, hchar] at hstep
  split at hstep
  · obtain rfl := Option.some.inj hstep
    have hend : (quotes t).length ≤ i := length_le_of_charAt_eq_zero hzero ‹_›
    have hdecoded : s.quote t = decodedTo (quotes t).length (quotes t) := by
      rw [decodedTo_of_length_le le_rfl, ← decodedTo_of_length_le hend]
      exact hquote
    exact h.of_step .post rfl hdecoded rfl le_rfl hsem hsems (by simp) hfresh rfl
      (h.output_setPc (by rw [hpc]; rfl))
  · obtain rfl := Option.some.inj hstep
    have hlt : i < (quotes t).length := lt_length_of_charAt_ne_zero ‹_›
    refine h.of_step (.modify (i + 1)) rfl ?_ ?_ hlt hsem hsems (by simp) hfresh rfl
      (h.output_setPc (by rw [hpc]; rfl))
    · simp only [State.setPc, Function.update_self]
      rw [hquote]
      exact set_decodedTo
    · simp [State.setPc]

theorem post (h : Inv quotes s) (hpc : s.pc t = .post) (hstep : s.step t = some s') :
    Inv quotes s' := by
  have hquote := h.quote t
  have hsem := h.sem t
  have hsems := h.sem (!t)
  have hfresh := h.fresh t
  rw [hpc] at hquote hsem hfresh
  rw [Bool.not_not, hpc] at hsems
  simp only [State.step, hpc] at hstep
  obtain rfl := Option.some.inj hstep
  refine h.of_step .wait rfl hquote rfl le_rfl ?_ ?_ (by simp) hfresh rfl
    (h.output_setPc (by rw [hpc]; rfl))
  · simp only [State.setPc, Function.update_self, Pc.posted] at hsem ⊢
    omega
  · simp only [State.setPc, ne_eq, Bool.not_eq_self, not_false_iff, Function.update_of_ne]
    exact hsems

theorem wait (h : Inv quotes s) (hpc : s.pc t = .wait) (hstep : s.step t = some s') :
    Inv quotes s' := by
  have hquote := h.quote t
  have hsem := h.sem t
  have hsems := h.sem (!t)
  have hfresh := h.fresh t
  rw [hpc] at hquote hsem hfresh
  rw [Bool.not_not, hpc] at hsems
  simp only [State.step, hpc] at hstep
  split at hstep
  · cases hstep
  · obtain rfl := Option.some.inj hstep
    have hline : s.line t = [] := hfresh rfl
    refine h.of_step (.print 0) rfl hquote rfl le_rfl ?_ ?_ ?_ (by simp [Pc.passed]) rfl
      (h.output_setPc (by rw [hpc]; rfl))
    · simp only [State.setPc, ne_eq, Bool.eq_not_self, not_false_iff, Function.update_of_ne]
      exact hsem
    · simp only [State.setPc, Function.update_self, Pc.passed] at hsems ⊢
      omega
    · rintro _ ⟨⟩
      refine ⟨?_, Nat.zero_le _, ?_⟩ <;> simp [State.setPc, hline]

theorem print {i : ℕ} (h : Inv quotes s) (hpc : s.pc t = .print i)
    (hstep : s.step t = some s') : Inv quotes s' := by
  have hquote := h.quote t
  have hsem := h.sem t
  have hsems := h.sem (!t)
  rw [hpc] at hquote hsem
  rw [Bool.not_not, hpc] at hsems
  obtain ⟨hother, -⟩ := h.quote_eq (t := t) (by rw [hpc]; rfl)
  obtain ⟨hline, hle, hne⟩ := h.prints t i hpc
  simp only [State.step, hpc, hother] at hstep
  split at hstep
  · obtain rfl := Option.some.inj hstep
    have hprinted : caption t ++ s.line t ++ [10] = lineOf quotes t := by
      rw [lineOf, hline, takeWhile_eq_take (hline ▸ hne) ‹_›]
    refine h.of_step .done rfl hquote rfl le_rfl hsem hsems (by simp) (by simp [Pc.passed])
      rfl ?_
    simp only [State.setPc, hprinted]
    have hself : (s.pc t).isDone = false := by rw [hpc]; rfl
    have hstdout := h.stdout
    cases t with
    | false =>
      rw [hself] at hstdout
      rw [Function.update_self, Function.update_of_ne (by decide)]
      cases hdone : (s.pc true).isDone with
      | false =>
        rw [hdone] at hstdout
        have hnil : s.stdout = [] := hstdout
        rw [hnil]
        exact List.nil_append _
      | true =>
        rw [hdone] at hstdout
        have hfirst : s.stdout = lineOf quotes true := hstdout
        rw [hfirst]
        exact .inr rfl
    | true =>
      rw [hself] at hstdout
      rw [Function.update_self, Function.update_of_ne (by decide)]
      cases hdone : (s.pc false).isDone with
      | false =>
        rw [hdone] at hstdout
        have hnil : s.stdout = [] := hstdout
        rw [hnil]
        exact List.nil_append _
      | true =>
        rw [hdone] at hstdout
        have hfirst : s.stdout = lineOf quotes false := hstdout
        rw [hfirst]
        exact .inl rfl
  · obtain rfl := Option.some.inj hstep
    have hlt : i < (decoded (quotes !t)).length := lt_length_of_charAt_ne_zero ‹_›
    have hget : charAt (decoded (quotes !t)) i = (decoded (quotes !t))[i] :=
      List.getD_eq_getElem _ _ hlt
    refine h.of_step (.print (i + 1)) rfl hquote rfl le_rfl hsem hsems ?_ (by simp [Pc.passed])
      ?_ (h.output_setPc (by rw [hpc]; rfl))
    · rintro _ ⟨⟩
      refine ⟨?_, ?_, ?_⟩
      · simp only [State.setPc, Function.update_self, hline, hget]
        exact (List.take_succ_eq_append_getElem hlt).symm
      · simpa [decoded] using hlt
      · simp only [State.setPc, Function.update_self]
        intro c hc
        rcases List.mem_append.mp hc with hc | hc
        · exact hne c hc
        · obtain rfl := List.mem_singleton.mp hc
          assumption
    · simp [State.setPc]

theorem step (h : Inv quotes s) (hzero : ∀ t, 0 ∉ quotes t) (hstep : s.step t = some s') :
    Inv quotes s' := by
  cases hpc : s.pc t with
  | modify i => exact h.modify (hzero t) hpc hstep
  | post => exact h.post hpc hstep
  | wait => exact h.wait hpc hstep
  | print i => exact h.print hpc hstep
  | done => simp [State.step, hpc] at hstep

end Inv

/-! ## Progress -/

theorem exists_step_of_ne (hwait : s.pc t ≠ .wait) (hdone : s.pc t ≠ .done) :
    ∃ s', s.step t = some s' := by
  cases hpc : s.pc t with
  | modify i =>
    simp only [State.step, hpc]
    split <;> exact ⟨_, rfl⟩
  | post => exact ⟨_, by simp only [State.step, hpc]; rfl⟩
  | wait => exact absurd hpc hwait
  | print i =>
    simp only [State.step, hpc]
    split <;> exact ⟨_, rfl⟩
  | done => exact absurd hpc hdone

/-- Who cannot pass the other's semaphore waits for a thread that has not posted it yet. -/
theorem Inv.exists_step (h : Inv quotes s) (ht : s.pc t ≠ .done) :
    ∃ u s', s.step u = some s' := by
  by_cases hwait : s.pc t = .wait
  · by_cases hsem : s.sem (!t) = 0
    · have hcount := h.sem (!t)
      rw [Bool.not_not, hwait, hsem] at hcount
      refine ⟨!t, exists_step_of_ne ?_ ?_⟩ <;>
        · intro hpc
          rw [hpc] at hcount
          cases hcount
    · exact ⟨t, _, by simp only [State.step, hwait, if_neg hsem]; rfl⟩
  · exact ⟨t, exists_step_of_ne hwait ht⟩

/-- The most steps that a thread has still to make. -/
def rest (quotes : Bool → List UInt8) (t : Bool) : Pc → ℕ
  | .modify i => (quotes t).length - i + (quotes !t).length + 4
  | .post => (quotes !t).length + 3
  | .wait => (quotes !t).length + 2
  | .print i => (quotes !t).length - i + 1
  | .done => 0

theorem Inv.step_pc (h : Inv quotes s) (hstep : s.step t = some s') :
    ∃ pc, s'.pc = Function.update s.pc t pc ∧ rest quotes t pc < rest quotes t (s.pc t) := by
  cases hpc : s.pc t with
  | modify i =>
    have hchar : charAt (s.quote t) i = charAt (quotes t) i := by
      rw [h.quote t, hpc]
      exact charAt_decodedTo
    simp only [State.step, hpc, hchar] at hstep
    split at hstep
    · obtain rfl := Option.some.inj hstep
      exact ⟨.post, rfl, by simp only [rest]; omega⟩
    · obtain rfl := Option.some.inj hstep
      have hlt := lt_length_of_charAt_ne_zero ‹_›
      exact ⟨.modify (i + 1), rfl, by simp only [rest]; omega⟩
  | post =>
    simp only [State.step, hpc] at hstep
    obtain rfl := Option.some.inj hstep
    exact ⟨.wait, rfl, by simp only [rest]; omega⟩
  | wait =>
    simp only [State.step, hpc] at hstep
    split at hstep
    · cases hstep
    · obtain rfl := Option.some.inj hstep
      exact ⟨.print 0, rfl, by simp only [rest]; omega⟩
  | print i =>
    obtain ⟨hother, -⟩ := h.quote_eq (t := t) (by rw [hpc]; rfl)
    simp only [State.step, hpc, hother] at hstep
    split at hstep
    · obtain rfl := Option.some.inj hstep
      exact ⟨.done, rfl, by simp only [rest]; omega⟩
    · obtain rfl := Option.some.inj hstep
      have hlt : i < (decoded (quotes !t)).length := lt_length_of_charAt_ne_zero ‹_›
      simp only [decoded, List.length_map] at hlt
      exact ⟨.print (i + 1), rfl, by simp only [rest]; omega⟩
  | done => simp [State.step, hpc] at hstep

theorem Inv.rest_lt (h : Inv quotes s) (hstep : s.step t = some s') :
    rest quotes false (s'.pc false) + rest quotes true (s'.pc true) <
      rest quotes false (s.pc false) + rest quotes true (s.pc true) := by
  obtain ⟨pc, hpc, hlt⟩ := h.step_pc hstep
  rw [hpc]
  cases t with
  | false =>
    rw [Function.update_self, Function.update_of_ne (by decide)]
    omega
  | true =>
    rw [Function.update_self, Function.update_of_ne (by decide)]
    omega

/-- Two C strings are decoded and printed under every schedule: nothing is read while it may still
be written, some thread can go on until both have returned, they return after a bounded
number of steps, and then both decoded quotes have been printed, one line after the other. -/
theorem rendezvous_prints_decoded {schedule : List Bool} (hzero : ∀ t, 0 ∉ quotes t)
    (hrun : Run (StepOf State.step) (start quotes) schedule s) :
    (∀ t i, s.pc t = .print i → s.quote (!t) = decoded (quotes !t) ∧
      ∀ j, s.pc (!t) ≠ .modify j) ∧
    ((∃ t, s.pc t ≠ .done) → ∃ t s', s.step t = some s') ∧
    schedule.length ≤ 2 * ((quotes false).length + (quotes true).length) + 8 ∧
    ((∀ t, s.pc t = .done) → s.stdout = lineOf quotes false ++ lineOf quotes true ∨
      s.stdout = lineOf quotes true ++ lineOf quotes false) := by
  have h : Inv quotes s := hrun.invariant (fun _ _ _ h hstep ↦ h.step hzero hstep) .init
  refine ⟨fun t i hpc ↦ ?_, fun ⟨t, ht⟩ ↦ h.exists_step ht, ?_, fun hdone ↦ ?_⟩
  · obtain ⟨hquote, hposted⟩ := h.quote_eq (t := t) (by rw [hpc]; rfl)
    refine ⟨hquote, fun j hj ↦ ?_⟩
    rw [hj] at hposted
    cases hposted
  · have hlength := Run.length_le (I := Inv quotes)
      (μ := fun s ↦ rest quotes false (s.pc false) + rest quotes true (s.pc true))
      (fun _ _ _ h hstep ↦ h.step hzero hstep) (fun _ _ _ h hstep ↦ h.rest_lt hstep) hrun .init
    simp only [start, rest, Bool.not_false, Bool.not_true] at hlength
    omega
  · have hstdout := h.stdout
    rw [hdone, hdone] at hstdout
    exact hstdout

/-- The quotes `"B"` and `"b"`, one thread after the other where they need not take turns. -/
theorem rendezvous_prints_decoded_ab : ∃ s,
    Run (StepOf State.step) (start fun t ↦ if t then [99] else [66])
      [false, false, false, true, true, true, true, true, true, false, false, false] s ∧
    (s.stdout = caption false ++ [98] ++ [10] ++ (caption true ++ [65] ++ [10]) ∨
      s.stdout = caption true ++ [65] ++ [10] ++ (caption false ++ [98] ++ [10])) := by
  let quotes : Bool → List UInt8 := fun t ↦ if t then [99] else [66]
  have hexec : (execute State.step (start quotes)
      [false, false, false, true, true, true, true, true, true, false, false, false]).map
        (fun s ↦ (s.pc false, s.pc true)) = some (.done, .done) := by decide +kernel
  obtain ⟨s, hs, hpc⟩ := Option.map_eq_some_iff.mp hexec
  obtain ⟨hfalse, htrue⟩ := Prod.mk.inj hpc
  have hrun := Run.execute_eq_some_iff.mp hs
  have hlines := (rendezvous_prints_decoded (by decide) hrun).2.2.2
    fun t ↦ by cases t <;> assumption
  exact ⟨s, hrun, hlines⟩

end SystemProgramming.CriticalConcurrency.Rendezvous
