import SystemProgramming.Lib.Runs

/-!
# Interleaved transactions in a serial order

Every label belongs to one of several clients, and a client goes through transactions, each
a few steps long.  Where all steps of a transaction but its last one can be moved behind the
steps of other clients, every run ends in the state of a run that takes the transactions one
after the other, in the order in which they were completed.
-/

namespace SystemProgramming

variable {σ ε ι : Type*} {s t u : σ} {es : List ε} {e f : ε}

/-! ## Steps that can be delayed -/

/-- A soft step may as well be taken after a step that is apart from it. -/
def MovesBehind (soft step : σ → ε → σ → Prop) (apart : ε → ε → Prop) : Prop :=
  ∀ ⦃s t u : σ⦄ ⦃e f : ε⦄, apart e f → soft s e t → step t f u →
    ∃ v, step s f v ∧ soft v e u

namespace MovesBehind

variable {soft step : σ → ε → σ → Prop} {apart : ε → ε → Prop}

theorem past (h : MovesBehind soft step apart) (hrun : Run soft s es t) (hstep : step t f u)
    (hapart : ∀ e ∈ es, apart e f) : ∃ v, step s f v ∧ Run soft v es u := by
  induction hrun generalizing u with
  | nil => exact ⟨u, hstep, Run.nil⟩
  | @snoc t t' es e _ hlast ih =>
    obtain ⟨v, hfirst, hsecond⟩ := h (hapart e (by simp)) hlast hstep
    obtain ⟨w, hmoved, hrest⟩ := ih hfirst fun e he ↦ hapart e (List.mem_append_left _ he)
    exact ⟨w, hmoved, hrest.snoc hsecond⟩

/-- The steps with `p` first, then the others. -/
theorem split (h : MovesBehind soft soft apart) (p : ε → Bool)
    (hp : ∀ e f, p e = false → p f = true → apart e f) (hrun : Run soft s es t) :
    ∃ v, Run soft s (es.filter p) v ∧ Run soft v (es.filter fun e ↦ !p e) t := by
  induction hrun with
  | nil => exact ⟨s, Run.nil, Run.nil⟩
  | @snoc t u es e _ hlast ih =>
    obtain ⟨v, hfirst, hrest⟩ := ih
    rw [List.filter_append, List.filter_append]
    cases hpe : p e with
    | false =>
      refine ⟨v, ?_, ?_⟩
      · simpa [hpe] using hfirst
      · simpa [hpe] using hrest.snoc hlast
    | true =>
      have hapart : ∀ e' ∈ es.filter fun e ↦ !p e, apart e' e := by
        intro e' he'
        apply hp e' e _ hpe
        simpa using (List.mem_filter.mp he').2
      obtain ⟨w, hmoved, hothers⟩ := h.past hrest hlast hapart
      refine ⟨w, ?_, ?_⟩
      · simpa [hpe] using hfirst.snoc hmoved
      · simpa [hpe] using hothers

end MovesBehind

/-! ## The serial order -/

/-- The transactions in the order in which they were completed, and the steps of those that
are not. -/
structure SerialLog (ε : Type*) where
  completed : List (List ε)
  pending : List ε

namespace SerialLog

variable [DecidableEq ι] (client : ε → ι) (complete : List ε → Bool)

def empty : SerialLog ε := ⟨[], []⟩

def serial (log : SerialLog ε) : List ε := log.completed.flatten ++ log.pending

def pendingOf (log : SerialLog ε) (i : ι) : List ε := log.pending.filter fun e ↦ client e = i

def add (log : SerialLog ε) (e : ε) : SerialLog ε :=
  let transaction := log.pendingOf client (client e) ++ [e]
  if complete transaction then
    { completed := log.completed ++ [transaction]
      pending := log.pending.filter fun f ↦ !decide (client f = client e) }
  else { log with pending := log.pending ++ [e] }

def ofEvents (es : List ε) : SerialLog ε := es.foldl (add client complete) empty

variable {client complete} {log : SerialLog ε} {i : ι}

theorem ofEvents_concat (es : List ε) (e : ε) :
    ofEvents client complete (es ++ [e]) = (ofEvents client complete es).add client complete e := by
  simp [ofEvents]

theorem add_of_complete (h : complete (log.pendingOf client (client e) ++ [e]) = true) :
    log.add client complete e =
      { completed := log.completed ++ [log.pendingOf client (client e) ++ [e]]
        pending := log.pending.filter fun f ↦ !decide (client f = client e) } := by
  simp only [add, h, if_true]

theorem add_of_incomplete (h : complete (log.pendingOf client (client e) ++ [e]) = false) :
    log.add client complete e = { log with pending := log.pending ++ [e] } := by
  simp [add, h]

theorem filter_others (h : client e ≠ i) (es : List ε) :
    ((es.filter fun f ↦ !decide (client f = client e)).filter fun f ↦ client f = i) =
      es.filter fun f ↦ client f = i := by
  rw [List.filter_filter]
  refine List.filter_congr fun f _ ↦ ?_
  by_cases hf : client f = i
  · simpa [hf] using fun heq : i = client e ↦ h heq.symm
  · simp [hf]

theorem filter_others_self (e : ε) (es : List ε) :
    ((es.filter fun f ↦ !decide (client f = client e)).filter
      fun f ↦ client f = client e) = [] := by
  rw [List.filter_filter]
  exact List.filter_eq_nil_iff.mpr fun f _ ↦ by simp

theorem client_of_mem_pendingOf (h : e ∈ log.pendingOf client i) : client e = i := by
  simpa using (List.mem_filter.mp h).2

/-- The log has the steps of each client in their order. -/
theorem serial_add (log : SerialLog ε) (e : ε) (i : ι) :
    ((log.add client complete e).serial.filter fun f ↦ client f = i) =
      log.serial.filter (fun f ↦ client f = i) ++ [e].filter fun f ↦ client f = i := by
  cases h : complete (log.pendingOf client (client e) ++ [e]) with
  | false =>
    rw [add_of_incomplete h]
    simp [serial]
  | true =>
    rw [add_of_complete h]
    by_cases hi : client e = i
    · subst hi
      simp [serial, pendingOf, List.filter_filter]
    · have hown : (log.pendingOf client (client e)).filter (fun f ↦ client f = i) = [] := by
        refine List.filter_eq_nil_iff.mpr fun f hf ↦ ?_
        rw [client_of_mem_pendingOf hf]
        simpa using hi
      simp only [serial, List.flatten_append, List.filter_append, filter_others hi]
      simp [hown, hi]

theorem serial_ofEvents (es : List ε) (i : ι) :
    ((ofEvents client complete es).serial.filter fun f ↦ client f = i) =
      es.filter fun f ↦ client f = i := by
  induction es using List.reverseRecOn with
  | nil => rfl
  | append_singleton es e ih => rw [ofEvents_concat, serial_add, ih, List.filter_append]

end SerialLog

/-! ## Runs in the serial order -/

/-- `own s i` says of a list that it is what the client `i` has done of a transaction.  Its
next step completes the transaction or is soft. -/
structure Transactional [DecidableEq ι] (soft step : σ → ε → σ → Prop) (client : ε → ι)
    (complete : List ε → Bool) (own : σ → ι → List ε → Prop)
    (transaction : List ε → Prop) : Prop where
  soft_behind_step : MovesBehind soft step fun e f ↦ client e ≠ client f
  soft_behind_soft : MovesBehind soft soft fun e f ↦ client e ≠ client f
  own_completed : ∀ {s t e es}, own s (client e) es → step s e t →
    complete (es ++ [e]) = true → own t (client e) [] ∧ transaction (es ++ [e])
  own_extended : ∀ {s t e es}, own s (client e) es → step s e t →
    complete (es ++ [e]) = false → soft s e t ∧ own t (client e) (es ++ [e])
  own_other : ∀ {s t e es i}, own s i es → step s e t → client e ≠ i → own t i es
  step_of_soft : ∀ {s t e}, soft s e t → step s e t

namespace Transactional

variable [DecidableEq ι] {soft step : σ → ε → σ → Prop} {client : ε → ι}
  {complete : List ε → Bool} {own : σ → ι → List ε → Prop} {transaction : List ε → Prop}

/-- The states of the log: the completed transactions lead to a state from which the pending
steps are all soft. -/
def Serialized (soft step : σ → ε → σ → Prop) (client : ε → ι) (own : σ → ι → List ε → Prop)
    (transaction : List ε → Prop) (s t : σ) (log : SerialLog ε) : Prop :=
  (∃ v, Run step s log.completed.flatten v ∧ Run soft v log.pending t) ∧
    (∀ i, own t i (log.pendingOf client i)) ∧ ∀ es ∈ log.completed, transaction es

theorem serialized_add (h : Transactional soft step client complete own transaction) {log : SerialLog ε}
    (hlog : Serialized soft step client own transaction s t log) (hstep : step t e u) :
    Serialized soft step client own transaction s u (log.add client complete e) := by
  obtain ⟨⟨v, hcompleted, hpending⟩, hown, hshape⟩ := hlog
  cases hcomplete : complete (log.pendingOf client (client e) ++ [e]) with
  | false =>
    obtain ⟨hsoft, hnew⟩ := h.own_extended (hown (client e)) hstep hcomplete
    rw [SerialLog.add_of_incomplete hcomplete]
    refine ⟨⟨v, hcompleted, hpending.snoc hsoft⟩, fun i ↦ ?_, hshape⟩
    by_cases hi : client e = i
    · subst hi
      simpa [SerialLog.pendingOf] using hnew
    · simpa [SerialLog.pendingOf, hi] using h.own_other (hown i) hstep hi
  | true =>
    -- the other clients' steps are delayed until the transaction is complete
    obtain ⟨w, hmine, hothers⟩ := h.soft_behind_soft.split (fun f ↦ client f = client e)
      (fun f g hf hg ↦ by simp_all) hpending
    obtain ⟨x, hlast, hrest⟩ := h.soft_behind_step.past hothers hstep fun f hf ↦ by
      simpa using (List.mem_filter.mp hf).2
    have htransaction : Run step v (log.pendingOf client (client e) ++ [e]) x :=
      (hmine.mono fun _ _ _ hsoft ↦ h.step_of_soft hsoft).snoc hlast
    obtain ⟨hfree, hnew⟩ := h.own_completed (hown (client e)) hstep hcomplete
    rw [SerialLog.add_of_complete hcomplete]
    refine ⟨⟨x, ?_, hrest⟩, fun i ↦ ?_, fun fs hfs ↦ ?_⟩
    · simpa using hcompleted.append htransaction
    · by_cases hi : client e = i
      · subst hi
        rw [SerialLog.pendingOf, SerialLog.filter_others_self]
        exact hfree
      · rw [SerialLog.pendingOf, SerialLog.filter_others hi]
        exact h.own_other (hown i) hstep hi
    · rcases List.mem_append.mp hfs with hold | hlast
      · exact hshape fs hold
      · rw [List.mem_singleton.mp hlast]
        exact hnew

/-- Every run leads where its log leads. -/
theorem serialized_of_run (h : Transactional soft step client complete own transaction)
    (hinit : ∀ i, own s i []) (hrun : Run step s es t) :
    Serialized soft step client own transaction s t (SerialLog.ofEvents client complete es) := by
  induction hrun with
  | nil => exact ⟨⟨s, Run.nil, Run.nil⟩, hinit, fun _ h ↦ absurd h List.not_mem_nil⟩
  | snoc _ hlast ih =>
    rw [SerialLog.ofEvents_concat]
    exact h.serialized_add ih hlast

end Transactional

end SystemProgramming
