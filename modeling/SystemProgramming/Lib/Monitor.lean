import SystemProgramming.Lib.Runs

/-!
# Monitors

Threads share a state that is guarded by one mutex, with one condition variable.  A critical
section is one step: it begins when the mutex is taken and ends when the mutex is released,
in a wait or for good.  A thread that is woken runs its section again from the test of the
waiting loop.
-/

namespace SystemProgramming.Monitor

variable {ι σ Λ κ ε : Type*}

/-- Where a thread stands: outside the mutex, about to take it, or asleep with no wake-up
pending. -/
inductive Pc (Λ κ : Type*)
  | out (l : Λ)
  | ready (k : κ)
  | asleep (k : κ)

/-- How a critical section ends. -/
inductive Exit (Λ κ : Type*)
  | wait (k : κ)
  | leave (l : Λ) (broadcast : Bool)

/-- The steps of a thread outside the mutex, which end outside it or at a section, and the
critical sections. -/
structure Program (σ Λ κ ε : Type*) where
  outside : σ → Λ → ε → Λ ⊕ κ → Prop
  critical : σ → κ → ε → σ → Exit Λ κ → Prop

structure State (ι σ Λ κ : Type*) where
  shared : σ
  pc : ι → Pc Λ κ

/-- A wake-up, which needs no reason, or a step of the program. -/
inductive Label (ι ε : Type*)
  | wake (t : ι)
  | act (t : ι) (e : ε)

def Pc.wake : Pc Λ κ → Pc Λ κ
  | .asleep k => .ready k
  | pc => pc

theorem Pc.wake_ne_asleep {pc : Pc Λ κ} {k : κ} : pc.wake ≠ .asleep k := by
  cases pc <;> simp [wake]

/-- The other threads when a section ends. -/
def Exit.others : Exit Λ κ → Pc Λ κ → Pc Λ κ
  | .leave _ true => Pc.wake
  | _ => id

/-- The thread itself when its section ends. -/
def Exit.pc : Exit Λ κ → Pc Λ κ
  | .wait k => .asleep k
  | .leave l _ => .out l

def Exit.Broadcasts (exit : Exit Λ κ) : Prop := ∃ l, exit = .leave l true

theorem Exit.others_of_not_broadcasts {exit : Exit Λ κ} (h : ¬ exit.Broadcasts) :
    exit.others = id := by
  cases exit with
  | wait k => rfl
  | leave l broadcast =>
    cases broadcast with
    | false => rfl
    | true => exact absurd ⟨l, rfl⟩ h

section

variable [DecidableEq ι]

def State.setPc (s : State ι σ Λ κ) (t : ι) (pc : Pc Λ κ) : State ι σ Λ κ :=
  { s with pc := Function.update s.pc t pc }

/-- The state after a section of the thread `t`. -/
def State.finish (s : State ι σ Λ κ) (t : ι) (shared : σ) (exit : Exit Λ κ) : State ι σ Λ κ :=
  ⟨shared, Function.update (fun u ↦ exit.others (s.pc u)) t exit.pc⟩

@[simp] theorem State.setPc_shared (s : State ι σ Λ κ) (t : ι) (pc : Pc Λ κ) :
    (s.setPc t pc).shared = s.shared := rfl

@[simp] theorem State.finish_shared (s : State ι σ Λ κ) (t : ι) (shared : σ) (exit : Exit Λ κ) :
    (s.finish t shared exit).shared = shared := rfl

theorem State.finish_of_not_broadcasts {s : State ι σ Λ κ} {t : ι} {exit : Exit Λ κ}
    (h : ¬ exit.Broadcasts) : s.finish t s.shared exit = s.setPc t exit.pc := by
  simp [finish, setPc, Exit.others_of_not_broadcasts h]

inductive Step (P : Program σ Λ κ ε) : State ι σ Λ κ → Label ι ε → State ι σ Λ κ → Prop
  | wake {s : State ι σ Λ κ} (t : ι) : Step P s (.wake t) (s.setPc t (s.pc t).wake)
  | outside {s : State ι σ Λ κ} {t : ι} {l : Λ} {e : ε} {next : Λ ⊕ κ} : s.pc t = .out l →
      P.outside s.shared l e next → Step P s (.act t e) (s.setPc t (next.elim .out .ready))
  | critical {s : State ι σ Λ κ} {t : ι} {k : κ} {e : ε} {shared : σ} {exit : Exit Λ κ} :
      s.pc t = .ready k → P.critical s.shared k e shared exit →
      Step P s (.act t e) (s.finish t shared exit)

variable {P : Program σ Λ κ ε} {s s' : State ι σ Λ κ} {es : List (Label ι ε)}

/-- An invariant of the shared state is kept by the critical sections. -/
theorem shared_invariant {I : σ → Prop}
    (hI : ∀ shared k e shared' exit, I shared → P.critical shared k e shared' exit → I shared')
    (hrun : Run (Step P) s es s') (hs : I s.shared) : I s'.shared := by
  refine hrun.invariant (I := fun s ↦ I s.shared) ?_ hs
  intro s e s' h hstep
  cases hstep with
  | wake => exact h
  | outside => exact h
  | critical _ hcritical => exact hI _ _ _ _ _ h hcritical

/-- No wake-up is lost: what a thread waits for has not happened, if every wait begins so and
the sections that end it broadcast. -/
theorem asleep_invariant {I : σ → Prop} {W : σ → κ → Prop}
    (hI : ∀ shared k e shared' exit, I shared → P.critical shared k e shared' exit → I shared')
    (hwait : ∀ shared k e shared' k', I shared → P.critical shared k e shared' (.wait k') →
      W shared' k')
    (hkeep : ∀ shared k e shared' exit, I shared → P.critical shared k e shared' exit →
      ¬ exit.Broadcasts → ∀ k₀, W shared k₀ → W shared' k₀)
    (hrun : Run (Step P) s es s') (hs : I s.shared)
    (hasleep : ∀ t k, s.pc t = .asleep k → W s.shared k) :
    ∀ t k, s'.pc t = .asleep k → W s'.shared k := by
  induction hrun with
  | nil => exact hasleep
  | @snoc s₁ s₂ es e hrun hlast ih =>
    have hs₁ : I s₁.shared := shared_invariant hI hrun hs
    cases hlast with
    | wake t =>
      intro u k hu
      rcases eq_or_ne u t with rfl | hne
      · exact absurd (by simpa [State.setPc] using hu) Pc.wake_ne_asleep
      · exact ih u k (by simpa [State.setPc, hne] using hu)
    | @outside t l e next ht hout =>
      intro u k hu
      rcases eq_or_ne u t with rfl | hne
      · cases next <;> simp [State.setPc] at hu
      · exact ih u k (by simpa [State.setPc, hne] using hu)
    | @critical t k₁ e shared exit ht hcritical =>
      intro u k hu
      rcases eq_or_ne u t with rfl | hne
      · cases exit with
        | leave l broadcast => simp [State.finish, Exit.pc] at hu
        | wait k' =>
          obtain rfl : k' = k := by simpa [State.finish, Exit.pc] using hu
          exact hwait _ _ _ _ _ hs₁ hcritical
      · have hu' : exit.others (s₁.pc u) = .asleep k := by
          simpa [State.finish, hne] using hu
        by_cases hb : exit.Broadcasts
        · obtain ⟨l, rfl⟩ := hb
          exact absurd hu' Pc.wake_ne_asleep
        · rw [Exit.others_of_not_broadcasts hb] at hu'
          exact hkeep _ _ _ _ _ hs₁ hcritical hb k (ih u k hu')

end

end SystemProgramming.Monitor
