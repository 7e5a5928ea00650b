import SystemProgramming.Lib.Runs

/-!
# Taking turns

A queue whose head goes to the back after its turn, or leaves for good.
-/

namespace SystemProgramming.Rotation

variable {α : Type*}

/-- The turn of the head, which goes to the back or leaves. -/
inductive Turn (α : Type*)
  | back (x : α)
  | leave (x : α)
  deriving DecidableEq

def Turn.who : Turn α → α
  | .back x | .leave x => x

inductive Step : List α → Turn α → List α → Prop
  | back (x : α) (queue : List α) : Step (x :: queue) (.back x) (queue ++ [x])
  | leave (x : α) (queue : List α) : Step (x :: queue) (.leave x) queue

variable {queue queue' : List α} {turns : List (Turn α)}

theorem Step.nodup {turn : Turn α} (h : Step queue turn queue') (hnodup : queue.Nodup) :
    queue'.Nodup := by
  cases h with
  | back x queue => exact (List.perm_append_singleton x queue).nodup_iff.mpr hnodup
  | leave x => exact hnodup.of_cons

/-- Until everybody has had a turn the queue serves those who were in it, from the front. -/
theorem exists_append_of_length_le (hrun : Run Step queue turns queue')
    (hlength : turns.length ≤ queue.length) :
    ∃ behind, queue' = queue.drop turns.length ++ behind ∧
      turns.map Turn.who = queue.take turns.length := by
  induction hrun with
  | nil => exact ⟨[], by simp⟩
  | @snoc queue₁ queue₂ turns turn _ hlast ih =>
    rw [List.length_append, List.length_singleton] at hlength ⊢
    obtain ⟨behind, hqueue, hserved⟩ := ih (by omega)
    have hlt : turns.length < queue.length := by omega
    rw [List.drop_eq_getElem_cons hlt, List.cons_append] at hqueue
    have htake : (turns ++ [turn]).map Turn.who =
        queue.take turns.length ++ [turn.who] := by
      rw [List.map_append, hserved, List.map_singleton]
    rw [htake, List.take_succ_eq_append_getElem hlt]
    cases hlast with
    | back x rest =>
      obtain ⟨rfl, rfl⟩ := List.cons.inj hqueue
      exact ⟨behind ++ [queue[turns.length]], by rw [List.append_assoc], rfl⟩
    | leave x rest =>
      obtain ⟨rfl, rfl⟩ := List.cons.inj hqueue
      exact ⟨behind, rfl, rfl⟩

variable [DecidableEq α]

/-- The turns of `x` that it was back from. -/
def turnsOf (x : α) (turns : List (Turn α)) : ℕ := turns.count (.back x)

theorem turnsOf_snoc (x : α) (turn : Turn α) :
    turnsOf x (turns ++ [turn]) = turnsOf x turns + turnsOf x [turn] := List.count_append

/-- Those in front have had as many turns as each other, those behind one more. -/
structure Level (turns : List (Turn α)) (queue : List α) (n : ℕ) (front behind : List α) :
    Prop where
  queue_eq : queue = front ++ behind
  front_eq : ∀ x ∈ front, turnsOf x turns = n
  behind_eq : ∀ x ∈ behind, turnsOf x turns = n + 1

/-- A round begins when nobody is left in front. -/
theorem Level.exists_cons {n : ℕ} {front behind : List α} (h : Level turns queue n front behind)
    (hne : queue ≠ []) : ∃ n x front behind, Level turns queue n (x :: front) behind := by
  cases front with
  | cons x front => exact ⟨n, x, front, behind, h⟩
  | nil =>
    have hqueue := h.queue_eq
    cases behind with
    | nil => exact absurd hqueue hne
    | cons x behind => exact ⟨n + 1, x, behind, [], by simpa using hqueue, h.behind_eq, by simp⟩

theorem Level.step {turn : Turn α} {n : ℕ} {front behind : List α} (hnodup : queue.Nodup)
    (h : Level turns queue n front behind) (hstep : Step queue turn queue') :
    ∃ n front behind, Level (turns ++ [turn]) queue' n front behind := by
  have hne : queue ≠ [] := by
    cases hstep <;> simp
  obtain ⟨n, x, front, behind, hqueue, hfront, hbehind⟩ := h.exists_cons hne
  cases hstep with
  | back y rest =>
    obtain ⟨rfl, rfl⟩ := List.cons.inj hqueue
    have hother : ∀ z ∈ front ++ behind, turnsOf z (turns ++ [.back y]) = turnsOf z turns := by
      intro z hz
      have hzy : z ≠ y := by
        rintro rfl
        exact hnodup.notMem hz
      simp [turnsOf, hzy.symm]
    refine ⟨n, front, behind ++ [y], List.append_assoc front behind [y], ?_, ?_⟩
    · intro z hz
      rw [hother z (List.mem_append_left _ hz)]
      exact hfront z (List.mem_cons_of_mem _ hz)
    · intro z hz
      rcases List.mem_append.mp hz with hz | hz
      · rw [hother z (List.mem_append_right _ hz)]
        exact hbehind z hz
      · obtain rfl := List.mem_singleton.mp hz
        rw [turnsOf_snoc, hfront z List.mem_cons_self]
        simp [turnsOf]
  | leave y rest =>
    obtain ⟨rfl, rfl⟩ := List.cons.inj hqueue
    have hother (z : α) : turnsOf z (turns ++ [.leave y]) = turnsOf z turns := by
      simp [turnsOf]
    refine ⟨n, front, behind, rfl, ?_, ?_⟩
    · intro z hz
      rw [hother]
      exact hfront z (List.mem_cons_of_mem _ hz)
    · intro z hz
      rw [hother]
      exact hbehind z hz

/-- Nobody in the queue is more than one turn ahead of another. -/
theorem turnsOf_le (hnodup : queue.Nodup) (hrun : Run Step queue turns queue') {x y : α}
    (hx : x ∈ queue') (hy : y ∈ queue') : turnsOf x turns ≤ turnsOf y turns + 1 := by
  have hlevel : queue'.Nodup ∧ ∃ n front behind, Level turns queue' n front behind := by
    clear hx hy
    induction hrun with
    | nil => exact ⟨hnodup, 0, queue, [], by simp, by simp [turnsOf], by simp⟩
    | snoc _ hlast ih =>
      obtain ⟨hnodup', n, front, behind, h⟩ := ih
      exact ⟨hlast.nodup hnodup', h.step hnodup' hlast⟩
  obtain ⟨-, n, front, behind, h⟩ := hlevel
  have hturns : ∀ z ∈ queue', turnsOf z turns = n ∨ turnsOf z turns = n + 1 := by
    intro z hz
    rw [h.queue_eq] at hz
    exact (List.mem_append.mp hz).imp (h.front_eq z) (h.behind_eq z)
  have hx' := hturns x hx
  have hy' := hturns y hy
  omega

end SystemProgramming.Rotation
