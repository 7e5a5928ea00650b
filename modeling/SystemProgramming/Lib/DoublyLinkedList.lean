import SystemProgramming.Lib.LinkedList

/-!
# Doubly linked lists

A doubly linked list is given by the two links of every node.  The operations are stated for
any links that change at the right nodes, so that one update of a heap may serve several
lists.
-/

namespace SystemProgramming

variable {α : Type*}

/-- The members that stay when one is taken out of a list without repetition. -/
theorem mem_removed_iff {l l' : List α} {a b : α} (hnodup : (l ++ a :: l').Nodup) :
    b ∈ l ++ l' ↔ b ∈ l ++ a :: l' ∧ b ≠ a := by
  have ha : a ∉ l ++ l' := (List.nodup_cons.mp (List.nodup_middle.mp hnodup)).1
  simp only [List.mem_append, List.mem_cons] at ha ⊢
  constructor
  · intro hb
    refine ⟨hb.imp_right Or.inr, ?_⟩
    rintro rfl
    exact ha hb
  · rintro ⟨hb | rfl | hb, hne⟩
    · exact Or.inl hb
    · exact absurd rfl hne
    · exact Or.inr hb

/-- Taking a member out of a list does not lengthen what follows another one. -/
theorem exists_split_removed {l l' pre post : List α} {a b : α} (hne : b ≠ a)
    (h : l ++ a :: l' = pre ++ b :: post) :
    ∃ pre' post', l ++ l' = pre' ++ b :: post' ∧ post'.length ≤ post.length := by
  rcases List.append_eq_append_iff.mp h with ⟨m, rfl, hm⟩ | ⟨m, rfl, hm⟩
  · cases m with
    | nil => exact absurd (List.cons.inj hm).1.symm hne
    | cons x m =>
      obtain ⟨-, rfl⟩ := List.cons.inj hm
      exact ⟨l ++ m, post, by simp, le_rfl⟩
  · cases m with
    | nil => exact absurd (List.cons.inj hm).1 hne
    | cons x m =>
      obtain ⟨rfl, rfl⟩ := List.cons.inj hm
      exact ⟨pre, m ++ l', by simp, by simp⟩

/-- The nodes `l` are linked in both directions.  The list is entered at the link `q`, and
the first node points back to `p`. -/
def DoublyLinked (next prev : α → Option α) : Option α → Option α → List α → Prop
  | _, q, [] => q = none
  | p, q, a :: l => q = some a ∧ prev a = p ∧ DoublyLinked next prev (some a) (next a) l

namespace DoublyLinked

variable {next prev next' prev' : α → Option α} {p q : Option α} {l l' : List α} {a : α}

theorem segment (h : DoublyLinked next prev p q l) : Segment (fun a ↦ some (next a)) q l none := by
  induction l generalizing p q with
  | nil => exact h
  | cons a l ih =>
    obtain ⟨hq, -, htail⟩ := h
    exact ⟨hq, next a, rfl, ih htail⟩

theorem nodup (h : DoublyLinked next prev p q l) : l.Nodup := h.segment.nodup

theorem head?_eq (h : DoublyLinked next prev p q l) : q = l.head? := h.segment.head?_eq

theorem congr (h : DoublyLinked next prev p q l) (hnext : ∀ a ∈ l, next' a = next a)
    (hprev : ∀ a ∈ l, prev' a = prev a) : DoublyLinked next' prev' p q l := by
  induction l generalizing p q with
  | nil => exact h
  | cons a l ih =>
    obtain ⟨hq, hp, htail⟩ := h
    refine ⟨hq, (hprev a List.mem_cons_self).trans hp, ?_⟩
    rw [hnext a List.mem_cons_self]
    exact ih htail (fun b hb ↦ hnext b (List.mem_cons_of_mem a hb))
      fun b hb ↦ hprev b (List.mem_cons_of_mem a hb)

theorem next_eq (h : DoublyLinked next prev p q (l ++ a :: l')) : next a = l'.head? := by
  induction l generalizing p q with
  | nil => exact h.2.2.head?_eq
  | cons b l ih => exact ih h.2.2

theorem prev_eq (h : DoublyLinked next prev p q (l ++ a :: l')) :
    prev a = l.getLast?.or p := by
  induction l generalizing p q with
  | nil => exact h.2.1
  | cons b l ih =>
    rw [ih h.2.2, List.getLast?_cons]
    cases l.getLast? <;> rfl

theorem exists_prev_eq (h : DoublyLinked next prev p q (l ++ a :: l')) (hl : l ≠ []) :
    ∃ b ∈ l, prev a = some b := by
  refine ⟨l.getLast hl, List.getLast_mem hl, ?_⟩
  rw [h.prev_eq, List.getLast?_eq_some_getLast hl]
  rfl

/-- A new node in front of the list. -/
theorem push [DecidableEq α] (h : DoublyLinked next prev none q l) (hnext : next' a = q)
    (hprev : prev' a = none) (hsame : ∀ b ∈ l, next' b = next b)
    (hback : ∀ b ∈ l, prev' b = if q = some b then some a else prev b) :
    DoublyLinked next' prev' none (some a) (a :: l) := by
  refine ⟨rfl, hprev, ?_⟩
  rw [hnext]
  cases l with
  | nil => exact h
  | cons b l =>
    have hnodup := h.nodup
    obtain ⟨rfl, -, htail⟩ := h
    refine ⟨rfl, (hback b List.mem_cons_self).trans (if_pos rfl), ?_⟩
    rw [hsame b List.mem_cons_self]
    refine htail.congr (fun c hc ↦ hsame c (List.mem_cons_of_mem b hc)) fun c hc ↦ ?_
    rw [hback c (List.mem_cons_of_mem b hc), if_neg]
    rintro ⟨⟩
    exact (List.nodup_cons.mp hnodup).1 hc

/-- The neighbours of a node are linked to each other. -/
theorem remove [DecidableEq α] (h : DoublyLinked next prev p q (l ++ a :: l'))
    (hp : ∀ b, p = some b → b ∉ l ++ a :: l')
    (hnext : ∀ b ∈ l ++ l', next' b = if prev a = some b then next a else next b)
    (hprev : ∀ b ∈ l ++ l', prev' b = if next a = some b then prev a else prev b) :
    DoublyLinked next' prev' p (if prev a = p then next a else q) (l ++ l') := by
  have hnodup := h.nodup
  induction l generalizing p q with
  | nil =>
    obtain ⟨-, hpa, htail⟩ := h
    rw [if_pos hpa, List.nil_append]
    have hother : ∀ b ∈ l', next' b = next b := by
      intro b hb
      rw [hnext b hb, if_neg]
      intro heq
      exact hp b (hpa ▸ heq) (List.mem_cons_of_mem a hb)
    cases l' with
    | nil => exact htail
    | cons c l' =>
      obtain ⟨hc, -, htail⟩ := htail
      refine ⟨hc, (hprev c List.mem_cons_self).trans (by rw [if_pos hc, hpa]), ?_⟩
      rw [hother c List.mem_cons_self]
      refine htail.congr (fun b hb ↦ hother b (List.mem_cons_of_mem c hb)) fun b hb ↦ ?_
      rw [hprev b (List.mem_cons_of_mem c hb), if_neg]
      intro heq
      obtain rfl := Option.some.inj (hc.symm.trans heq)
      simp [hb] at hnodup
  | cons x l ih =>
    obtain ⟨y, hy, hya⟩ := h.exists_prev_eq (List.cons_ne_nil x l)
    have hpa : prev a ≠ p := by
      rintro heq
      exact hp y (heq ▸ hya) (List.mem_append_left _ hy)
    have hnext_a := h.next_eq
    rw [if_neg hpa]
    obtain ⟨hq, hpx, htail⟩ := h
    obtain ⟨hx, hrest⟩ := List.nodup_cons.mp hnodup
    have hx' : next a ≠ some x := by
      intro heq
      rw [hnext_a] at heq
      exact hx (List.mem_append_right _ (List.mem_cons_of_mem a (List.mem_of_mem_head? heq)))
    refine ⟨hq, (hprev x List.mem_cons_self).trans (by rw [if_neg hx', hpx]), ?_⟩
    rw [hnext x List.mem_cons_self]
    refine ih htail ?_ (fun b hb ↦ hnext b (List.mem_cons_of_mem x hb))
      (fun b hb ↦ hprev b (List.mem_cons_of_mem x hb)) hrest
    rintro b ⟨⟩
    exact hx

end DoublyLinked

end SystemProgramming
