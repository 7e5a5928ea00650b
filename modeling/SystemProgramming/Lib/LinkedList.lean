import Mathlib

/-!
# Linked lists in a heap

A heap of nodes is given by the link of every node.  A segment is the sequence of nodes
visited on the way from one link to another.
-/

namespace SystemProgramming

variable {α : Type*}

/-- The nodes `l` lie on the way from the link `p` to the link `q`.  Where no node is
stored, `next` is `none`; the link of the last node of a list is `some none`. -/
def Segment (next : α → Option (Option α)) : Option α → List α → Option α → Prop
  | p, [], q => p = q
  | p, a :: l, q => p = some a ∧ ∃ r, next a = some r ∧ Segment next r l q

namespace Segment

variable {next next' : α → Option (Option α)} {p q r : Option α} {l l' : List α} {a : α}

@[simp] theorem nil_iff : Segment next p [] q ↔ p = q := Iff.rfl

theorem cons_iff : Segment next p (a :: l) q ↔
    p = some a ∧ ∃ r, next a = some r ∧ Segment next r l q := Iff.rfl

theorem append_iff : Segment next p (l ++ l') q ↔
    ∃ r, Segment next p l r ∧ Segment next r l' q := by
  induction l generalizing p with
  | nil => simp
  | cons a l ih =>
    simp only [List.cons_append, cons_iff, ih]
    constructor
    · rintro ⟨hp, r, ha, s, hl, hl'⟩
      exact ⟨s, ⟨hp, r, ha, hl⟩, hl'⟩
    · rintro ⟨s, ⟨hp, r, ha, hl⟩, hl'⟩
      exact ⟨hp, r, ha, s, hl, hl'⟩

theorem snoc_iff : Segment next p (l ++ [a]) q ↔ Segment next p l (some a) ∧ next a = some q := by
  rw [append_iff]
  constructor
  · rintro ⟨r, hl, rfl, s, ha, rfl⟩
    exact ⟨hl, ha⟩
  · rintro ⟨hl, ha⟩
    exact ⟨some a, hl, rfl, q, ha, rfl⟩

/-- A segment only depends on the links of its nodes. -/
theorem congr (hsame : ∀ a ∈ l, next' a = next a) (h : Segment next p l q) :
    Segment next' p l q := by
  induction l generalizing p with
  | nil => exact h
  | cons a l ih =>
    obtain ⟨hp, r, ha, hl⟩ := h
    refine ⟨hp, r, ?_, ih (fun b hb ↦ hsame b (List.mem_cons_of_mem a hb)) hl⟩
    rw [hsame a List.mem_cons_self, ha]

theorem head?_eq (h : Segment next p l none) : p = l.head? := by
  cases l with
  | nil => exact h
  | cons a l => exact h.1

theorem isSome_of_mem (h : Segment next p l q) (ha : a ∈ l) : (next a).isSome := by
  induction l generalizing p with
  | nil => simp at ha
  | cons b l ih =>
    obtain ⟨-, r, hb, hl⟩ := h
    rcases List.mem_cons.mp ha with rfl | ha
    · simp [hb]
    · exact ih hl ha

/-- The list at a link is determined by the heap. -/
theorem unique (h : Segment next p l none) (h' : Segment next p l' none) : l = l' := by
  induction l generalizing p l' with
  | nil =>
    obtain rfl := h
    cases l' with
    | nil => rfl
    | cons a l' => exact absurd h'.1 (by simp)
  | cons a l ih =>
    obtain ⟨rfl, r, ha, hl⟩ := h
    cases l' with
    | nil => exact absurd h' (by simp)
    | cons b l' =>
      obtain ⟨hb, r', hb', hl'⟩ := h'
      obtain rfl := Option.some.inj hb
      obtain rfl := Option.some.inj (ha.symm.trans hb')
      rw [ih hl hl']

/-- A list that comes to an end visits no node twice. -/
theorem nodup (h : Segment next p l none) : l.Nodup := by
  induction l generalizing p with
  | nil => exact List.nodup_nil
  | cons a l ih =>
    have hall := h
    obtain ⟨-, r, ha, hl⟩ := h
    refine List.nodup_cons.mpr ⟨fun hmem ↦ ?_, ih hl⟩
    -- a second visit would give a shorter list at the same link
    obtain ⟨l₁, l₂, rfl⟩ := List.append_of_mem hmem
    obtain ⟨s, -, hs⟩ := append_iff.mp hl
    have htail : Segment next (some a) (a :: l₂) none := ⟨rfl, hs.2⟩
    obtain rfl := hall.1
    have hlen := congrArg List.length (unique hall htail)
    simp at hlen
    omega

/-- A node is taken out when the node before it is given its link. -/
theorem unlink {b : α} (h : Segment next p (l ++ b :: a :: l') none) (hb : next' b = next a)
    (hsame : ∀ c, c ≠ b → next' c = next c) : Segment next' p (l ++ b :: l') none := by
  have hnodup := h.nodup
  obtain ⟨s, hl, hs, r, -, -, u, ha, hl'⟩ := append_iff.mp h
  have hnot : b ∉ l := fun hmem ↦
    List.disjoint_of_nodup_append hnodup hmem List.mem_cons_self
  have hnot' : b ∉ l' := fun hmem ↦
    (List.nodup_cons.mp hnodup.of_append_right).1 (List.mem_cons_of_mem a hmem)
  refine append_iff.mpr ⟨s, hl.congr fun c hc ↦ hsame c ?_, hs, u, hb.trans ha,
    hl'.congr fun c hc ↦ hsame c ?_⟩
  · exact fun heq ↦ hnot (heq ▸ hc)
  · exact fun heq ↦ hnot' (heq ▸ hc)

end Segment

end SystemProgramming
