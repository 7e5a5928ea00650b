import Mathlib

/-!
# The first occurrence of a word in a text

The search returns the text before and behind the word.  A word does not reach over a
character that it does not contain.
-/

namespace SystemProgramming

variable {α : Type*} {word text front behind pre rest : List α} {b c : α}

/-- A word is a prefix of the text behind which it cannot go on. -/
theorem prefix_append_cons_iff (h : b ∉ word) : word <+: pre ++ b :: rest ↔ word <+: pre := by
  constructor
  · intro hpre
    by_cases hle : word.length ≤ pre.length
    · exact List.prefix_of_prefix_length_le hpre (List.prefix_append _ _) hle
    · have hlonger : pre ++ [b] <+: word := by
        refine List.prefix_of_prefix_length_le ?_ hpre (by simp; omega)
        exact ⟨rest, by simp⟩
      exact absurd (hlonger.subset (by simp)) h
  · exact fun hpre ↦ hpre.trans (List.prefix_append _ _)

theorem infix_append_cons_iff (h : b ∉ word) :
    word <:+: pre ++ b :: rest ↔ word <:+: pre ∨ word <:+: rest := by
  induction pre with
  | nil =>
      have hnil : word <+: [] ++ b :: rest ↔ word <+: [] := prefix_append_cons_iff h
      rw [List.nil_append] at hnil ⊢
      rw [List.infix_cons_iff, hnil, List.infix_nil, List.prefix_nil]
  | cons a pre ih =>
      rw [List.cons_append, List.infix_cons_iff, ← List.cons_append, prefix_append_cons_iff h, ih,
        List.infix_cons_iff, or_assoc]

/-- A word does not reach over a separator that shares no character with it. -/
theorem infix_append_append_iff {separator : List α} (hne : separator ≠ [])
    (h : ∀ b ∈ separator, b ∉ word) :
    word <:+: pre ++ separator ++ rest ↔ word <:+: pre ∨ word <:+: rest := by
  induction separator generalizing pre with
  | nil => exact absurd rfl hne
  | cons b separator ih =>
      have hb : b ∉ word := h b List.mem_cons_self
      rw [List.append_assoc, List.cons_append, infix_append_cons_iff hb]
      by_cases hnil : separator = []
      · rw [hnil, List.nil_append]
      · have hrest : word <:+: [] ++ separator ++ rest ↔ word <:+: [] ∨ word <:+: rest :=
          ih hnil fun c hc ↦ h c (List.mem_cons_of_mem b hc)
        have hleft : word <:+: [] → word <:+: pre := fun hin ↦ hin.trans List.nil_infix
        rw [List.nil_append] at hrest
        rw [hrest, ← or_assoc, or_iff_left_of_imp hleft]

variable [DecidableEq α]

/-- The text before and behind the first occurrence of a word. -/
def strstr (word : List α) : List α → Option (List α × List α)
  | [] => if word = [] then some ([], []) else none
  | c :: text =>
      if word.isPrefixOf (c :: text) then some ([], (c :: text).drop word.length)
      else (strstr word text).map fun (front, behind) ↦ (c :: front, behind)

theorem strstr_eq_some (h : strstr word text = some (front, behind)) :
    text = front ++ word ++ behind := by
  induction text generalizing front with
  | nil =>
      rw [strstr] at h
      split at h
      · cases h
        simp [*]
      · cases h
  | cons c text ih =>
      rw [strstr] at h
      split at h
      · rename_i hpre
        obtain ⟨rest, hrest⟩ := List.isPrefixOf_iff_prefix.mp hpre
        cases h
        rw [← hrest, List.drop_left, List.nil_append]
      · obtain ⟨⟨front', behind'⟩, hfound, heq⟩ := Option.map_eq_some_iff.mp h
        cases heq
        rw [ih hfound]
        rfl

/-- No other occurrence begins in front of the one that is found. -/
theorem length_le_of_strstr {front' behind' : List α} (h : strstr word text = some (front, behind))
    (htext : text = front' ++ word ++ behind') : front.length ≤ front'.length := by
  induction text generalizing front front' with
  | nil =>
      rw [strstr] at h
      split at h
      · cases h
        exact Nat.zero_le _
      · cases h
  | cons c text ih =>
      rw [strstr] at h
      split at h
      · cases h
        exact Nat.zero_le _
      · next hpre =>
        obtain ⟨⟨front, behind⟩, hfound, heq⟩ := Option.map_eq_some_iff.mp h
        cases heq
        cases front' with
        | nil =>
            rw [List.isPrefixOf_iff_prefix, htext, List.nil_append] at hpre
            exact absurd (List.prefix_append word behind') hpre
        | cons b front' =>
            rw [List.cons_append, List.cons_append, List.cons.injEq] at htext
            exact Nat.succ_le_succ (ih hfound htext.2)

theorem length_lt_of_strstr (hword : word ≠ []) (h : strstr word text = some (front, behind)) :
    front.length < text.length := by
  have hpos := List.length_pos_iff.mpr hword
  rw [strstr_eq_some h, List.length_append, List.length_append]
  omega

theorem isSome_strstr_iff : (strstr word text).isSome ↔ word <:+: text := by
  induction text with
  | nil =>
      rw [strstr, List.infix_nil]
      split <;> simp [*]
  | cons c text ih =>
      rw [strstr, List.infix_cons_iff, ← List.isPrefixOf_iff_prefix, ← ih]
      split <;> simp [*]

/-- A run of one character is found where a text ends that neither contains it nor ends with
that character. -/
theorem strstr_replicate {n : ℕ} (hword : ¬ List.replicate (n + 1) c <:+: front)
    (hlast : front.getLast? ≠ some c) :
    strstr (List.replicate (n + 1) c) (front ++ List.replicate (n + 1) c ++ behind) =
      some (front, behind) := by
  induction front with
  | nil =>
      rw [List.nil_append, List.replicate_succ, List.cons_append, strstr, if_pos]
      · simp
      · rw [List.isPrefixOf_iff_prefix]
        exact List.prefix_append (c :: List.replicate n c) behind
  | cons a front ih =>
      have hnot : ¬ List.replicate (n + 1) c <+:
          a :: (front ++ List.replicate (n + 1) c ++ behind) := by
        intro hpre
        have hfront : a :: front <+: a :: (front ++ List.replicate (n + 1) c ++ behind) :=
          ⟨List.replicate (n + 1) c ++ behind, by simp⟩
        rcases List.prefix_or_prefix_of_prefix hpre hfront with hin | hall
        · exact hword hin.isInfix
        · have hlast' : (a :: front).getLast (List.cons_ne_nil a front) = c :=
            List.eq_of_mem_replicate (hall.subset (List.getLast_mem _))
          rw [List.getLast?_eq_some_getLast (List.cons_ne_nil a front), hlast'] at hlast
          exact hlast rfl
      have hlast' : front.getLast? ≠ some c := by
        intro heq
        rw [List.getLast?_cons, heq] at hlast
        exact hlast rfl
      have hrest := ih (fun hin ↦ hword (List.infix_cons hin)) hlast'
      rw [List.cons_append, List.cons_append, strstr, if_neg, hrest, Option.map_some]
      rwa [List.isPrefixOf_iff_prefix]

end SystemProgramming
