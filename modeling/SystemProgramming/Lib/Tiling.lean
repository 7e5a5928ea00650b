import Mathlib

/-!
# Tilings of an interval

A list of positions tiles an interval where every position begins where the length of the one
before it ends.  Two neighbours may be merged, and the last position may be dropped.
-/

namespace SystemProgramming

/-- The tiles `l`, whose lengths are given by `len`, lie one behind another from `a` to `e`. -/
def Tiles (len : ℕ → ℕ) : ℕ → List ℕ → ℕ → Prop
  | a, [], e => a = e
  | a, h :: l, e => h = a ∧ Tiles len (a + len a) l e

namespace Tiles

variable {len len' : ℕ → ℕ} {a b e h k : ℕ} {l l' : List ℕ}

@[simp] theorem nil_iff : Tiles len a [] e ↔ a = e := Iff.rfl

theorem cons_iff : Tiles len a (h :: l) e ↔ h = a ∧ Tiles len (a + len a) l e := Iff.rfl

theorem append_iff : Tiles len a (l ++ l') e ↔ ∃ b, Tiles len a l b ∧ Tiles len b l' e := by
  induction l generalizing a with
  | nil => simp
  | cons h l ih =>
    simp only [List.cons_append, cons_iff, ih]
    constructor
    · rintro ⟨rfl, b, hl, hl'⟩
      exact ⟨b, ⟨rfl, hl⟩, hl'⟩
    · rintro ⟨b, ⟨rfl, hl⟩, hl'⟩
      exact ⟨rfl, b, hl, hl'⟩

theorem snoc_iff : Tiles len a (l ++ [h]) e ↔ Tiles len a l h ∧ h + len h = e := by
  rw [append_iff]
  constructor
  · rintro ⟨b, hl, rfl, rfl⟩
    exact ⟨hl, rfl⟩
  · rintro ⟨hl, rfl⟩
    exact ⟨h, hl, rfl, rfl⟩

theorem congr (ht : Tiles len a l e) (hlen : ∀ h ∈ l, len' h = len h) : Tiles len' a l e := by
  induction l generalizing a with
  | nil => exact ht
  | cons h l ih =>
    obtain ⟨rfl, htail⟩ := ht
    refine ⟨rfl, ?_⟩
    rw [hlen h List.mem_cons_self]
    exact ih htail fun k hk ↦ hlen k (List.mem_cons_of_mem h hk)

theorem le (ht : Tiles len a l e) : a ≤ e := by
  induction l generalizing a with
  | nil => exact ht.le
  | cons h l ih => exact (Nat.le_add_right a (len a)).trans (ih ht.2)

theorem bounds (ht : Tiles len a l e) (hh : h ∈ l) : a ≤ h ∧ h + len h ≤ e := by
  obtain ⟨xs, ys, rfl⟩ := List.append_of_mem hh
  obtain ⟨b, hxs, rfl, hys⟩ := append_iff.mp ht
  exact ⟨hxs.le, hys.le⟩

/-- Different tiles do not overlap. -/
theorem separate (ht : Tiles len a l e) (hh : h ∈ l) (hk : k ∈ l) (hne : h ≠ k) :
    h + len h ≤ k ∨ k + len k ≤ h := by
  obtain ⟨xs, ys, rfl⟩ := List.append_of_mem hh
  obtain ⟨b, hxs, rfl, hys⟩ := append_iff.mp ht
  rcases List.mem_append.mp hk with hk | hk
  · exact Or.inr (hxs.bounds hk).2
  · rcases List.mem_cons.mp hk with heq | hk
    · exact absurd heq.symm hne
    · exact Or.inl (hys.bounds hk).1

theorem nodup (ht : Tiles len a l e) (hpos : ∀ h ∈ l, 0 < len h) : l.Nodup := by
  induction l generalizing a with
  | nil => exact List.nodup_nil
  | cons h l ih =>
    obtain ⟨rfl, htail⟩ := ht
    refine List.nodup_cons.mpr ⟨fun hh ↦ ?_, ih htail fun k hk ↦ hpos k (List.mem_cons_of_mem h hk)⟩
    have hle := (htail.bounds hh).1
    have hlt := hpos h List.mem_cons_self
    omega

/-- Behind a tile stands the next one or the end. -/
theorem split_next (ht : Tiles len a l e) (hh : h ∈ l) (hlt : h + len h < e) :
    ∃ xs ys, l = xs ++ h :: (h + len h) :: ys := by
  obtain ⟨xs, ys, rfl⟩ := List.append_of_mem hh
  obtain ⟨b, hxs, rfl, hys⟩ := append_iff.mp ht
  cases ys with
  | nil =>
    rw [nil_iff] at hys
    omega
  | cons k ys =>
    obtain ⟨rfl, -⟩ := hys
    exact ⟨xs, ys, rfl⟩

theorem split_last (ht : Tiles len a l e) (hpos : ∀ h ∈ l, 0 < len h) (hh : h ∈ l)
    (hend : e ≤ h + len h) : ∃ xs, l = xs ++ [h] ∧ Tiles len a xs h := by
  obtain ⟨xs, ys, rfl⟩ := List.append_of_mem hh
  obtain ⟨b, hxs, rfl, hys⟩ := append_iff.mp ht
  cases ys with
  | nil => exact ⟨xs, rfl, hxs⟩
  | cons k ys =>
    obtain ⟨rfl, hys⟩ := hys
    have hle := hys.le
    have hlt := hpos (h + len h) (by simp)
    omega

/-- Two neighbours become one tile. -/
theorem merge {xs ys : List ℕ} (ht : Tiles len a (xs ++ h :: k :: ys) e)
    (hlen : len' h = len h + len k) (hxs : ∀ i ∈ xs, len' i = len i)
    (hys : ∀ i ∈ ys, len' i = len i) : Tiles len' a (xs ++ h :: ys) e := by
  obtain ⟨b, hx, rfl, rfl, hy⟩ := append_iff.mp ht
  refine append_iff.mpr ⟨h, hx.congr hxs, rfl, ?_⟩
  rw [hlen, ← Nat.add_assoc]
  exact hy.congr hys

end Tiles

end SystemProgramming
