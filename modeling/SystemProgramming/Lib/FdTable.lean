import Mathlib

/-!
# Tables of file descriptors

A process has a table that tells which open file each of its descriptors refers to.  A new
descriptor is the lowest one that is free.  Closing and duplicating descriptors never gives a
process a file that it did not have.
-/

namespace SystemProgramming

/-- Descriptors behind the end of the list are closed. -/
structure FdTable (F : Type*) where
  slots : List (Option F)

namespace FdTable

variable {F G : Type*} (t : FdTable F)

def lookup (fd : ℕ) : Option F := t.slots[fd]?.join

def assign (fd : ℕ) (f : Option F) : FdTable F :=
  ⟨(t.slots ++ List.replicate (fd + 1 - t.slots.length) none).set fd f⟩

def lowest : ℕ := t.slots.findIdx Option.isNone

def close (fd : ℕ) : FdTable F := t.assign fd none

def dup2 (old new : ℕ) : FdTable F := t.assign new (t.lookup old)

/-- The new descriptor and the table with it. -/
def openFile (f : F) : ℕ × FdTable F := (t.lowest, t.assign t.lowest (some f))

def map (f : F → G) : FdTable G := ⟨t.slots.map (Option.map f)⟩

/-- Some descriptor refers to the file. -/
def Holds (f : F) : Prop := ∃ fd, t.lookup fd = some f

variable {t} {fd fd' old new : ℕ} {f g : F}

@[simp] theorem lookup_assign_self {f : Option F} : (t.assign fd f).lookup fd = f := by
  have hlt : fd < (t.slots ++ List.replicate (fd + 1 - t.slots.length) none).length := by
    simp
    omega
  simp [lookup, assign, List.getElem?_set_self hlt]

theorem lookup_assign_of_ne {f : Option F} (h : fd' ≠ fd) :
    (t.assign fd f).lookup fd' = t.lookup fd' := by
  rw [lookup, assign, List.getElem?_set_ne h.symm, lookup]
  rcases lt_or_ge fd' t.slots.length with hlt | hge
  · rw [List.getElem?_append_left hlt]
  · rw [List.getElem?_append_right hge, List.getElem?_eq_none hge, List.getElem?_replicate]
    split <;> rfl

@[simp] theorem lookup_lowest : t.lookup t.lowest = none := by
  rw [lookup, lowest]
  rcases lt_or_ge (t.slots.findIdx Option.isNone) t.slots.length with hlt | hge
  · have hnone := List.findIdx_getElem (w := hlt)
    rw [List.getElem?_eq_getElem hlt, Option.isNone_iff_eq_none.mp hnone]
    rfl
  · rw [List.getElem?_eq_none hge]
    rfl

theorem lowest_eq_zero (h : t.lookup 0 = none) : t.lowest = 0 := by
  obtain ⟨slots⟩ := t
  rcases slots with _ | ⟨_ | f, slots⟩
  · rfl
  · simp [lowest, List.findIdx_cons]
  · cases h

theorem lookup_map (f : F → G) : (t.map f).lookup fd = (t.lookup fd).map f := by
  rw [lookup, map, List.getElem?_map, lookup]
  cases t.slots[fd]? <;> rfl

/-- What a descriptor refers to behind a new one. -/
theorem lookup_openFile_iff : (t.openFile f).2.lookup fd = some g ↔
    fd = t.lowest ∧ f = g ∨ t.lookup fd = some g := by
  rw [openFile]
  rcases eq_or_ne fd t.lowest with rfl | hne
  · simp
  · simp [lookup_assign_of_ne hne, hne]

/-- Descriptor 0 is given away first. -/
theorem lookup_openFile_zero : (t.openFile f).2.lookup 0 ≠ none := by
  cases hzero : t.lookup 0 with
  | none => simp [openFile, lowest_eq_zero hzero]
  | some g =>
      have hkept : (t.openFile f).2.lookup 0 = some g := lookup_openFile_iff.mpr (Or.inr hzero)
      rw [hkept]
      exact Option.some_ne_none g

theorem lowest_eq_one (hzero : t.lookup 0 ≠ none) (hone : t.lookup 1 = none) : t.lowest = 1 := by
  obtain ⟨slots⟩ := t
  rcases slots with _ | ⟨_ | f, slots⟩
  · exact absurd rfl hzero
  · exact absurd rfl hzero
  · rcases slots with _ | ⟨_ | g, slots⟩
    · rfl
    · simp [lowest, List.findIdx_cons]
    · cases hone

/-- Two new files leave descriptor 1 open. -/
theorem lookup_openFile_openFile_one : ((t.openFile f).2.openFile g).2.lookup 1 ≠ none := by
  cases hone : (t.openFile f).2.lookup 1 with
  | none =>
      have hlowest : (t.openFile f).2.lowest = 1 := lowest_eq_one lookup_openFile_zero hone
      rw [openFile, hlowest, lookup_assign_self]
      exact Option.some_ne_none g
  | some h =>
      have hkept : ((t.openFile f).2.openFile g).2.lookup 1 = some h :=
        lookup_openFile_iff.mpr (Or.inr hone)
      rw [hkept]
      exact Option.some_ne_none h

theorem lookup_close_iff : (t.close fd).lookup fd' = some f ↔ fd' ≠ fd ∧ t.lookup fd' = some f := by
  rcases eq_or_ne fd' fd with rfl | hne
  · simp [close]
  · simp [close, lookup_assign_of_ne hne, hne]

theorem lookup_dup2_of_ne (h : fd ≠ new) : (t.dup2 old new).lookup fd = t.lookup fd :=
  lookup_assign_of_ne h

@[simp] theorem lookup_dup2_self : (t.dup2 old new).lookup new = t.lookup old :=
  lookup_assign_self

theorem Holds.of_close (h : (t.close fd).Holds f) : t.Holds f := by
  obtain ⟨fd', hfd⟩ := h
  exact ⟨fd', (lookup_close_iff.mp hfd).2⟩

theorem Holds.of_dup2 (h : (t.dup2 old new).Holds f) : t.Holds f := by
  obtain ⟨fd, hfd⟩ := h
  rcases eq_or_ne fd new with rfl | hne
  · rw [lookup_dup2_self] at hfd
    exact ⟨old, hfd⟩
  · rw [lookup_dup2_of_ne hne] at hfd
    exact ⟨fd, hfd⟩

end FdTable

end SystemProgramming
