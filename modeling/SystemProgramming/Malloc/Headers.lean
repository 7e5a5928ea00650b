import SystemProgramming.Malloc.Model

/-!
# Headers

Writes of one field of a header.  The other fields of it stay, and so do the headers and the
bytes that lie apart from it.
-/

namespace SystemProgramming.Malloc

/-- Two headers that do not overlap. -/
def Apart (h k : ℕ) : Prop := h + META ≤ k ∨ k + META ≤ h

/-- Headers that do not overlap each other. -/
def Separate (blocks : List ℕ) : Prop := ∀ h ∈ blocks, ∀ k ∈ blocks, h ≠ k → Apart h k

/-- A pointer that fits into a word and is not `NULL`. -/
def Storable (p : Option ℕ) : Prop := ∀ a, p = some a → 0 < a ∧ a < 2 ^ 64

theorem storable_none : Storable none := fun _ h ↦ by cases h

theorem storable_some {a : ℕ} (hpos : 0 < a) (hlt : a < 2 ^ 64) : Storable (some a) := by
  rintro _ ⟨⟩
  exact ⟨hpos, hlt⟩

theorem storable_pointer (w : BitVec 64) : Storable (pointer w) := by
  intro a h
  unfold pointer at h
  split at h
  · cases h
  · next hw =>
    cases h
    refine ⟨?_, w.isLt⟩
    apply Nat.pos_of_ne_zero
    intro hzero
    exact hw (BitVec.eq_of_toNat_eq hzero)

theorem pointer_address {p : Option ℕ} (hp : Storable p) : pointer (address p) = p := by
  cases p with
  | none => rfl
  | some a =>
    obtain ⟨hpos, hlt⟩ := hp a rfl
    have hval : (address (some a)).toNat = a := by
      rw [address, Option.getD_some, BitVec.toNat_ofNat, Nat.mod_eq_of_lt hlt]
    rw [pointer, if_neg, hval]
    intro hzero
    rw [hzero] at hval
    exact hpos.ne' hval.symm

namespace Heap

variable {s s' : Heap} {h k a : ℕ} {n : ℕ} {f : BitVec 32} {p : Option ℕ}

theorem storable_next : Storable (s.header h).next := storable_pointer _

theorem storable_prev : Storable (s.header h).prev := storable_pointer _

section Rest

@[simp] theorem setSize_top : (s.setSize h n).top = s.top := rfl

@[simp] theorem setFree_top : (s.setFree h f).top = s.top := rfl

@[simp] theorem setNext_top : (s.setNext h p).top = s.top := rfl

@[simp] theorem setPrev_top : (s.setPrev h p).top = s.top := rfl

@[simp] theorem setSize_freeListHead : (s.setSize h n).freeListHead = s.freeListHead := rfl

@[simp] theorem setFree_freeListHead : (s.setFree h f).freeListHead = s.freeListHead := rfl

@[simp] theorem setNext_freeListHead : (s.setNext h p).freeListHead = s.freeListHead := rfl

@[simp] theorem setPrev_freeListHead : (s.setPrev h p).freeListHead = s.freeListHead := rfl

end Rest

/-- A header only depends on its bytes. -/
theorem header_congr (hmem : ∀ a, h ≤ a → a < h + META → s'.mem a = s.mem a) :
    s'.header h = s.header h := by
  have hword : ∀ o ≤ 24, word.load s'.mem (h + o) = word.load s.mem (h + o) := by
    intro o ho
    apply Layout.load_congr
    intro a hle hlt
    exact hmem a (by omega) (by unfold META; omega)
  have hint : Layout.int32.load s'.mem (h + 8) = Layout.int32.load s.mem (h + 8) := by
    apply Layout.load_congr
    intro a hle hlt
    exact hmem a (by omega) (by unfold META; omega)
  have hsize := hword 0 (by omega)
  rw [Nat.add_zero] at hsize
  rw [header, header, hsize, hint, hword 16 (by omega), hword 24 (by omega)]

theorem mem_setSize (ha : a < h ∨ h + META ≤ a) : (s.setSize h n).mem a = s.mem a := by
  apply Layout.store_outside
  simp only [META] at ha
  omega

theorem mem_setFree (ha : a < h ∨ h + META ≤ a) : (s.setFree h f).mem a = s.mem a := by
  apply Layout.store_outside
  simp only [META] at ha
  omega

theorem mem_setNext (ha : a < h ∨ h + META ≤ a) : (s.setNext h p).mem a = s.mem a := by
  apply Layout.store_outside
  simp only [META] at ha
  omega

theorem mem_setPrev (ha : a < h ∨ h + META ≤ a) : (s.setPrev h p).mem a = s.mem a := by
  apply Layout.store_outside
  simp only [META] at ha
  omega

theorem header_of_apart (hk : Apart h k)
    (hmem : ∀ a, a < h ∨ h + META ≤ a → s'.mem a = s.mem a) : s'.header k = s.header k := by
  apply header_congr
  intro a hle hlt
  apply hmem
  rcases hk with hk | hk <;> omega

@[simp] theorem header_setHead {i : ℕ} : (s.setHead i p).header h = s.header h := rfl

/-- A word that is not written keeps its value. -/
theorem load_store_word {size : ℕ} (m : Bytes) {α : Type*} (L : Layout α size) {b c : ℕ} (x : α)
    (h : b + 8 ≤ c ∨ c + size ≤ b) : word.load (L.store m c x) b = word.load m b := by
  apply Layout.load_congr
  intro o hle hlt
  apply Layout.store_outside
  omega

theorem load_store_int {size : ℕ} (m : Bytes) {α : Type*} (L : Layout α size) {b c : ℕ} (x : α)
    (h : b + 4 ≤ c ∨ c + size ≤ b) :
    Layout.int32.load (L.store m c x) b = Layout.int32.load m b := by
  apply Layout.load_congr
  intro o hle hlt
  apply Layout.store_outside
  omega

theorem header_setSize_self (hn : n < 2 ^ 64) :
    (s.setSize h n).header h = { s.header h with size := n } := by
  have hval : (BitVec.ofNat 64 n).toNat = n := by rw [BitVec.toNat_ofNat, Nat.mod_eq_of_lt hn]
  simp only [header, setSize, Layout.load_store_self, hval]
  rw [load_store_int _ _ _ (by omega), load_store_word _ _ _ (by omega),
    load_store_word _ _ _ (by omega)]

theorem header_setFree_self : (s.setFree h f).header h = { s.header h with free := f } := by
  simp only [header, setFree, Layout.load_store_self]
  rw [load_store_word _ _ _ (by omega), load_store_word _ _ _ (by omega),
    load_store_word _ _ _ (by omega)]

theorem header_setNext_self (hp : Storable p) :
    (s.setNext h p).header h = { s.header h with next := p } := by
  simp only [header, setNext, Layout.load_store_self, pointer_address hp]
  rw [load_store_int _ _ _ (by omega), load_store_word _ _ _ (by omega),
    load_store_word _ _ _ (by omega)]

theorem header_setPrev_self (hp : Storable p) :
    (s.setPrev h p).header h = { s.header h with prev := p } := by
  simp only [header, setPrev, Layout.load_store_self, pointer_address hp]
  rw [load_store_int _ _ _ (by omega), load_store_word _ _ _ (by omega),
    load_store_word _ _ _ (by omega)]

section Separate

variable {blocks : List ℕ}

theorem header_setSize (hsep : Separate blocks) (hh : h ∈ blocks) (hk : k ∈ blocks)
    (hn : n < 2 ^ 64) : (s.setSize h n).header k =
      if k = h then { s.header h with size := n } else s.header k := by
  split
  · next heq => rw [heq, header_setSize_self hn]
  · next hne => exact header_of_apart (hsep h hh k hk (Ne.symm hne)) fun a ↦ mem_setSize

theorem header_setFree (hsep : Separate blocks) (hh : h ∈ blocks) (hk : k ∈ blocks) :
    (s.setFree h f).header k =
      if k = h then { s.header h with free := f } else s.header k := by
  split
  · next heq => rw [heq, header_setFree_self]
  · next hne => exact header_of_apart (hsep h hh k hk (Ne.symm hne)) fun a ↦ mem_setFree

theorem header_setNext (hsep : Separate blocks) (hh : h ∈ blocks) (hk : k ∈ blocks)
    (hp : Storable p) : (s.setNext h p).header k =
      if k = h then { s.header h with next := p } else s.header k := by
  split
  · next heq => rw [heq, header_setNext_self hp]
  · next hne => exact header_of_apart (hsep h hh k hk (Ne.symm hne)) fun a ↦ mem_setNext

theorem header_setPrev (hsep : Separate blocks) (hh : h ∈ blocks) (hk : k ∈ blocks)
    (hp : Storable p) : (s.setPrev h p).header k =
      if k = h then { s.header h with prev := p } else s.header k := by
  split
  · next heq => rw [heq, header_setPrev_self hp]
  · next hne => exact header_of_apart (hsep h hh k hk (Ne.symm hne)) fun a ↦ mem_setPrev

end Separate

end Heap

end SystemProgramming.Malloc
