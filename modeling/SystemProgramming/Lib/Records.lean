import Mathlib

/-!
# Records in byte memory

A memory is a function from offsets to bytes.  A layout of a type on a fixed number of
bytes gives an array of records in it.
-/

namespace SystemProgramming

/-- The bytes of a block of memory, by offset. -/
abbrev Bytes := ℕ → UInt8

/-- How the values of a type are laid out on `size` bytes. -/
structure Layout (α : Type*) (size : ℕ) where
  pos : 0 < size
  encode : α → Fin size → UInt8
  decode : (Fin size → UInt8) → α
  decode_encode : ∀ x, decode (encode x) = x

namespace Layout

variable {α : Type*} {size : ℕ} (L : Layout α size)

/-- The record number `i`. -/
def get (m : Bytes) (i : ℕ) : α := L.decode fun k ↦ m (size * i + k)

/-- The memory in which record number `i` has been replaced. -/
def set (m : Bytes) (i : ℕ) (x : α) : Bytes :=
  fun o ↦ if o / size = i then L.encode x ⟨o % size, Nat.mod_lt o L.pos⟩ else m o

theorem div_mul_add (i : ℕ) (k : Fin size) : (size * i + k) / size = i := by
  have hpos : 0 < size := lt_of_le_of_lt (Nat.zero_le _) k.isLt
  rw [Nat.mul_add_div hpos, Nat.div_eq_of_lt k.isLt, Nat.add_zero]

@[simp] theorem get_set_self (m : Bytes) (i : ℕ) (x : α) : L.get (L.set m i x) i = x := by
  have hbytes : (fun k : Fin size ↦ L.set m i x (size * i + k)) = L.encode x := by
    funext k
    have hmod : (size * i + k) % size = k := by
      rw [Nat.mul_add_mod, Nat.mod_eq_of_lt k.isLt]
    simp only [set, div_mul_add, if_true, hmod]
  rw [get, hbytes, L.decode_encode]

theorem get_set_of_ne (m : Bytes) {i j : ℕ} (h : j ≠ i) (x : α) :
    L.get (L.set m i x) j = L.get m j := by
  unfold get
  congr 1
  funext k
  simp only [set, div_mul_add, if_neg h]

/-- The low `n` digits of a number in base 256. -/
theorem sum_digits (n v : ℕ) :
    ∑ k : Fin n, v / 256 ^ k.val % 256 * 256 ^ k.val = v % 256 ^ n := by
  induction n with
  | zero => simp [Nat.mod_one]
  | succ n ih =>
      rw [Fin.sum_univ_castSucc]
      simp only [Fin.val_castSucc, Fin.val_last]
      rw [ih, pow_succ, Nat.mod_mul]
      ring

/-- A machine word of `n` bytes, the low byte first. -/
def littleEndian (n : ℕ) (hn : 0 < n) : Layout (BitVec (8 * n)) n where
  pos := hn
  encode x k := UInt8.ofNat (x.toNat / 256 ^ k.val)
  decode b := BitVec.ofNat (8 * n) (∑ k, (b k).toNat * 256 ^ k.val)
  decode_encode x := by
    have hpow : 256 ^ n = 2 ^ (8 * n) := by rw [pow_mul]; norm_num
    apply BitVec.eq_of_toNat_eq
    simp only [UInt8.toNat_ofNat', BitVec.toNat_ofNat]
    rw [sum_digits, hpow, Nat.mod_mod, Nat.mod_eq_of_lt x.isLt]

theorem int32_pos : 0 < 4 := by decide

/-- The layout of an `int`. -/
def int32 : Layout (BitVec 32) 4 := littleEndian 4 int32_pos

end Layout

/-- The bytes `buffer` copied over a memory from offset `start` on. -/
def memcpy (m : Bytes) (start : ℕ) (buffer : List UInt8) : Bytes :=
  fun o ↦ if start ≤ o then (buffer[o - start]?).getD (m o) else m o

theorem memcpy_inside (m : Bytes) (start : ℕ) (buffer : List UInt8) {k : ℕ}
    (hk : k < buffer.length) : memcpy m start buffer (start + k) = buffer[k] := by
  simp [memcpy, hk]

theorem memcpy_outside (m : Bytes) (start : ℕ) (buffer : List UInt8) {o : ℕ}
    (ho : o < start ∨ start + buffer.length ≤ o) : memcpy m start buffer o = m o := by
  rcases ho with hlt | hge
  · simp [memcpy, Nat.not_le.mpr hlt]
  · have hle : buffer.length ≤ o - start := by omega
    simp [memcpy, List.getElem?_eq_none hle]

theorem memcpy_nil (m : Bytes) (start : ℕ) : memcpy m start [] = m := by
  funext o
  simp [memcpy]

theorem memcpy_append (m : Bytes) (start : ℕ) (front behind : List UInt8) :
    memcpy (memcpy m start front) (start + front.length) behind =
      memcpy m start (front ++ behind) := by
  funext o
  rcases lt_or_ge o (start + front.length) with hlt | hge
  · rw [memcpy_outside _ _ _ (Or.inl hlt)]
    by_cases hstart : start ≤ o
    · have hin : o - start < front.length := by omega
      simp only [memcpy, if_pos hstart, List.getElem?_append_left hin]
    · simp only [memcpy, if_neg hstart]
  · have hstart : start ≤ o := by omega
    have hbehind : o - start - front.length = o - (start + front.length) := by omega
    rw [memcpy, if_pos hge, memcpy_outside _ _ _ (Or.inr hge), memcpy, if_pos hstart,
      List.getElem?_append_right (by omega), hbehind]

/-- The `count` bytes from `start` on. -/
def bytesAt (m : Bytes) (start count : ℕ) : List UInt8 :=
  (List.range count).map fun k ↦ m (start + k)

@[simp] theorem length_bytesAt (m : Bytes) (start count : ℕ) :
    (bytesAt m start count).length = count := by
  simp [bytesAt]

theorem bytesAt_drop (m : Bytes) (start count n : ℕ) :
    (bytesAt m start count).drop n = bytesAt m (start + n) (count - n) := by
  apply List.ext_getElem
  · simp
  · intro k hk hk'
    simp [bytesAt, Nat.add_assoc]

theorem bytesAt_memcpy (m : Bytes) (start : ℕ) (buffer : List UInt8) :
    bytesAt (memcpy m start buffer) start buffer.length = buffer := by
  apply List.ext_getElem
  · simp
  · intro k hk hk'
    simp only [bytesAt, List.getElem_map, List.getElem_range]
    exact memcpy_inside m start buffer hk'

namespace Layout

variable {α : Type*} {size : ℕ} (L : Layout α size)

/-- The record that starts at the byte `a`. -/
def load (m : Bytes) (a : ℕ) : α := L.decode fun k ↦ m (a + k)

/-- The memory in which a record has been stored from the byte `a` on. -/
def store (m : Bytes) (a : ℕ) (x : α) : Bytes := memcpy m a (List.ofFn (L.encode x))

theorem load_congr {m m' : Bytes} {a : ℕ} (h : ∀ o, a ≤ o → o < a + size → m o = m' o) :
    L.load m a = L.load m' a := by
  unfold load
  congr 1
  funext k
  exact h _ (Nat.le_add_right _ _) (Nat.add_lt_add_left k.isLt _)

@[simp] theorem load_store_self (m : Bytes) (a : ℕ) (x : α) : L.load (L.store m a x) a = x := by
  have hbytes : (fun k : Fin size ↦ L.store m a x (a + k)) = L.encode x := by
    funext k
    rw [store, memcpy_inside _ _ _ (by simp)]
    simp
  rw [load, hbytes, L.decode_encode]

theorem store_outside (m : Bytes) {a o : ℕ} (x : α) (ho : o < a ∨ a + size ≤ o) :
    L.store m a x o = m o := by
  apply memcpy_outside
  simpa using ho

theorem load_store_of_disjoint (m : Bytes) {a b : ℕ} (x : α) (h : b + size ≤ a ∨ a + size ≤ b) :
    L.load (L.store m a x) b = L.load m b := by
  apply L.load_congr
  intro o hle hlt
  apply L.store_outside
  omega

end Layout

end SystemProgramming
