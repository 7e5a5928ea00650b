import SystemProgramming.Vector.Slots

/-!
# Insertion and resizing

`vector_insert` and `vector_resize` do to the elements what they should, unless an unsigned index
would have to go below 0, or a new capacity is more than the bytes of its slots can be counted in.
-/

namespace SystemProgramming.Vector

/-! ## New capacities -/

section Capacities

variable {target c n j : ℕ}

theorem newCapacityLoop_zero (htarget : 0 < target) (n : ℕ) :
    newCapacityLoop target n 0 = none := by
  induction n with
  | zero => exact if_pos htarget
  | succ n ih =>
      rw [newCapacityLoop, if_pos htarget, Nat.zero_mul, Nat.zero_mod]
      exact ih

theorem isLeast_pow (hless : ∀ i < j, GROWTH_FACTOR ^ i < target)
    (hle : target ≤ GROWTH_FACTOR ^ j) :
    IsLeast {p | ∃ i, p = GROWTH_FACTOR ^ i ∧ target ≤ p} (GROWTH_FACTOR ^ j) := by
  refine ⟨⟨j, rfl, hle⟩, ?_⟩
  rintro p ⟨i, rfl, hi⟩
  apply Nat.pow_le_pow_right (by decide)
  by_contra hlt
  exact absurd (hless i (not_le.mp hlt)) (not_lt.mpr hi)

theorem isLeast_of_newCapacityLoop (htarget : 0 < target) (hj : j ≤ 63)
    (hless : ∀ i < j, GROWTH_FACTOR ^ i < target)
    (h : newCapacityLoop target n (GROWTH_FACTOR ^ j) = some c) :
    IsLeast {p | ∃ i, p = GROWTH_FACTOR ^ i ∧ target ≤ p} c := by
  induction n generalizing j with
  | zero =>
      rw [newCapacityLoop, Option.ite_none_left_eq_some] at h
      exact Option.some.inj h.2 ▸ isLeast_pow hless (not_lt.mp h.1)
  | succ n ih =>
      rw [newCapacityLoop] at h
      split at h
      · next hlt =>
        rcases Nat.lt_or_ge j 63 with hj' | hj'
        · have hpow : GROWTH_FACTOR ^ j * GROWTH_FACTOR % sizeTypeRange = GROWTH_FACTOR ^ (j + 1) := by
            rw [← pow_succ]
            exact Nat.mod_eq_of_lt (Nat.pow_lt_pow_right (by decide) (by omega))
          rw [hpow] at h
          apply ih hj' _ h
          intro i hi
          rcases Nat.lt_succ_iff_lt_or_eq.mp hi with hi | rfl
          · exact hless i hi
          · exact hlt
        · -- the product becomes 0 and stays below the target
          obtain rfl : j = 63 := by omega
          have hzero : GROWTH_FACTOR ^ 63 * GROWTH_FACTOR % sizeTypeRange = 0 := by decide
          rw [hzero, newCapacityLoop_zero htarget] at h
          cases h
      · next hle => exact Option.some.inj h ▸ isLeast_pow hless (not_lt.mp hle)

theorem isLeast_of_getNewCapacity (htarget : 0 < target) (h : getNewCapacity target = some c) :
    IsLeast {p | ∃ i, p = GROWTH_FACTOR ^ i ∧ target ≤ p} c := by
  rw [getNewCapacity, ← pow_zero GROWTH_FACTOR] at h
  apply isLeast_of_newCapacityLoop htarget (Nat.zero_le 63) _ h
  intro i hi
  exact absurd hi (Nat.not_lt_zero i)

theorem exists_getNewCapacity (h : target ≤ maxCapacity) :
    ∃ c ≤ maxCapacity, getNewCapacity target = some c := by
  have hloop := exists_newCapacityLoop h (Nat.zero_le 60) rfl
  rwa [pow_zero] at hloop

/-- The bytes of a larger capacity are counted as 0. -/
theorem bytes_eq_zero (h : maxCapacity < target) (hc : getNewCapacity target = some c) :
    c * 8 % sizeTypeRange = 0 := by
  obtain ⟨⟨j, rfl, hle⟩, -⟩ := isLeast_of_getNewCapacity (by omega) hc
  have hj : 60 < j := (Nat.pow_lt_pow_iff_right (by decide)).mp (h.trans_le hle)
  have height : GROWTH_FACTOR ^ j * 8 = 2 ^ (j + 3) := by
    rw [pow_add]
    rfl
  rw [height, sizeTypeRange]
  exact Nat.mod_eq_zero_of_dvd (Nat.pow_dvd_pow 2 (by omega))

theorem bytes_eq (h : c ≤ maxCapacity) : c * 8 % sizeTypeRange = c * 8 := by
  apply Nat.mod_eq_of_lt
  rw [maxCapacity] at h
  rw [sizeTypeRange]
  omega

end Capacities

/-! ## Growing -/

/-- The request of a call that grows the array is granted. -/
def Granted (alloc : Allocator) (target : ℕ) : Prop :=
  ∀ c, getNewCapacity target = some c → (alloc (c * 8 % sizeTypeRange)).isSome

namespace Slots

/-- The array has the slots that the vector believes it has, and they are in memory. -/
structure Sound (s : Slots) : Prop where
  slots : s.array.length = s.capacity
  size_le : s.size ≤ s.capacity
  bytes : s.capacity * 8 < sizeTypeRange

theorem Sound.range {s : Slots} (h : Sound s) : s.array.length < sizeTypeRange := by
  have hslots := h.slots
  have hbytes := h.bytes
  omega

variable {alloc : Allocator} {s t : Slots} {target c n position : ℕ} {element : Object}

theorem realloc_eq (array : List Object) {bytes : ℕ} {fresh : ℕ → Object}
    (h : alloc bytes = some fresh) :
    ∃ array', realloc alloc array bytes = some array' ∧ array'.length = bytes / 8 ∧
      ∀ i < array.length, i < bytes / 8 → array'[i]? = array[i]? := by
  refine ⟨_, by rw [realloc, h, Option.map_some], by simp, fun i hi hi' ↦ ?_⟩
  simp [hi', List.getElem?_eq_getElem hi]

/-- The slots of the old array are kept, and there is room for the target. -/
structure Grown (s t : Slots) (target : ℕ) : Prop where
  sound : Sound t
  target_le : target ≤ t.capacity
  capacity_le : t.capacity ≤ maxCapacity
  capacity : getNewCapacity target = some t.capacity
  kept : ∀ i < s.size, t.array[i]? = s.array[i]?
  size : t.size = s.size
  next : t.next = s.next
  trace : t.trace = s.trace

/-- Both ways of growing do the same if the request is granted. -/
theorem Sound.grown (h : Sound s) (htarget : s.capacity < target) (hmax : target ≤ maxCapacity)
    (halloc : Granted alloc target) :
    ∃ t, s.growChecked alloc target = .returned t ∧ s.growUnchecked alloc target = .returned t ∧
      Grown s t target := by
  obtain ⟨c, hc, hnew⟩ := exists_getNewCapacity hmax
  have hle : target ≤ c := (isLeast_of_getNewCapacity (by omega) hnew).1.choose_spec.2
  have hgranted := halloc c hnew
  rw [bytes_eq hc] at hgranted
  obtain ⟨fresh, hfresh⟩ := Option.isSome_iff_exists.mp hgranted
  obtain ⟨array, harray, hlength, hkept⟩ := realloc_eq s.array hfresh
  rw [Nat.mul_div_cancel c (by decide : 0 < 8)] at hlength hkept
  have hslots := h.slots
  have hsize := h.size_le
  have hgrow : s.grow alloc target = .returned ({ s with capacity := c }, some array) := by
    simp only [grow, hnew, bytes_eq hc, harray]
  refine ⟨{ s with capacity := c, array := array }, ?_, ?_, ?_⟩
  · rw [growChecked, hgrow]
    rfl
  · rw [growUnchecked, hgrow]
    rfl
  · refine ⟨⟨hlength, by simp only; omega, ?_⟩, hle, hc, hnew, fun i hi ↦ ?_, rfl, rfl, rfl⟩
    · rw [← bytes_eq hc]
      exact Nat.mod_lt _ (by decide)
    · exact hkept i (by omega) (by omega)

/-- A request that is not granted is answered by `NULL`. -/
theorem grow_of_refused (htarget : 0 < target) (halloc : ¬ Granted alloc target) :
    ∃ c, target ≤ c ∧ s.grow alloc target = .returned ({ s with capacity := c }, none) := by
  obtain ⟨c, hnew, hnone⟩ : ∃ c, getNewCapacity target = some c ∧
      ¬ (alloc (c * 8 % sizeTypeRange)).isSome := by
    simpa [Granted] using halloc
  refine ⟨c, (isLeast_of_getNewCapacity htarget hnew).1.choose_spec.2, ?_⟩
  simp only [grow, hnew, realloc, Option.not_isSome_iff_eq_none.mp hnone, Option.map_none]

/-- The new capacity is never found, or `realloc` is asked for no bytes. -/
theorem grow_of_large (alloc : Allocator) (s : Slots) (hmax : maxCapacity < target) :
    s.grow alloc target = .looping ∨ ∃ c, target ≤ c ∧
      (s.grow alloc target = .returned ({ s with capacity := c }, none) ∨
        s.grow alloc target = .returned ({ s with capacity := c }, some [])) := by
  cases hnew : getNewCapacity target with
  | none =>
      left
      simp only [grow, hnew]
  | some c =>
      right
      refine ⟨c, (isLeast_of_getNewCapacity (by omega) hnew).1.choose_spec.2, ?_⟩
      simp only [grow, hnew, bytes_eq_zero hmax hnew, realloc]
      cases alloc 0 with
      | none => exact Or.inl rfl
      | some fresh => exact Or.inr rfl

/-- A call that does not look at the answer of `realloc` goes on without an array. -/
theorem growUnchecked_of_not (htarget : 0 < target)
    (h : ¬ (target ≤ maxCapacity ∧ Granted alloc target)) :
    s.growUnchecked alloc target = .looping ∨ ∃ c, target ≤ c ∧
      s.growUnchecked alloc target = .returned { s with capacity := c, array := [] } := by
  have hnull {c : ℕ} (hgrow : s.grow alloc target = .returned ({ s with capacity := c }, none)) :
      s.growUnchecked alloc target = .returned { s with capacity := c, array := [] } := by
    rw [growUnchecked, hgrow]
    rfl
  by_cases halloc : Granted alloc target
  · have hlarge : maxCapacity < target := not_le.mp fun hmax ↦ h ⟨hmax, halloc⟩
    rcases grow_of_large alloc s hlarge with hloop | ⟨c, hc, hgrow | hgrow⟩
    · left
      rw [growUnchecked, hloop, Outcome.looping_bind]
    · exact Or.inr ⟨c, hc, hnull hgrow⟩
    · refine Or.inr ⟨c, hc, ?_⟩
      rw [growUnchecked, hgrow]
      rfl
  · obtain ⟨c, hc, hgrow⟩ := grow_of_refused (s := s) htarget halloc
    exact Or.inr ⟨c, hc, hnull hgrow⟩

/-- A call that looks at the answer reports a failure. -/
theorem growChecked_of_refused (htarget : 0 < target) (halloc : ¬ Granted alloc target) :
    s.growChecked alloc target = .aborted := by
  obtain ⟨c, -, hgrow⟩ := grow_of_refused (s := s) htarget halloc
  rw [growChecked, hgrow]
  rfl

/-- It goes on without an array if the bytes were miscounted. -/
theorem growChecked_of_large (alloc : Allocator) (s : Slots) (hmax : maxCapacity < target) :
    s.growChecked alloc target = .looping ∨ s.growChecked alloc target = .aborted ∨
      ∃ c, s.growChecked alloc target = .returned { s with capacity := c, array := [] } := by
  rcases grow_of_large alloc s hmax with hloop | ⟨c, -, hnull | hempty⟩
  · left
    rw [growChecked, hloop, Outcome.looping_bind]
  · exact Or.inr (Or.inl (by rw [growChecked, hnull]; rfl))
  · exact Or.inr (Or.inr ⟨c, by rw [growChecked, hempty]; rfl⟩)

/-! ## Insertion -/

/-- The element is copied to the position, the elements from there on stand behind it, and the
array has the slots that the vector believes it has. -/
def InsertCorrect (alloc : Allocator) (s : Slots) (position : ℕ) (element : Object) : Prop :=
  ∃ t, s.insert alloc position element = .returned t ∧ Sound t ∧ t.size = s.size + 1 ∧
    t.contents = s.contents.take position ++ .made s.next :: s.contents.drop position ∧
    t.next = s.next + 1 ∧ t.trace = s.trace ++ [.copy element, .construct s.next]

/-- A vector that is not full. -/
theorem insert_of_ne (hroom : s.size ≠ s.capacity) : s.insert alloc position element =
    (shiftLoop position s.rounds (decrement s.size) s >>= fun t ↦
      (t.copyConstructor element).put position (.made t.next) >>= fun u ↦
        .returned { u with size := u.size + 1 }) := by
  rw [insert, if_neg hroom]
  rfl

/-- Without a slot everything is outside. -/
theorem insert_of_nil (harray : s.array = []) (hroom : s.size ≠ s.capacity) :
    s.insert alloc position element = .outside := by
  have hget (i : ℕ) : s.get i = .outside := get_of_le (by rw [harray]; exact Nat.zero_le i)
  have hput : (s.copyConstructor element).put position (.made s.next) = .outside :=
    put_of_le (s := s.copyConstructor element)
      (by simp only [copyConstructor, harray]; exact Nat.zero_le _) _
  have hrounds : s.rounds = 1 + 1 := by rw [rounds, harray, List.length_nil]
  rw [insert_of_ne hroom, hrounds, shiftLoop]
  split
  · rw [hget, Outcome.outside_bind, Outcome.outside_bind]
  · rw [Outcome.returned_bind, hput, Outcome.outside_bind]

/-- At position 0 the index runs out of the array. -/
theorem insert_zero (hroom : s.size ≠ s.capacity) (hsize : s.size ≤ s.array.length)
    (hrange : s.array.length < sizeTypeRange) :
    s.insert alloc 0 element = .outside := by
  have hfuel : s.size + 2 ≤ s.rounds := Nat.add_le_add_right hsize 2
  have hloop := shiftLoop_zero hrange hsize hfuel
  rw [insert_of_ne hroom, hloop, Outcome.outside_bind]

/-- The elements after a shift and a store. -/
theorem take_of_shifted {array array' : List Object} {size : ℕ} {o : Object}
    (hposition : position ≤ size) (hsize : size < array.length)
    (hlength : array'.length = array.length)
    (hshift : ∀ m, array'[m]? =
      if position < m ∧ m ≤ size then array[m - 1]? else array[m]?) :
    (array'.set position o).take (size + 1) =
      (array.take size).take position ++ o :: (array.take size).drop position := by
  apply List.ext_getElem?
  intro m
  have htake : ((array.take size).take position).length = position := by
    rw [List.length_take, List.length_take]
    omega
  rcases Nat.lt_trichotomy m position with hlt | rfl | hgt
  · rw [List.getElem?_append_left (by omega), List.getElem?_take_of_lt (by omega),
      List.getElem?_set_ne (by omega), hshift, if_neg (by omega), List.getElem?_take_of_lt hlt,
      List.getElem?_take_of_lt (by omega)]
  · rw [List.getElem?_append_right (by omega), List.getElem?_take_of_lt (by omega),
      List.getElem?_set_self (by omega), htake, Nat.sub_self, List.getElem?_cons_zero]
  · obtain ⟨d, hd⟩ := Nat.exists_eq_add_of_lt hgt
    rw [List.getElem?_append_right (by omega), htake, show m - position = d + 1 by omega,
      List.getElem?_cons_succ, List.getElem?_drop]
    by_cases hm : m ≤ size
    · rw [List.getElem?_take_of_lt (by omega), List.getElem?_set_ne (by omega), hshift,
        if_pos ⟨hgt, hm⟩, List.getElem?_take_of_lt (by omega), show m - 1 = position + d by omega]
    · rw [List.getElem?_eq_none (by rw [List.length_take]; omega),
        List.getElem?_eq_none (by rw [List.length_take]; omega)]

theorem insert_of_lt (alloc : Allocator) (element : Object) (h : Sound s)
    (hroom : s.size < s.capacity) (hzero : 0 < position) (hposition : position ≤ s.size) :
    InsertCorrect alloc s position element := by
  have hslots := h.slots
  obtain ⟨k, hk⟩ := Nat.exists_eq_add_of_le hposition
  have hfuel : k < s.rounds := by
    rw [rounds]
    omega
  obtain ⟨array, hloop, hlength, hshift⟩ := shiftLoop_eq hzero (by omega) h.range hfuel
  rw [← hk] at hloop hshift
  have hput : ({ s with array := array }.copyConstructor element).put position (.made s.next) =
      .returned { { s with array := array }.copyConstructor element with
        array := array.set position (.made s.next) } :=
    put_of_lt (s := { s with array := array }.copyConstructor element)
      (by simp only [copyConstructor]; omega) _
  refine ⟨{ ({ s with array := array }.copyConstructor element) with
    array := array.set position (.made s.next), size := s.size + 1 }, ?_, ?_⟩
  · rw [insert_of_ne hroom.ne, hloop, Outcome.returned_bind, hput]
    rfl
  · refine ⟨⟨?_, ?_, h.bytes⟩, rfl, ?_, rfl, ?_⟩
    · simp only [copyConstructor, List.length_set, hlength, hslots]
    · simp only [copyConstructor]
      omega
    · exact take_of_shifted hposition (by omega) hlength hshift
    · simp [copyConstructor]

/-- A full vector grows first, and is then not full. -/
theorem insert_of_full (hfull : s.size = s.capacity)
    (hgrow : s.growUnchecked alloc (s.capacity + 1) = .returned t) (hroom : t.size ≠ t.capacity) :
    s.insert alloc position element = t.insert alloc position element := by
  rw [insert_of_ne hroom, insert, if_pos hfull, hgrow, Outcome.returned_bind]

theorem Grown.contents (h : Grown s t target) : t.contents = s.contents := by
  apply List.ext_getElem?
  intro i
  rw [Slots.contents, Slots.contents, h.size]
  by_cases hi : i < s.size
  · rw [List.getElem?_take_of_lt hi, List.getElem?_take_of_lt hi, h.kept i hi]
  · rw [List.getElem?_take_eq_none (not_lt.mp hi), List.getElem?_take_eq_none (not_lt.mp hi)]

/-- A full vector that gets more slots is not full any more. -/
theorem insert_of_grown (h : Sound s) (hfull : s.size = s.capacity)
    (hmax : s.capacity < maxCapacity) (halloc : Granted alloc (s.capacity + 1)) :
    ∃ t, Grown s t (s.capacity + 1) ∧ t.size < t.capacity ∧
      ∀ position element, s.insert alloc position element = t.insert alloc position element := by
  obtain ⟨t, -, hgrow, hgrown⟩ := h.grown (Nat.lt_succ_self _) hmax halloc
  have htarget := hgrown.target_le
  have hsame := hgrown.size
  exact ⟨t, hgrown, by omega, fun _ _ ↦ insert_of_full hfull hgrow (by omega)⟩

/-- A full vector that gets no slots is left for ever or with an access outside. -/
theorem insert_of_not (position : ℕ) (element : Object) (hfull : s.size = s.capacity)
    (h : ¬ (s.capacity < maxCapacity ∧ Granted alloc (s.capacity + 1))) :
    s.insert alloc position element = .looping ∨ s.insert alloc position element = .outside := by
  rcases growUnchecked_of_not (s := s) (Nat.succ_pos _) h with hloop | ⟨c, hc, hgrow⟩
  · left
    rw [insert, if_pos hfull, hloop, Outcome.looping_bind]
  · right
    have hroom : s.size ≠ c := by omega
    rw [insert_of_full hfull hgrow hroom, insert_of_nil rfl hroom]

theorem Sound.inserted (h : Sound s) (element : Object) (hzero : 0 < position)
    (hposition : position ≤ s.size)
    (hroom : s.size < s.capacity ∨ s.capacity < maxCapacity ∧ Granted alloc (s.capacity + 1)) :
    InsertCorrect alloc s position element := by
  by_cases hfull : s.size = s.capacity
  · obtain ⟨hmax, halloc⟩ := hroom.resolve_left hfull.not_lt
    obtain ⟨t, hgrown, hlt, hinsert⟩ := insert_of_grown h hfull hmax halloc
    have hsame := hgrown.size
    obtain ⟨u, hu, husound, husize, hucontents, hunext, hutrace⟩ :=
      insert_of_lt alloc element hgrown.sound hlt hzero
        (by omega : position ≤ t.size)
    rw [hgrown.contents, hgrown.next] at hucontents
    rw [hgrown.next] at hunext
    rw [hgrown.trace, hgrown.next] at hutrace
    exact ⟨u, (hinsert _ _).trans hu, husound, by rw [husize, hsame], hucontents, hunext, hutrace⟩
  · exact insert_of_lt alloc element h (lt_of_le_of_ne h.size_le hfull) hzero hposition

/-- Nothing is inserted at the beginning. -/
theorem Sound.insert_zero (h : Sound s) (alloc : Allocator) (element : Object) :
    s.insert alloc 0 element = .outside ∨ s.insert alloc 0 element = .looping := by
  have hslots := h.slots
  have hsize := h.size_le
  by_cases hfull : s.size = s.capacity
  · by_cases hcan : s.capacity < maxCapacity ∧ Granted alloc (s.capacity + 1)
    · obtain ⟨t, hgrown, hlt, hinsert⟩ := insert_of_grown h hfull hcan.1 hcan.2
      have htslots := hgrown.sound.slots
      left
      rw [hinsert, Slots.insert_zero hlt.ne (by omega) hgrown.sound.range]
    · exact (insert_of_not _ _ hfull hcan).symm
  · exact Or.inl (Slots.insert_zero hfull (by omega) h.range)

/-- An insertion is right exactly if it is not at the beginning, and a full vector can be given
more slots. -/
theorem insert_correct_iff (h : Sound s) (hposition : position ≤ s.size) (element : Object) :
    InsertCorrect alloc s position element ↔ position ≠ 0 ∧
      (s.size < s.capacity ∨ s.capacity < maxCapacity ∧ Granted alloc (s.capacity + 1)) := by
  constructor
  · rintro ⟨u, hu, -⟩
    constructor
    · rintro rfl
      rcases h.insert_zero alloc element with hout | hloop
      · rw [hout] at hu
        cases hu
      · rw [hloop] at hu
        cases hu
    · by_contra hnot
      rw [not_or] at hnot
      have hfull : s.size = s.capacity := le_antisymm h.size_le (not_lt.mp hnot.1)
      rcases insert_of_not position element hfull hnot.2 with hloop | hout
      · rw [hloop] at hu
        cases hu
      · rw [hout] at hu
        cases hu
  · rintro ⟨hzero, hroom⟩
    exact h.inserted element (Nat.pos_of_ne_zero hzero) hposition hroom

/-- Two elements in a vector that is as it was created otherwise. -/
def twoElements : Slots :=
  ⟨[.made 0, .made 1] ++ List.replicate 6 (.outside 0), 2, INITIAL_CAPACITY, 2, []⟩

theorem sound_twoElements : Sound twoElements := ⟨rfl, by decide, by decide⟩

theorem insert_correct_between :
    InsertCorrect (fun _ ↦ none) twoElements 1 (.outside 5) :=
  (insert_correct_iff sound_twoElements (by decide) (.outside 5)).mpr
    ⟨one_ne_zero, Or.inl (by decide)⟩

/-- Nothing can be inserted at the beginning. -/
theorem insert_front_outside : ¬ ∀ (alloc : Allocator) (s : Slots) (position : ℕ)
    (element : Object), Sound s → position ≤ s.size → InsertCorrect alloc s position element := by
  intro h
  obtain ⟨t, ht, -⟩ := h (fun _ ↦ none) twoElements 0 (.outside 5) sound_twoElements (Nat.zero_le 2)
  have hne : twoElements.size ≠ twoElements.capacity := by decide
  have hsize : twoElements.size ≤ twoElements.array.length := by decide
  rw [insert_zero hne hsize sound_twoElements.range] at ht
  cases ht

/-! ## Resizing -/

/-- The first elements are kept, default elements are added, and the elements behind the new size
are destroyed once each. The array has the slots that the vector believes it has. -/
structure Resized (s t : Slots) (n : ℕ) : Prop where
  sound : Sound t
  size : t.size = n
  contents : t.contents = s.contents.take n ++ (List.range' s.next (n - s.size)).map .made
  next : t.next = s.next + (n - s.size)
  trace : t.trace = s.trace ++ (s.contents.drop n).reverse.map .destroy ++
    (List.range' s.next (n - s.size)).map .construct
  capacity : n ≤ s.capacity → t.capacity = s.capacity

def ResizeCorrect (alloc : Allocator) (s : Slots) (n : ℕ) : Prop :=
  ∃ t, s.resize alloc n = .returned t ∧ Resized s t n

theorem resize_of_gt (h : s.capacity < n) : s.resize alloc n =
    (s.growChecked alloc n >>= fun t ↦ fillLoop (n - t.size) t.size t >>= fun u ↦
      .returned { u with size := n }) := by
  rw [resize, if_pos h]

theorem resize_of_fill (h : n ≤ s.capacity) (hn : s.size < n) : s.resize alloc n =
    (fillLoop (n - s.size) s.size s >>= fun u ↦ .returned { u with size := n }) := by
  rw [resize, if_neg (not_lt.mpr h), if_pos hn]

theorem resize_of_le (h : n ≤ s.capacity) (hn : n ≤ s.size) : s.resize alloc n =
    (destroyLoop n s.rounds (decrement s.size) s >>= fun u ↦ .returned { u with size := n }) := by
  rw [resize, if_neg (not_lt.mpr h), if_neg (not_lt.mpr hn)]

/-- New elements are stored behind the old ones. -/
theorem Sound.filled (h : Sound s) (hn : s.size < n) (hcapacity : n ≤ s.capacity) :
    ∃ t, (fillLoop (n - s.size) s.size s >>= fun u ↦ .returned { u with size := n }) =
      .returned t ∧ Resized s t n := by
  have hslots := h.slots
  have hcount : s.size + (n - s.size) = n := by omega
  have hloop := fillLoop_eq (s := s) (i := s.size) (k := n - s.size) (by omega)
  rw [hcount] at hloop
  have hlength : (s.array.take s.size ++
      (List.range' s.next (n - s.size)).map Object.made).length = n := by
    simp only [List.length_append, List.length_take, List.length_map, List.length_range']
    omega
  have hcontents : s.contents.length = s.size := by
    rw [contents, List.length_take]
    omega
  rw [hloop, Outcome.returned_bind]
  refine ⟨_, rfl, ⟨?_, hcapacity, h.bytes⟩, rfl, ?_, rfl, ?_, fun _ ↦ rfl⟩
  · simp only [List.length_append, List.length_take, List.length_map, List.length_range',
      List.length_drop]
    omega
  · rw [List.take_of_length_le (show s.contents.length ≤ n by omega)]
    exact List.take_left' hlength
  · rw [List.drop_of_length_le (show s.contents.length ≤ n by omega)]
    simp

theorem Sound.destroyed (h : Sound s) (hzero : 0 < n) (hn : n ≤ s.size) :
    ∃ t, (destroyLoop n s.rounds (decrement s.size) s >>= fun u ↦
      .returned { u with size := n }) = .returned t ∧ Resized s t n := by
  have hslots := h.slots
  have hsize := h.size_le
  obtain ⟨k, hk⟩ := Nat.exists_eq_add_of_le hn
  have hfuel : k < s.rounds := by
    rw [rounds]
    omega
  have hloop := destroyLoop_eq (k := k) hzero (by omega) h.range hfuel
  have hnone : n - s.size = 0 := by omega
  rw [← hk] at hloop
  rw [hloop, Outcome.returned_bind]
  refine ⟨_, rfl, ⟨hslots, by simp only; omega, h.bytes⟩, rfl, ?_, by simp [hnone], ?_,
    fun _ ↦ rfl⟩
  · simp only [contents, hnone, List.range'_zero, List.map_nil, List.append_nil, List.take_take]
    rw [min_eq_left hn]
  · simp [contents, hnone]

theorem resize_zero (h : Sound s) : s.resize alloc 0 = .outside := by
  have hslots := h.slots
  have hsize := h.size_le
  have hfuel : s.size + 2 ≤ s.rounds := by
    rw [rounds]
    omega
  have hloop := destroyLoop_zero h.range (by omega : s.size ≤ s.array.length) hfuel
  rw [resize_of_le (Nat.zero_le _) (Nat.zero_le _), hloop, Outcome.outside_bind]

theorem Sound.resized (h : Sound s) (hzero : 0 < n) (hmax : n ≤ s.capacity ∨ n ≤ maxCapacity)
    (halloc : s.capacity < n → Granted alloc n) : ResizeCorrect alloc s n := by
  have hsize := h.size_le
  rcases Nat.lt_or_ge s.capacity n with hgt | hle
  · obtain ⟨t, hgrow, -, hgrown⟩ := h.grown hgt (hmax.resolve_left (not_le.mpr hgt)) (halloc hgt)
    obtain ⟨u, hu, hresized⟩ := hgrown.sound.filled (by rw [hgrown.size]; omega) hgrown.target_le
    refine ⟨u, ?_, ?_⟩
    · rw [resize_of_gt hgt, hgrow, Outcome.returned_bind]
      exact hu
    · refine ⟨hresized.sound, hresized.size, ?_, ?_, ?_, fun hle ↦ absurd hgt (not_lt.mpr hle)⟩
      · rw [hresized.contents, hgrown.contents, hgrown.next, hgrown.size]
      · rw [hresized.next, hgrown.next, hgrown.size]
      · rw [hresized.trace, hgrown.contents, hgrown.trace, hgrown.next, hgrown.size]
  · rcases Nat.lt_or_ge s.size n with hgt | hn
    · obtain ⟨u, hu, hresized⟩ := h.filled hgt hle
      exact ⟨u, (resize_of_fill hle hgt).trans hu, hresized⟩
    · obtain ⟨u, hu, hresized⟩ := h.destroyed hzero hn
      exact ⟨u, (resize_of_le hle hn).trans hu, hresized⟩

/-- A resize whose bytes are miscounted does not return. -/
theorem resize_of_large (h : s.size ≤ s.capacity) (hgt : s.capacity < n) (hmax : maxCapacity < n) :
    s.resize alloc n ≠ .returned t := by
  intro ht
  rw [resize_of_gt hgt] at ht
  rcases growChecked_of_large alloc s hmax with hloop | habort | ⟨c, hgrow⟩
  · rw [hloop, Outcome.looping_bind] at ht
    cases ht
  · rw [habort, Outcome.aborted_bind] at ht
    cases ht
  · rw [hgrow, Outcome.returned_bind, fillLoop_outside (Nat.zero_le _) (by simp only; omega),
      Outcome.outside_bind] at ht
    cases ht

/-- A resize for which memory is granted is right exactly if it is not to 0, and the bytes of the
new capacity can be counted. -/
theorem resize_correct_iff (h : Sound s) (halloc : s.capacity < n → Granted alloc n) :
    ResizeCorrect alloc s n ↔ n ≠ 0 ∧ (n ≤ s.capacity ∨ n ≤ maxCapacity) := by
  constructor
  · rintro ⟨u, hu, -⟩
    constructor
    · rintro rfl
      rw [resize_zero h] at hu
      cases hu
    · by_contra hnot
      rw [not_or, not_le, not_le] at hnot
      exact resize_of_large h.size_le hnot.1 hnot.2 hu
  · rintro ⟨hzero, hmax⟩
    exact h.resized (Nat.pos_of_ne_zero hzero) hmax halloc

theorem resize_correct_grown :
    ResizeCorrect (fun _ ↦ some fun _ ↦ .outside 0) twoElements 12 :=
  (resize_correct_iff sound_twoElements fun _ _ _ ↦ rfl).mpr ⟨by decide, Or.inr (by decide)⟩

/-- A vector cannot be emptied. -/
theorem resize_empty_outside : ¬ ∀ (alloc : Allocator) (s : Slots) (n : ℕ), Sound s →
    (s.capacity < n → Granted alloc n) → ResizeCorrect alloc s n := by
  intro h
  have hgranted : twoElements.capacity < 0 → Granted (fun _ ↦ none) 0 :=
    fun hlt ↦ absurd hlt (Nat.not_lt_zero _)
  obtain ⟨t, ht, -⟩ := h (fun _ ↦ none) twoElements 0 sound_twoElements hgranted
  rw [resize_zero sound_twoElements] at ht
  cases ht

end Slots

end SystemProgramming.Vector
