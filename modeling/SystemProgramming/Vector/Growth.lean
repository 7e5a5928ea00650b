import SystemProgramming.Vector.Operations

/-!
# The growth policy

In every run a vector has a power of two slots. The calls that grow it follow the policy as long as
the bytes of the new capacity can be counted, and `vector_reserve` and `vector_insert` get what
they ask `realloc` for.
-/

namespace SystemProgramming.Vector

inductive Call
  | pushBack (element : Object)
  | popBack
  | set (position : ℕ) (element : Object)
  | insert (position : ℕ) (element : Object)
  | erase (position : ℕ)
  | resize (n : ℕ)
  | reserve (n : ℕ)
  | clear
deriving DecidableEq

/-- The number of elements for which a call that may grow the vector needs room. -/
def Call.target (s : Slots) : Call → Option ℕ
  | .pushBack _ => if s.size = s.capacity then some (s.capacity + 1) else none
  | .insert _ _ => if s.size = s.capacity then some (s.capacity + 1) else none
  | .resize n => some n
  | .reserve n => some n
  | _ => none

namespace Slots

def call (s : Slots) (alloc : Allocator) : Call → Outcome Slots
  | .pushBack element => s.pushBack alloc element
  | .popBack => s.popBack
  | .set position element => s.set position element
  | .insert position element => s.insert alloc position element
  | .erase position => s.erase position
  | .resize n => s.resize alloc n
  | .reserve n => s.reserve alloc n
  | .clear => s.clear

/-- A call that returns, with what `realloc` answers during it. -/
def step (s : Slots) (e : Call × Allocator) : Option Slots :=
  match s.call e.2 e.1 with
  | .returned t => some t
  | _ => none

end Slots

/-- The new capacity is found and its bytes can be counted. Then the call ends with an array of the
least power of two that has room, or it reports that it got none. -/
structure GrowthLaw (alloc : Allocator) (s : Slots) (e : Call) (target : ℕ) : Prop where
  found : s.capacity < target → ∃ c, getNewCapacity target = some c ∧
    IsLeast {p | ∃ j, p = GROWTH_FACTOR ^ j ∧ target ≤ p} c ∧ c * 8 < sizeTypeRange
  after : (s.call alloc e = .aborted ∧ ¬ Granted alloc target) ∨
    ∃ t, s.call alloc e = .returned t ∧ t.size ≤ t.capacity ∧ t.array.length = t.capacity ∧
      (∃ j, t.capacity = 2 ^ j) ∧ INITIAL_CAPACITY ≤ t.capacity ∧ s.capacity ≤ t.capacity ∧
      (t.capacity ≠ s.capacity → s.capacity < target)

/-- The calls that follow the policy. -/
def Call.Fine (alloc : Allocator) (s : Slots) : Call → Prop
  | .pushBack _ => s.size = s.capacity → s.capacity < maxCapacity
  | .insert position _ => s.size = s.capacity → s.capacity < maxCapacity ∧
      Granted alloc (s.capacity + 1) ∧ 0 < position ∧ position < GROWTH_FACTOR * s.capacity
  | .resize n => n ≠ 0 ∧ n ≤ maxCapacity
  | .reserve n => s.capacity < n → n ≤ maxCapacity ∧ Granted alloc n
  | _ => True

namespace Slots

variable {alloc : Allocator} {s t : Slots} {e : Call} {target n i k fuel position : ℕ}
  {element o : Object}

/-! ## What the loops leave alone -/

/-- The array has as many slots as before, and the vector has not been told otherwise. -/
structure SameShape (s t : Slots) : Prop where
  length : t.array.length = s.array.length
  size : t.size = s.size
  capacity : t.capacity = s.capacity

theorem SameShape.refl (s : Slots) : SameShape s s := ⟨rfl, rfl, rfl⟩

theorem SameShape.trans {u : Slots} (h : SameShape s t) (h' : SameShape t u) : SameShape s u :=
  ⟨h'.length.trans h.length, h'.size.trans h.size, h'.capacity.trans h.capacity⟩

theorem sameShape_destructor (o : Object) : SameShape s (s.destructor o) := ⟨rfl, rfl, rfl⟩

theorem sameShape_copyConstructor (element : Object) : SameShape s (s.copyConstructor element) :=
  ⟨rfl, rfl, rfl⟩

theorem sameShape_defaultConstructor : SameShape s s.defaultConstructor := ⟨rfl, rfl, rfl⟩

theorem sameShape_put (h : s.put i o = .returned t) : SameShape s t := by
  obtain ⟨-, rfl⟩ := put_eq_returned h
  exact ⟨List.length_set, rfl, rfl⟩

theorem sameShape_fillLoop (h : fillLoop k i s = .returned t) : SameShape s t := by
  induction k generalizing i s with
  | zero =>
      cases h
      exact .refl _
  | succ k ih =>
      obtain ⟨u, hput, hrest⟩ := Outcome.bind_eq_returned_iff.mp h
      exact (sameShape_defaultConstructor.trans (sameShape_put hput)).trans (ih hrest)

theorem sameShape_destroyLoop (h : destroyLoop n fuel i s = .returned t) : SameShape s t := by
  induction fuel generalizing i s with
  | zero => cases h
  | succ fuel ih =>
      rw [destroyLoop] at h
      split at h
      · obtain ⟨o, -, hrest⟩ := Outcome.bind_eq_returned_iff.mp h
        exact (sameShape_destructor o).trans (ih hrest)
      · cases h
        exact .refl _

theorem sameShape_shiftLoop (h : shiftLoop position fuel i s = .returned t) : SameShape s t := by
  induction fuel generalizing i s with
  | zero => cases h
  | succ fuel ih =>
      rw [shiftLoop] at h
      split at h
      · obtain ⟨o, -, h⟩ := Outcome.bind_eq_returned_iff.mp h
        obtain ⟨u, hput, hrest⟩ := Outcome.bind_eq_returned_iff.mp h
        exact (sameShape_put hput).trans (ih hrest)
      · cases h
        exact .refl _

theorem sameShape_moveLoop (h : moveLoop k i s = .returned t) : SameShape s t := by
  induction k generalizing i s with
  | zero =>
      cases h
      exact .refl _
  | succ k ih =>
      obtain ⟨o, -, h⟩ := Outcome.bind_eq_returned_iff.mp h
      obtain ⟨u, hput, hrest⟩ := Outcome.bind_eq_returned_iff.mp h
      exact ((sameShape_copyConstructor o).trans (sameShape_put hput)).trans (ih hrest)

theorem sameShape_clearLoop (h : clearLoop k i s = .returned t) : SameShape s t := by
  induction k generalizing i s with
  | zero =>
      cases h
      exact .refl _
  | succ k ih =>
      obtain ⟨o, -, hrest⟩ := Outcome.bind_eq_returned_iff.mp h
      exact (sameShape_destructor o).trans (ih hrest)

/-! ## The invariant -/

/-- The capacity is a power of two, from the initial one to the greatest whose bytes can be
counted. -/
structure Sized (s : Slots) : Prop where
  slots : s.array.length = s.capacity
  size_le : s.size ≤ s.capacity
  power : ∃ j, 3 ≤ j ∧ j ≤ 60 ∧ s.capacity = 2 ^ j

theorem sized_create (fresh : ℕ → Object) : Sized (create fresh) :=
  ⟨by simp [create], Nat.zero_le _, 3, le_rfl, by decide, rfl⟩

theorem Sized.capacity_le (h : Sized s) : s.capacity ≤ maxCapacity := by
  obtain ⟨j, -, hj, hcapacity⟩ := h.power
  rw [hcapacity]
  exact Nat.pow_le_pow_right (by decide) hj

theorem Sized.le_capacity (h : Sized s) : INITIAL_CAPACITY ≤ s.capacity := by
  obtain ⟨j, hj, -, hcapacity⟩ := h.power
  rw [hcapacity]
  exact Nat.pow_le_pow_right (by decide : 0 < 2) hj

theorem Sized.sound (h : Sized s) : Sound s := by
  refine ⟨h.slots, h.size_le, ?_⟩
  rw [← bytes_eq h.capacity_le]
  exact Nat.mod_lt _ (by decide)

theorem Sized.congr (h : Sized s) (hshape : SameShape s t) {size : ℕ} (hsize : size ≤ s.capacity) :
    Sized { t with size := size } :=
  ⟨by rw [hshape.length, h.slots, hshape.capacity], by simpa only [hshape.capacity] using hsize,
    by simpa only [hshape.capacity] using h.power⟩

theorem Grown.sized (h : Sized s) (hgrown : Grown s t target) (htarget : s.capacity < target) :
    Sized t := by
  obtain ⟨⟨j, hj, -⟩, -⟩ := isLeast_of_getNewCapacity (by omega) hgrown.capacity
  have hpower : t.capacity = 2 ^ j := hj
  refine ⟨hgrown.sound.slots, hgrown.sound.size_le, j, ?_, ?_, hpower⟩
  · have hle : 2 ^ 3 ≤ 2 ^ j := by
      rw [← hpower]
      exact h.le_capacity.trans (htarget.le.trans hgrown.target_le)
    exact (Nat.pow_le_pow_iff_right (by decide)).mp hle
  · have hle : 2 ^ j ≤ 2 ^ 60 := by
      rw [← hpower]
      exact hgrown.capacity_le
    exact (Nat.pow_le_pow_iff_right (by decide)).mp hle

theorem Grown.of_checked (h : Sized s) (hlt : s.capacity < target) (hmax : target ≤ maxCapacity)
    (hgrow : s.growChecked alloc target = .returned t) : Grown s t target := by
  by_cases halloc : Granted alloc target
  · obtain ⟨u, hchecked, -, hgrown⟩ := h.sound.grown hlt hmax halloc
    rw [hchecked] at hgrow
    cases hgrow
    exact hgrown
  · rw [growChecked_of_refused (by omega) halloc] at hgrow
    cases hgrow

theorem Grown.of_unchecked (h : Sized s) (hlt : s.capacity < target) (hmax : target ≤ maxCapacity)
    (halloc : Granted alloc target) (hgrow : s.growUnchecked alloc target = .returned t) :
    Grown s t target := by
  obtain ⟨u, -, hunchecked, hgrown⟩ := h.sound.grown hlt hmax halloc
  rw [hunchecked] at hgrow
  cases hgrow
  exact hgrown

/-! ## Calls that have returned -/

/-- Before it stores anything, a call has given the vector the room that it needs, or has left it
alone. -/
inductive Prepared (s : Slots) (e : Call) : Slots → Prop
  | same : Prepared s e s
  | grown {t : Slots} {target : ℕ} : e.target s = some target → s.capacity < target →
      Grown s t target → Prepared s e t

theorem pushBack_returned (h : Sized s) (hfine : (Call.pushBack element).Fine alloc s)
    (hcall : s.pushBack alloc element = .returned t) :
    ∃ u v, Prepared s (.pushBack element) u ∧ u.size < u.capacity ∧
      (u.copyConstructor element).put u.size (.made u.next) = .returned v ∧
      t = { v with size := v.size + 1 } := by
  rw [Slots.pushBack] at hcall
  split at hcall
  · next hfull =>
    obtain ⟨u, hgrow, hcall⟩ := Outcome.bind_eq_returned_iff.mp hcall
    obtain ⟨v, hput, hcall⟩ := Outcome.bind_eq_returned_iff.mp hcall
    cases hcall
    have hgrown := Grown.of_checked h (Nat.lt_succ_self _) (hfine hfull) hgrow
    have hle := hgrown.target_le
    have hsize := hgrown.size
    exact ⟨u, v, .grown (if_pos hfull) (Nat.lt_succ_self _) hgrown, by omega, hput, rfl⟩
  · next hroom =>
    rw [Outcome.returned_bind] at hcall
    obtain ⟨v, hput, hcall⟩ := Outcome.bind_eq_returned_iff.mp hcall
    cases hcall
    exact ⟨s, v, .same, lt_of_le_of_ne h.size_le hroom, hput, rfl⟩

theorem insert_returned (h : Sized s) (hfine : (Call.insert position element).Fine alloc s)
    (hcall : s.insert alloc position element = .returned t) :
    ∃ u v w, Prepared s (.insert position element) u ∧ u.size < u.capacity ∧
      shiftLoop position u.rounds (decrement u.size) u = .returned v ∧
      (v.copyConstructor element).put position (.made v.next) = .returned w ∧
      t = { w with size := w.size + 1 } := by
  rw [Slots.insert] at hcall
  split at hcall
  · next hfull =>
    obtain ⟨u, hgrow, hcall⟩ := Outcome.bind_eq_returned_iff.mp hcall
    obtain ⟨v, hloop, hcall⟩ := Outcome.bind_eq_returned_iff.mp hcall
    obtain ⟨w, hput, hcall⟩ := Outcome.bind_eq_returned_iff.mp hcall
    cases hcall
    obtain ⟨hmax, halloc, -, -⟩ := hfine hfull
    have hgrown := Grown.of_unchecked h (Nat.lt_succ_self _) hmax halloc hgrow
    have hle := hgrown.target_le
    have hsize := hgrown.size
    exact ⟨u, v, w, .grown (if_pos hfull) (Nat.lt_succ_self _) hgrown, by omega, hloop, hput, rfl⟩
  · next hroom =>
    rw [Outcome.returned_bind] at hcall
    obtain ⟨v, hloop, hcall⟩ := Outcome.bind_eq_returned_iff.mp hcall
    obtain ⟨w, hput, hcall⟩ := Outcome.bind_eq_returned_iff.mp hcall
    cases hcall
    exact ⟨s, v, w, .same, lt_of_le_of_ne h.size_le hroom, hloop, hput, rfl⟩

theorem resize_returned (h : Sized s) (hfine : (Call.resize n).Fine alloc s)
    (hcall : s.resize alloc n = .returned t) :
    ∃ u v, Prepared s (.resize n) u ∧ n ≤ u.capacity ∧
      (u.size < n ∧ fillLoop (n - u.size) u.size u = .returned v ∨
        n ≤ u.size ∧ destroyLoop n u.rounds (decrement u.size) u = .returned v) ∧
      t = { v with size := n } := by
  rcases Nat.lt_or_ge s.capacity n with hgt | hle
  · rw [resize_of_gt hgt] at hcall
    obtain ⟨u, hgrow, hcall⟩ := Outcome.bind_eq_returned_iff.mp hcall
    obtain ⟨v, hloop, hcall⟩ := Outcome.bind_eq_returned_iff.mp hcall
    cases hcall
    have hgrown := Grown.of_checked h hgt hfine.2 hgrow
    have hlt : u.size < n := by
      rw [hgrown.size]
      exact h.size_le.trans_lt hgt
    exact ⟨u, v, .grown rfl hgt hgrown, hgrown.target_le, Or.inl ⟨hlt, hloop⟩, rfl⟩
  · rcases Nat.lt_or_ge s.size n with hgt | hn
    · rw [resize_of_fill hle hgt] at hcall
      obtain ⟨v, hloop, hcall⟩ := Outcome.bind_eq_returned_iff.mp hcall
      cases hcall
      exact ⟨s, v, .same, hle, Or.inl ⟨hgt, hloop⟩, rfl⟩
    · rw [resize_of_le hle hn] at hcall
      obtain ⟨v, hloop, hcall⟩ := Outcome.bind_eq_returned_iff.mp hcall
      cases hcall
      exact ⟨s, v, .same, hle, Or.inr ⟨hn, hloop⟩, rfl⟩

theorem reserve_returned (h : Sized s) (hfine : (Call.reserve n).Fine alloc s)
    (hcall : s.reserve alloc n = .returned t) : Prepared s (.reserve n) t ∧ n ≤ t.capacity := by
  rw [Slots.reserve] at hcall
  split at hcall
  · next hgt =>
    obtain ⟨hmax, halloc⟩ := hfine hgt
    have hgrown := Grown.of_unchecked h hgt hmax halloc hcall
    exact ⟨.grown rfl hgt hgrown, hgrown.target_le⟩
  · next hle =>
    cases hcall
    exact ⟨.same, not_lt.mp hle⟩

theorem popBack_returned (hcall : s.popBack = .returned t) :
    0 < s.size ∧ (∃ o, s.get (s.size - 1) = .returned o ∧
      t = { s.destructor o with size := s.size - 1 }) ∨ s.size = 0 ∧ t = s := by
  rw [popBack] at hcall
  split at hcall
  · next hsize =>
    obtain ⟨o, hget, hcall⟩ := Outcome.bind_eq_returned_iff.mp hcall
    cases hcall
    exact Or.inl ⟨hsize, o, hget, rfl⟩
  · next hsize =>
    cases hcall
    exact Or.inr ⟨Nat.eq_zero_of_not_pos hsize, rfl⟩

theorem set_returned (hcall : s.set position element = .returned t) :
    position < s.size ∧ ∃ o, s.get position = .returned o ∧
      ((s.destructor o).copyConstructor element).put position (.made s.next) = .returned t := by
  rw [set] at hcall
  split at hcall
  · cases hcall
  · next hlt => exact ⟨not_le.mp hlt, Outcome.bind_eq_returned_iff.mp hcall⟩

theorem erase_returned (hcall : s.erase position = .returned t) :
    position < s.size ∧ ∃ o v, s.get position = .returned o ∧
      moveLoop (s.size - 1 - position) position (s.destructor o) = .returned v ∧
      t = { v with size := v.size - 1 } := by
  rw [erase] at hcall
  split at hcall
  · next hlt =>
    obtain ⟨o, hget, hcall⟩ := Outcome.bind_eq_returned_iff.mp hcall
    obtain ⟨v, hloop, hcall⟩ := Outcome.bind_eq_returned_iff.mp hcall
    cases hcall
    exact ⟨hlt, o, v, hget, hloop, rfl⟩
  · cases hcall

/-! ## The capacity after a call -/

/-- What a call that returns has done to the capacity. -/
structure Follows (s t : Slots) (e : Call) : Prop where
  sized : Sized t
  capacity_le : s.capacity ≤ t.capacity
  changed : t.capacity ≠ s.capacity → ∃ target, e.target s = some target ∧ s.capacity < target

theorem Follows.of_prepared (h : Sized s) {u : Slots} (hprepared : Prepared s e u)
    (hshape : SameShape u t) {size : ℕ} (hsize : size ≤ u.capacity) :
    Follows s { t with size := size } e := by
  cases hprepared with
  | same =>
      exact ⟨h.congr hshape hsize, hshape.capacity.ge, fun hne ↦ absurd hshape.capacity hne⟩
  | @grown u target htarget hlt hgrown =>
      refine ⟨(hgrown.sized h hlt).congr hshape hsize, ?_, fun _ ↦ ⟨target, htarget, hlt⟩⟩
      rw [hshape.capacity]
      exact hlt.le.trans hgrown.target_le

theorem Follows.of_same (h : Sized s) (hshape : SameShape s t) {size : ℕ}
    (hsize : size ≤ s.capacity) : Follows s { t with size := size } e :=
  .of_prepared h .same hshape hsize

theorem Follows.call (h : Sized s) (hfine : e.Fine alloc s) (hcall : s.call alloc e = .returned t) :
    Follows s t e := by
  have hsize := h.size_le
  cases e with
  | pushBack element =>
      obtain ⟨u, v, hprepared, hroom, hput, rfl⟩ := pushBack_returned h hfine hcall
      have hshape := (sameShape_copyConstructor element).trans (sameShape_put hput)
      refine .of_prepared h hprepared hshape ?_
      rw [hshape.size]
      exact hroom
  | insert position element =>
      obtain ⟨u, v, w, hprepared, hroom, hloop, hput, rfl⟩ := insert_returned h hfine hcall
      have hshape := (sameShape_shiftLoop hloop).trans
        ((sameShape_copyConstructor element).trans (sameShape_put hput))
      refine .of_prepared h hprepared hshape ?_
      rw [hshape.size]
      exact hroom
  | resize n =>
      obtain ⟨u, v, hprepared, hroom, ⟨-, hloop⟩ | ⟨-, hloop⟩, rfl⟩ :=
        resize_returned h hfine hcall
      · exact .of_prepared h hprepared (sameShape_fillLoop hloop) hroom
      · exact .of_prepared h hprepared (sameShape_destroyLoop hloop) hroom
  | reserve n =>
      obtain ⟨hprepared, -⟩ := reserve_returned h hfine hcall
      have hsize' : t.size ≤ t.capacity := by
        cases hprepared with
        | same => exact hsize
        | grown htarget hlt hgrown => exact hgrown.sound.size_le
      exact .of_prepared h hprepared (.refl t) hsize'
  | popBack =>
      obtain ⟨-, o, -, rfl⟩ | ⟨-, rfl⟩ := popBack_returned hcall
      · exact .of_same h (sameShape_destructor o) (by omega)
      · exact .of_same h (.refl _) hsize
  | set position element =>
      obtain ⟨-, o, -, hput⟩ := set_returned hcall
      have hshape := ((sameShape_destructor o).trans (sameShape_copyConstructor element)).trans
        (sameShape_put hput)
      exact .of_same h hshape (hshape.size.trans_le hsize)
  | erase position =>
      obtain ⟨-, o, v, -, hloop, rfl⟩ := erase_returned hcall
      have hshape := (sameShape_destructor o).trans (sameShape_moveLoop hloop)
      have hvsize := hshape.size
      exact .of_same h hshape (by omega)
  | clear =>
      obtain ⟨u, hloop, hcall⟩ := Outcome.bind_eq_returned_iff.mp hcall
      cases hcall
      exact .of_same h (sameShape_clearLoop hloop) (Nat.zero_le _)

theorem step_eq_some_iff : s.step (e, alloc) = some t ↔ s.call alloc e = .returned t := by
  rw [step]
  split
  · next u hu => rw [hu, Option.some.injEq, Outcome.returned.injEq]
  · next hnot =>
    constructor
    · intro h
      cases h
    · intro h
      exact absurd h (hnot t)

theorem sized_of_run {fresh : ℕ → Object} {es : List (Call × Allocator)}
    (h : Run (Guarded (StepOf step) fun s e ↦ e.1.Fine e.2 s) (create fresh) es s) : Sized s := by
  apply h.invariant _ (sized_create fresh)
  rintro s ⟨e, alloc⟩ t hs ⟨hfine, hstep⟩
  exact (Follows.call hs hfine (step_eq_some_iff.mp hstep)).sized

/-! ## Calls that need room -/

theorem target_le_of_found (hfound : ∃ c, getNewCapacity target = some c ∧
    IsLeast {p | ∃ j, p = GROWTH_FACTOR ^ j ∧ target ≤ p} c ∧ c * 8 < sizeTypeRange) :
    target ≤ maxCapacity := by
  obtain ⟨c, hc, ⟨⟨j, -, hle⟩, -⟩, hbytes⟩ := hfound
  by_contra hlt
  have hmax := not_le.mp hlt
  have hzero := bytes_eq_zero hmax hc
  rw [Nat.mod_eq_of_lt hbytes] at hzero
  omega

theorem found_of_target_le (hpos : 0 < target) (hmax : target ≤ maxCapacity) :
    ∃ c, getNewCapacity target = some c ∧
      IsLeast {p | ∃ j, p = GROWTH_FACTOR ^ j ∧ target ≤ p} c ∧ c * 8 < sizeTypeRange := by
  obtain ⟨c, hle, hc⟩ := exists_getNewCapacity hmax
  refine ⟨c, hc, isLeast_of_getNewCapacity hpos hc, ?_⟩
  rw [← bytes_eq hle]
  exact Nat.mod_lt _ (by decide)

/-- A full vector that grows has twice as many slots afterwards. -/
theorem Grown.doubled (h : Sized s) (hgrown : Grown s t (s.capacity + 1)) :
    t.capacity = GROWTH_FACTOR * s.capacity := by
  obtain ⟨j, -, -, hj⟩ := h.power
  have hleast := isLeast_of_getNewCapacity (Nat.succ_pos _) hgrown.capacity
  have hpow : IsLeast {p | ∃ i, p = GROWTH_FACTOR ^ i ∧ s.capacity + 1 ≤ p}
      (GROWTH_FACTOR ^ (j + 1)) := isLeast_pow (fun i hi ↦ ?_) ?_
  · rw [hleast.unique hpow, hj, pow_succ']
    rfl
  · rw [hj]
    exact Nat.lt_succ_of_le (Nat.pow_le_pow_right (by decide) (Nat.le_of_lt_succ hi))
  · rw [hj]
    exact Nat.pow_lt_pow_right (by decide) (Nat.lt_succ_self j)

/-- Behind the elements nothing is moved. -/
theorem insert_behind (h : Sound s) (hroom : s.size < s.capacity) (hsize : 0 < s.size)
    (hposition : s.size < position) : s.insert alloc position element =
      ((s.copyConstructor element).put position (.made s.next) >>= fun u ↦
        .returned { u with size := u.size + 1 }) := by
  have hslots := h.slots
  have hrange := h.range
  obtain ⟨m, hm⟩ := Nat.exists_eq_succ_of_ne_zero hsize.ne'
  have hloop : shiftLoop position s.rounds (decrement s.size) s = .returned s := by
    rw [hm, decrement_succ (by omega), rounds, shiftLoop, if_neg (by omega)]
  rw [insert_of_ne hroom.ne, hloop, Outcome.returned_bind]

theorem returns_pushBack (h : Sized s) (hfull : s.size = s.capacity)
    (hmax : s.capacity < maxCapacity) :
    (s.pushBack alloc element = .aborted ∧ ¬ Granted alloc (s.capacity + 1)) ∨
      ∃ t, s.pushBack alloc element = .returned t := by
  by_cases halloc : Granted alloc (s.capacity + 1)
  · obtain ⟨t, hgrow, -, hgrown⟩ := h.sound.grown (Nat.lt_succ_self _) hmax halloc
    have hslots := hgrown.sound.slots
    have hle := hgrown.target_le
    have hsize := hgrown.size
    have hput := put_of_lt (s := t.copyConstructor element) (i := t.size)
      (by simp only [copyConstructor]; omega) (.made t.next)
    have hpush : s.pushBack alloc element =
        ((t.copyConstructor element).put t.size (.made t.next) >>= fun u ↦
          .returned { u with size := u.size + 1 }) := by
      rw [Slots.pushBack, if_pos hfull, hgrow, Outcome.returned_bind]
    right
    rw [hpush, hput, Outcome.returned_bind]
    exact ⟨_, rfl⟩
  · left
    refine ⟨?_, halloc⟩
    rw [Slots.pushBack, if_pos hfull, growChecked_of_refused (Nat.succ_pos _) halloc,
      Outcome.aborted_bind]

theorem returns_insert (h : Sized s) (hfull : s.size = s.capacity)
    (hmax : s.capacity < maxCapacity) (halloc : Granted alloc (s.capacity + 1))
    (hzero : 0 < position) (hposition : position < GROWTH_FACTOR * s.capacity) :
    ∃ t, s.insert alloc position element = .returned t := by
  rcases Nat.lt_or_ge s.size position with hgt | hle
  · obtain ⟨t, hgrown, hroom, hinsert⟩ := insert_of_grown h.sound hfull hmax halloc
    have hslots := hgrown.sound.slots
    have hdoubled := hgrown.doubled h
    have hsize := hgrown.size
    have hpos : 0 < s.capacity := lt_of_lt_of_le (by decide) h.le_capacity
    have hput := put_of_lt (s := t.copyConstructor element) (i := position)
      (by simp only [copyConstructor]; omega) (.made t.next)
    rw [hinsert, insert_behind hgrown.sound hroom (by omega) (by omega), hput,
      Outcome.returned_bind]
    exact ⟨_, rfl⟩
  · obtain ⟨t, ht, -⟩ := h.sound.inserted element hzero hle (Or.inr ⟨hmax, halloc⟩)
    exact ⟨t, ht⟩

theorem returns_resize (h : Sized s) (hzero : n ≠ 0) (hmax : n ≤ maxCapacity) :
    (s.resize alloc n = .aborted ∧ ¬ Granted alloc n) ∨ ∃ t, s.resize alloc n = .returned t := by
  by_cases hrefused : s.capacity < n ∧ ¬ Granted alloc n
  · left
    refine ⟨?_, hrefused.2⟩
    rw [resize_of_gt hrefused.1, growChecked_of_refused (Nat.pos_of_ne_zero hzero) hrefused.2,
      Outcome.aborted_bind]
  · right
    have halloc : s.capacity < n → Granted alloc n := by
      intro hlt
      by_contra hnot
      exact hrefused ⟨hlt, hnot⟩
    obtain ⟨t, ht, -⟩ := h.sound.resized (Nat.pos_of_ne_zero hzero) (Or.inr hmax) halloc
    exact ⟨t, ht⟩

theorem returns_reserve (h : Sized s) (hfine : (Call.reserve n).Fine alloc s) :
    ∃ t, s.reserve alloc n = .returned t := by
  rw [Slots.reserve]
  split
  · next hgt =>
    obtain ⟨hmax, halloc⟩ := hfine hgt
    obtain ⟨t, -, hgrow, -⟩ := h.sound.grown hgt hmax halloc
    exact ⟨t, hgrow⟩
  · exact ⟨s, rfl⟩

theorem target_le_of_fine (hfine : e.Fine alloc s) (htarget : e.target s = some target)
    (hlt : s.capacity < target) : target ≤ maxCapacity := by
  cases e with
  | pushBack element =>
      obtain ⟨hfull, htarget⟩ := Option.ite_none_right_eq_some.mp htarget
      cases htarget
      exact hfine hfull
  | insert position element =>
      obtain ⟨hfull, htarget⟩ := Option.ite_none_right_eq_some.mp htarget
      cases htarget
      exact (hfine hfull).1
  | resize n =>
      cases htarget
      exact hfine.2
  | reserve n =>
      cases htarget
      exact (hfine hlt).1
  | popBack => cases htarget
  | set position element => cases htarget
  | erase position => cases htarget
  | clear => cases htarget

theorem returns_call (h : Sized s) (hfine : e.Fine alloc s) (htarget : e.target s = some target) :
    (s.call alloc e = .aborted ∧ ¬ Granted alloc target) ∨ ∃ t, s.call alloc e = .returned t := by
  cases e with
  | pushBack element =>
      obtain ⟨hfull, htarget⟩ := Option.ite_none_right_eq_some.mp htarget
      cases htarget
      exact returns_pushBack h hfull (hfine hfull)
  | insert position element =>
      obtain ⟨hfull, htarget⟩ := Option.ite_none_right_eq_some.mp htarget
      obtain ⟨hmax, halloc, hzero, hposition⟩ := hfine hfull
      exact Or.inr (returns_insert h hfull hmax halloc hzero hposition)
  | resize n =>
      cases htarget
      exact returns_resize h hfine.1 hfine.2
  | reserve n => exact Or.inr (returns_reserve h hfine)
  | popBack => cases htarget
  | set position element => cases htarget
  | erase position => cases htarget
  | clear => cases htarget

end Slots

/-! ## Calls that do not follow the policy -/

section

open Slots

variable {alloc : Allocator} {s : Slots} {e : Call} {target n position : ℕ} {element : Object}

theorem GrowthLaw.target_le (h : GrowthLaw alloc s e target) (hlt : s.capacity < target) :
    target ≤ maxCapacity :=
  target_le_of_found (h.found hlt)

theorem GrowthLaw.ends (h : GrowthLaw alloc s e target) :
    s.call alloc e ≠ .outside ∧ s.call alloc e ≠ .looping := by
  rcases h.after with ⟨habort, -⟩ | ⟨t, ht, -⟩
  · rw [habort]
    exact ⟨nofun, nofun⟩
  · rw [ht]
    exact ⟨nofun, nofun⟩

theorem GrowthLaw.fine_insert (hsized : s.Sized) (hfull : s.size = s.capacity)
    (h : GrowthLaw alloc s (.insert position element) (s.capacity + 1)) :
    s.capacity < maxCapacity ∧ Granted alloc (s.capacity + 1) ∧ 0 < position ∧
      position < GROWTH_FACTOR * s.capacity := by
  have hmax : s.capacity < maxCapacity := h.target_le (Nat.lt_succ_self _)
  have halloc : Granted alloc (s.capacity + 1) := by
    by_contra hnot
    rcases insert_of_not position element hfull (fun hcan ↦ hnot hcan.2) with hloop | hout
    · exact h.ends.2 hloop
    · exact h.ends.1 hout
  refine ⟨hmax, halloc, ?_, ?_⟩
  · apply Nat.pos_of_ne_zero
    rintro rfl
    rcases hsized.sound.insert_zero alloc element with hout | hloop
    · exact h.ends.1 hout
    · exact h.ends.2 hloop
  · by_contra hge
    obtain ⟨t, hgrown, hroom, hinsert⟩ := insert_of_grown hsized.sound hfull hmax halloc
    have hslots := hgrown.sound.slots
    have hdoubled := hgrown.doubled hsized
    have hsize := hgrown.size
    have hpos : 0 < s.capacity := lt_of_lt_of_le (by decide) hsized.le_capacity
    have hput := put_of_le (s := t.copyConstructor element) (i := position)
      (by simp only [copyConstructor]; omega) (.made t.next)
    apply h.ends.1
    rw [Slots.call, hinsert, insert_behind hgrown.sound hroom (by omega) (by omega), hput,
      Outcome.outside_bind]

theorem GrowthLaw.fine_resize (hsized : s.Sized) (h : GrowthLaw alloc s (.resize n) n) :
    n ≠ 0 ∧ n ≤ maxCapacity := by
  constructor
  · rintro rfl
    have hzero : s.resize alloc 0 = .outside := resize_zero hsized.sound
    exact h.ends.1 hzero
  · rcases Nat.lt_or_ge s.capacity n with hlt | hle
    · exact h.target_le hlt
    · exact hle.trans hsized.capacity_le

theorem GrowthLaw.fine_reserve (h : GrowthLaw alloc s (.reserve n) n) (hlt : s.capacity < n) :
    n ≤ maxCapacity ∧ Granted alloc n := by
  refine ⟨h.target_le hlt, ?_⟩
  by_contra hnot
  have hreserve : s.call alloc (.reserve n) = s.growUnchecked alloc n := if_pos hlt
  rcases growUnchecked_of_not (s := s) (by omega : 0 < n) (fun hcan ↦ hnot hcan.2) with
    hloop | ⟨c, hc, hgrow⟩
  · exact h.ends.2 (hreserve.trans hloop)
  · rcases h.after with ⟨habort, -⟩ | ⟨t, ht, -, hslots, -⟩
    · rw [hreserve, hgrow] at habort
      cases habort
    · -- the array is `NULL` and has no slots
      rw [hreserve, hgrow] at ht
      cases ht
      have hempty : 0 = c := hslots
      omega

/-- In every run whose calls meet the condition, a call that needs room follows the policy exactly
if it meets the condition. -/
theorem growthLaw_iff {fresh : ℕ → Object} {es : List (Call × Allocator)}
    (hrun : Run (Guarded (StepOf Slots.step) fun s e ↦ e.1.Fine e.2 s) (Slots.create fresh) es s)
    (htarget : e.target s = some target) : GrowthLaw alloc s e target ↔ e.Fine alloc s := by
  have hsized := sized_of_run hrun
  constructor
  · intro h
    cases e with
    | pushBack element =>
        obtain ⟨hfull, htarget⟩ := Option.ite_none_right_eq_some.mp htarget
        cases htarget
        exact fun _ ↦ h.target_le (Nat.lt_succ_self _)
    | insert position element =>
        obtain ⟨hfull, htarget⟩ := Option.ite_none_right_eq_some.mp htarget
        cases htarget
        exact fun _ ↦ h.fine_insert hsized hfull
    | resize n =>
        cases htarget
        exact h.fine_resize hsized
    | reserve n =>
        cases htarget
        exact h.fine_reserve
    | popBack => cases htarget
    | set position element => cases htarget
    | erase position => cases htarget
    | clear => cases htarget
  · intro hfine
    refine ⟨fun hlt ↦ found_of_target_le (by omega) (target_le_of_fine hfine htarget hlt), ?_⟩
    rcases returns_call hsized hfine htarget with haborted | ⟨t, ht⟩
    · exact Or.inl haborted
    · have hfollows := Follows.call hsized hfine ht
      have htsized := hfollows.sized
      obtain ⟨j, -, -, hpower⟩ := htsized.power
      refine Or.inr ⟨t, ht, htsized.size_le, htsized.slots, ⟨j, hpower⟩, htsized.le_capacity,
        hfollows.capacity_le, fun hne ↦ ?_⟩
      obtain ⟨target', htarget', hlt⟩ := hfollows.changed hne
      rw [htarget] at htarget'
      cases htarget'
      exact hlt

theorem growthLaw_reserve : ∃ s,
    Slots.step (Slots.create fun _ ↦ .outside 0) (.pushBack (.outside 5), fun _ ↦ none) = some s ∧
      GrowthLaw (fun _ ↦ some fun _ ↦ .outside 0) s (.reserve 9) 9 := by
  obtain ⟨s, hs⟩ : ∃ s, Slots.step (Slots.create fun _ ↦ .outside 0)
      (.pushBack (.outside 5), fun _ ↦ none) = some s := ⟨_, rfl⟩
  have hfine : (Call.pushBack (.outside 5)).Fine (fun _ ↦ none)
      (Slots.create fun _ ↦ .outside 0) := fun hfull ↦ absurd hfull (by decide)
  have hrun : Run (Guarded (StepOf Slots.step) fun s e ↦ e.1.Fine e.2 s)
      (Slots.create fun _ ↦ .outside 0) [(.pushBack (.outside 5), fun _ ↦ none)] s :=
    Run.single ⟨hfine, hs⟩
  exact ⟨s, hs, (growthLaw_iff hrun rfl).mpr fun _ ↦ ⟨by decide, fun _ _ ↦ rfl⟩⟩

/-- The bytes of a capacity of `2 ^ 61` are counted as 0. -/
theorem reserve_miscounted : ¬ ∀ (alloc : Allocator) (fresh : ℕ → Object)
    (es : List (Call × Allocator)) (s : Slots) (e : Call) (target : ℕ),
    Run (StepOf Slots.step) (Slots.create fresh) es s → e.target s = some target →
      GrowthLaw alloc s e target := by
  intro h
  have hlaw := h (fun _ ↦ none) (fun _ ↦ .outside 0) [] _ (.reserve (maxCapacity + 1)) _ .nil rfl
  have hlt : (Slots.create fun _ ↦ .outside 0).capacity < maxCapacity + 1 := by decide
  have hle := hlaw.target_le hlt
  omega

end

end SystemProgramming.Vector
