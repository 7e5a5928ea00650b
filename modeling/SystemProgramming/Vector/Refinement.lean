import SystemProgramming.Vector.Growth

/-!
# From slots to elements

A vector of slots refines the list of its objects. Every call that follows the growth policy and
inserts nothing calls the same constructors and destructors in the same order in both.
-/

namespace SystemProgramming.Vector

/-- The elements of the vector are the objects with these numbers. -/
structure Represents (v : Slots) (s : State) : Prop where
  sized : v.Sized
  contents : v.contents = s.array.map .made
  capacity : v.capacity = s.capacity
  next : v.next = s.next
  trace : v.trace = s.trace
  alive : s.destroyed = false
  defined : s.undefined = false
  present : s.lost = false

/-- There is no event for an insertion. A reallocation is granted, as the growth policy has it. -/
def Call.event : Call → Option Event
  | .pushBack element => some (.pushBack element true)
  | .popBack => some .popBack
  | .set position element => some (.set position element)
  | .insert _ _ => none
  | .erase position => some (.erase position)
  | .resize n => some (.resize n true)
  | .reserve n => some (.reserve n true)
  | .clear => some .clear

namespace Represents

open Slots

variable {alloc : Allocator} {v w u : Slots} {s t : State} {e : Call} {event : Event}
  {element : Object} {i k n count position : ℕ}

theorem create (fresh : ℕ → Object) : Represents (Slots.create fresh) Vector.create :=
  ⟨sized_create fresh, rfl, rfl, rfl, rfl, rfl, rfl, rfl⟩

theorem length (h : Represents v s) : s.array.length = v.size := by
  have hslots := h.sized.slots
  have hsize := h.sized.size_le
  have hlength := congrArg List.length h.contents
  rw [Slots.contents, List.length_take, List.length_map] at hlength
  omega

theorem get (h : Represents v s) (hi : i < v.size) :
    ∃ k, s.array[i]? = some k ∧ v.get i = .returned (.made k) := by
  have hlt : i < s.array.length := by rwa [h.length]
  have hcontents := congrArg (fun l : List Object ↦ l[i]?) h.contents
  simp only [Slots.contents, List.getElem?_take_of_lt hi, List.getElem?_map,
    List.getElem?_eq_getElem hlt, Option.map_some] at hcontents
  refine ⟨s.array[i], List.getElem?_eq_getElem hlt, ?_⟩
  rw [Slots.get, hcontents]

/-! ## Single steps -/

theorem destructor (h : Represents v s) (k : ℕ) :
    Represents (v.destructor (.made k)) (s.destructor k) :=
  ⟨⟨h.sized.slots, h.sized.size_le, h.sized.power⟩, h.contents, h.capacity, h.next,
    by simp only [Slots.destructor, State.destructor, h.trace], h.alive, h.defined, h.present⟩

theorem copyConstructor (h : Represents v s) (element : Object) :
    Represents (v.copyConstructor element) (s.copyConstructor element) :=
  ⟨⟨h.sized.slots, h.sized.size_le, h.sized.power⟩, h.contents, h.capacity,
    congrArg Nat.succ h.next,
    by simp only [Slots.copyConstructor, State.copyConstructor, h.trace, h.next], h.alive,
    h.defined, h.present⟩

theorem put (h : Represents v s) (hput : v.put i (.made k) = .returned w) :
    Represents w { s with array := s.array.set i k } := by
  have hshape := sameShape_put hput
  obtain ⟨-, rfl⟩ := put_eq_returned hput
  refine ⟨h.sized.congr hshape h.sized.size_le, ?_, h.capacity, h.next, h.trace, h.alive,
    h.defined, h.present⟩
  have hcontents := h.contents
  rw [Slots.contents] at hcontents ⊢
  rw [List.map_set, ← hcontents, List.take_set]

theorem push (h : Represents v s) (hroom : v.size < v.capacity)
    (hput : v.put v.size (.made k) = .returned w) :
    Represents { w with size := w.size + 1 } { s with array := s.array ++ [k] } := by
  have hshape := sameShape_put hput
  obtain ⟨hlt, rfl⟩ := put_eq_returned hput
  refine ⟨h.sized.congr hshape hroom, ?_, h.capacity, h.next, h.trace, h.alive, h.defined, h.present⟩
  have hcontents := h.contents
  rw [Slots.contents] at hcontents ⊢
  simp only
  rw [List.map_append, ← hcontents, List.take_add_one, List.take_set_of_le le_rfl,
    List.getElem?_set_self hlt]
  rfl

theorem pop (h : Represents v s) :
    Represents { v with size := v.size - 1 } { s with array := s.array.dropLast } := by
  have hsize := h.sized.size_le
  have hslots := h.sized.slots
  refine ⟨h.sized.congr (SameShape.refl v) (by omega), ?_, h.capacity, h.next, h.trace, h.alive,
    h.defined, h.present⟩
  have hcontents := h.contents
  rw [Slots.contents] at hcontents ⊢
  have hlength : min (min v.size v.array.length - 1) v.size = v.size - 1 := by omega
  rw [List.map_dropLast, ← hcontents, List.dropLast_eq_take, List.take_take, List.length_take,
    hlength]

theorem prepared (h : Represents v s) (hprepared : Prepared v e u) :
    Represents u (s.withBlock u.capacity) := by
  cases hprepared with
  | same => exact ⟨h.sized, h.contents, rfl, h.next, h.trace, h.alive, h.defined, rfl⟩
  | grown htarget hlt hgrown =>
      exact ⟨hgrown.sized h.sized hlt, hgrown.contents.trans h.contents, rfl,
        hgrown.next.trans h.next, hgrown.trace.trans h.trace, h.alive, h.defined, rfl⟩

theorem withBlock_eq (h : Represents v s) : s.withBlock v.capacity = s := by
  rw [State.withBlock, h.capacity, ← h.present]

theorem reallocated (hgrown : Slots.Grown v u n) : reallocated n = some u.capacity := by
  rw [Vector.reallocated, hgrown.capacity, Option.bind_some, if_pos hgrown.sound.bytes]

/-! ## Loops -/

theorem fill (h : Represents v s) (hn : v.size < n) (hcapacity : n ≤ v.capacity)
    (hloop : fillLoop (n - v.size) v.size v = .returned w) :
    Represents { w with size := n } (s.fill (n - s.array.length)) := by
  have hshape := sameShape_fillLoop hloop
  obtain ⟨t, ht, hresized⟩ := h.sized.sound.filled hn hcapacity
  rw [hloop, Outcome.returned_bind] at ht
  cases ht
  have hlength : v.contents.length ≤ n := by
    rw [h.contents, List.length_map, h.length]
    exact hn.le
  rw [fill_eq, h.length]
  refine ⟨h.sized.congr hshape hcapacity, ?_, hshape.capacity.trans h.capacity, ?_, ?_, h.alive,
    h.defined, h.present⟩
  · rw [hresized.contents, List.take_of_length_le hlength, h.contents, h.next, List.map_append]
  · rw [hresized.next, h.next]
  · rw [hresized.trace, List.drop_of_length_le hlength, h.trace, h.next]
    simp

theorem shrink (h : Represents v s) (hzero : 0 < n) (hn : n ≤ v.size)
    (hloop : destroyLoop n v.rounds (decrement v.size) v = .returned w) :
    Represents { w with size := n }
      { s.destructors (s.array.drop n).reverse with array := s.array.take n } := by
  have hshape := sameShape_destroyLoop hloop
  obtain ⟨t, ht, hresized⟩ := h.sized.sound.destroyed hzero hn
  rw [hloop, Outcome.returned_bind] at ht
  cases ht
  have hnone : n - v.size = 0 := by omega
  rw [destructors_eq]
  refine ⟨h.sized.congr hshape (hn.trans h.sized.size_le), ?_, hshape.capacity.trans h.capacity,
    ?_, ?_, h.alive, h.defined, h.present⟩
  · rw [hresized.contents, hnone, h.contents, List.map_take]
    simp
  · rw [hresized.next, hnone, h.next]
    rfl
  · have hdestroyed : ((s.array.map Object.made).drop n).reverse.map Action.destroy =
        (s.array.drop n).reverse.map fun k ↦ .destroy (.made k) := by
      rw [← List.map_drop, ← List.map_reverse, List.map_map]
      rfl
    rw [hresized.trace, hnone, h.contents, h.trace, hdestroyed]
    simp

/-- In every round both copy the same object to the same place. -/
theorem move (h : Represents v s) (hcount : i + count < v.size)
    (hloop : moveLoop count i v = .returned w) : Represents w (State.eraseLoop count i s) := by
  induction count generalizing i v s with
  | zero =>
      cases hloop
      exact h
  | succ count ih =>
      obtain ⟨k, hk, hget⟩ := h.get (by omega : i + 1 < v.size)
      rw [moveLoop, hget, Outcome.returned_bind] at hloop
      obtain ⟨u, hput, hrest⟩ := Outcome.bind_eq_returned_iff.mp hloop
      have hsize := (sameShape_put hput).size
      rw [h.next] at hput
      have hnext := (h.copyConstructor (.made k)).put hput
      simp only [State.eraseLoop, hk]
      refine ih hnext ?_ hrest
      rw [hsize]
      simp only [Slots.copyConstructor]
      omega

theorem clearLoop_eq (h : clearLoop count i v = .returned w) :
    w = { v with trace := v.trace ++ ((v.array.drop i).take count).map .destroy } := by
  induction count generalizing i v with
  | zero =>
      cases h
      simp
  | succ count ih =>
      obtain ⟨o, hget, hrest⟩ := Outcome.bind_eq_returned_iff.mp h
      obtain ⟨hlt, ho⟩ := get_eq_returned hget
      rw [List.getElem?_eq_getElem hlt, Option.some.injEq] at ho
      rw [ih hrest, List.drop_eq_getElem_cons hlt, List.take_succ_cons, ho]
      simp [Slots.destructor]

/-! ## Calls -/

theorem pushBack (h : Represents v s) (hfine : (Call.pushBack element).Fine alloc v)
    (hcall : v.pushBack alloc element = .returned w) :
    ∃ t, s.pushBack true element = some t ∧ Represents w t := by
  obtain ⟨u, t, hprepared, hroom, hput, rfl⟩ := pushBack_returned h.sized hfine hcall
  have hu := h.prepared hprepared
  have hpush := (hu.copyConstructor element).push hroom hput
  rw [hu.next] at hpush
  refine ⟨_, ?_, hpush⟩
  cases hprepared with
  | same =>
      have hfull : s.array.length ≠ s.capacity := by
        rw [h.length, ← h.capacity]
        exact hroom.ne
      have hlost : ¬ s.lost = true := by simp [h.present]
      rw [State.pushBack, if_neg hfull, if_neg hlost, h.withBlock_eq]
      rfl
  | grown htarget hlt hgrown =>
      obtain ⟨hfull, htarget⟩ := Option.ite_none_right_eq_some.mp htarget
      cases htarget
      have hgrowth := reallocated hgrown
      rw [← h.length, h.capacity] at hfull
      rw [h.capacity] at hgrowth
      rw [State.pushBack, if_pos hfull, hgrowth]
      rfl

theorem popBack (h : Represents v s) (hcall : v.popBack = .returned w) :
    Represents w s.popBack := by
  rcases popBack_returned hcall with ⟨hsize, o, hget, rfl⟩ | ⟨hsize, rfl⟩
  · obtain ⟨k, hk, hget'⟩ := h.get (by omega : v.size - 1 < v.size)
    rw [hget] at hget'
    cases hget'
    have hlast : s.array.getLast? = some k := by
      rw [List.getLast?_eq_getElem?, h.length, hk]
    simp only [State.popBack, hlast]
    exact (h.destructor k).pop
  · have hlast : s.array.getLast? = none := by
      rw [List.getLast?_eq_none_iff, ← List.length_eq_zero_iff, h.length, hsize]
    simpa only [State.popBack, hlast] using h

theorem set (h : Represents v s) (hcall : v.set position element = .returned w) :
    ∃ t, s.set position element = some t ∧ Represents w t := by
  obtain ⟨hlt, o, hget, hput⟩ := set_returned hcall
  obtain ⟨k, hk, hget'⟩ := h.get hlt
  rw [hget] at hget'
  cases hget'
  rw [h.next] at hput
  refine ⟨_, by rw [State.set, hk, Option.map_some], ?_⟩
  exact ((h.destructor k).copyConstructor element).put hput

theorem erase (h : Represents v s) (hcall : v.erase position = .returned w) :
    ∃ t, s.erase position = some t ∧ Represents w t := by
  obtain ⟨hlt, o, u, hget, hloop, rfl⟩ := erase_returned hcall
  obtain ⟨k, hk, hget'⟩ := h.get hlt
  rw [hget] at hget'
  cases hget'
  have hmove := (h.destructor k).move (by simp only [Slots.destructor]; omega) hloop
  rw [← h.length] at hmove
  exact ⟨_, by rw [State.erase, hk, Option.map_some], hmove.pop⟩

theorem resize (h : Represents v s) (hfine : (Call.resize n).Fine alloc v)
    (hcall : v.resize alloc n = .returned w) :
    ∃ t, s.resize true n = some t ∧ Represents w t := by
  obtain ⟨u, t, hprepared, hroom, hloop, rfl⟩ := resize_returned h.sized hfine hcall
  have hu := h.prepared hprepared
  have hlength := h.length
  have hcapacity := h.capacity
  cases hprepared with
  | same =>
      have hle : ¬ n > s.capacity := by omega
      have hlost : ¬ s.lost = true := by simp [h.present]
      rcases hloop with ⟨hgt, hloop⟩ | ⟨hn, hloop⟩
      · have hgt' : n > s.array.length := by omega
        exact ⟨_, by rw [State.resize, if_neg hle, if_pos hgt', if_neg hlost],
          h.fill hgt hroom hloop⟩
      · have hn' : ¬ n > s.array.length := by omega
        exact ⟨_, by rw [State.resize, if_neg hle, if_neg hn', if_neg hfine.1],
          h.shrink (Nat.pos_of_ne_zero hfine.1) hn hloop⟩
  | grown htarget hlt hgrown =>
      cases htarget
      have hgt : n > s.capacity := by omega
      have hsize := hgrown.size
      have hle := h.sized.size_le
      rcases hloop with ⟨hn, hloop⟩ | ⟨hn, hloop⟩
      · refine ⟨_, ?_, hu.fill hn hroom hloop⟩
        rw [State.resize, if_pos hgt, reallocated hgrown]
        rfl
      · omega

theorem reserve (h : Represents v s) (hfine : (Call.reserve n).Fine alloc v)
    (hcall : v.reserve alloc n = .returned w) : Represents w (s.reserve true n) := by
  obtain ⟨hprepared, hroom⟩ := reserve_returned h.sized hfine hcall
  have hw := h.prepared hprepared
  have hcapacity := h.capacity
  cases hprepared with
  | same =>
      have hle : ¬ n > s.capacity := by omega
      simpa only [State.reserve, if_neg hle] using h
  | grown htarget hlt hgrown =>
      cases htarget
      have hgt : n > s.capacity := by omega
      rw [State.reserve, if_pos hgt, reallocated hgrown]
      exact hw

theorem clear (h : Represents v s) (hcall : v.clear = .returned w) : Represents w s.clear := by
  obtain ⟨u, hloop, hcall⟩ := Outcome.bind_eq_returned_iff.mp hcall
  cases hcall
  have hcontents := h.contents
  rw [Slots.contents] at hcontents
  rw [clearLoop_eq hloop, List.drop_zero, hcontents, h.trace, State.clear, destructors_eq]
  refine ⟨⟨h.sized.slots, Nat.zero_le _, h.sized.power⟩, rfl, h.capacity, h.next, ?_, h.alive,
    h.defined, h.present⟩
  rw [List.map_map]
  rfl

/-- Every call that returns is an event of the list of objects. -/
theorem call (h : Represents v s) (hevent : e.event = some event) (hfine : e.Fine alloc v)
    (hcall : v.call alloc e = .returned w) : ∃ t, Vector.step s event = some t ∧ Represents w t := by
  have hgoes : ¬ (s.destroyed ∨ s.undefined) := by simp [h.alive, h.defined]
  rw [Vector.step, if_neg hgoes]
  cases e with
  | pushBack element =>
      cases hevent
      exact h.pushBack hfine hcall
  | popBack =>
      cases hevent
      exact ⟨_, rfl, h.popBack hcall⟩
  | set position element =>
      cases hevent
      exact h.set hcall
  | insert position element => cases hevent
  | erase position =>
      cases hevent
      exact h.erase hcall
  | resize n =>
      cases hevent
      exact h.resize hfine hcall
  | reserve n =>
      cases hevent
      exact ⟨_, rfl, h.reserve hfine hcall⟩
  | clear =>
      cases hevent
      exact ⟨_, rfl, h.clear hcall⟩

end Represents

end SystemProgramming.Vector
