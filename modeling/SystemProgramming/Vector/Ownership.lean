import SystemProgramming.Vector.Model

/-!
# Who destroys the elements of a vector

A vector destroys what it has constructed exactly once, unless an element is erased in front of
others, an element is set to itself, an empty vector is resized to 0, a capacity overflows, or the
array has been lost.
-/

namespace SystemProgramming.Vector

variable {s t : State} {e : Event} {n i k : ℕ}

/-! ## Capacities -/

def maxCapacity : ℕ := 2 ^ 60

theorem le_of_newCapacityLoop {target c n cap : ℕ} (h : newCapacityLoop target n cap = some c) :
    target ≤ c := by
  induction n generalizing cap with
  | zero =>
      rw [newCapacityLoop, Option.ite_none_left_eq_some] at h
      exact (Option.some.inj h.2) ▸ not_lt.mp h.1
  | succ n ih =>
      rw [newCapacityLoop] at h
      split at h
      · exact ih h
      · next hge => exact (Option.some.inj h) ▸ not_lt.mp hge

/-- The product is a power of two, as long as it does not overflow. -/
theorem newCapacityLoop_pow {target c n cap : ℕ} (hcap : cap = 0 ∨ ∃ j, cap = 2 ^ j)
    (h : newCapacityLoop target n cap = some c) : c = 0 ∨ ∃ j, c = 2 ^ j := by
  induction n generalizing cap with
  | zero =>
      rw [newCapacityLoop, Option.ite_none_left_eq_some] at h
      exact (Option.some.inj h.2) ▸ hcap
  | succ n ih =>
      rw [newCapacityLoop] at h
      split at h
      · apply ih _ h
        obtain rfl | ⟨j, rfl⟩ := hcap
        · exact .inl rfl
        · rw [GROWTH_FACTOR, sizeTypeRange, ← pow_succ]
          rcases lt_or_ge (j + 1) 64 with hj | hj
          · exact .inr ⟨j + 1, Nat.mod_eq_of_lt (Nat.pow_lt_pow_right (by decide) hj)⟩
          · exact .inl (Nat.mod_eq_zero_of_dvd (Nat.pow_dvd_pow 2 hj))
      · exact (Option.some.inj h) ▸ hcap

theorem exists_newCapacityLoop {target n j : ℕ} (htarget : target ≤ maxCapacity) (hj : j ≤ 60)
    (hn : n + j = 64) : ∃ c ≤ maxCapacity, newCapacityLoop target n (2 ^ j) = some c := by
  induction n generalizing j with
  | zero => omega
  | succ n ih =>
      rw [newCapacityLoop]
      split
      · next hlt =>
        have hj' : j < 60 := by
          by_contra hge
          obtain rfl : j = 60 := by omega
          exact absurd (hlt.trans_le htarget) (lt_irrefl _)
        have hpow : 2 ^ j * GROWTH_FACTOR % sizeTypeRange = 2 ^ (j + 1) := by
          rw [GROWTH_FACTOR, sizeTypeRange, ← pow_succ]
          exact Nat.mod_eq_of_lt (Nat.pow_lt_pow_right (by decide) (by omega))
        rw [hpow]
        exact ih (by omega) (by omega)
      · exact ⟨2 ^ j, Nat.pow_le_pow_right (by decide) hj, rfl⟩

theorem le_of_reallocated {c : ℕ} (hn : 0 < n) (h : reallocated n = some c) :
    n ≤ c ∧ c ≤ maxCapacity := by
  obtain ⟨c', hloop, hif⟩ := Option.bind_eq_some_iff.mp h
  rw [Option.ite_none_right_eq_some, Option.some.injEq] at hif
  obtain ⟨hlt, rfl⟩ := hif
  have hle := le_of_newCapacityLoop hloop
  refine ⟨hle, ?_⟩
  obtain rfl | ⟨j, rfl⟩ := newCapacityLoop_pow (.inr ⟨0, rfl⟩) hloop
  · omega
  · rw [sizeTypeRange, show 8 = 2 ^ 3 from rfl, ← pow_add] at hlt
    have hj := (Nat.pow_lt_pow_iff_right (by decide)).mp hlt
    exact Nat.pow_le_pow_right (by decide) (by omega)

theorem exists_reallocated (h : n ≤ maxCapacity) : ∃ c, reallocated n = some c := by
  obtain ⟨c, hc, hloop⟩ := exists_newCapacityLoop h (Nat.zero_le 60) rfl
  refine ⟨c, ?_⟩
  have hbytes : c * 8 < sizeTypeRange := by
    rw [maxCapacity] at hc
    rw [sizeTypeRange]
    omega
  rw [reallocated, getNewCapacity, ← pow_zero 2, hloop, Option.bind_some, if_pos hbytes]

theorem reallocated_eq_none (h : maxCapacity < n) : reallocated n = none := by
  by_contra hne
  obtain ⟨c, hc⟩ := Option.ne_none_iff_exists'.mp hne
  have hle := le_of_reallocated (by omega) hc
  omega

/-! ## What a call leaves alone -/

/-- Only objects of the vector are destroyed, and only these and new ones are stored. -/
structure Extends (s t : State) : Prop where
  next_le : s.next ≤ t.next
  trace_prefix : s.trace <+: t.trace
  destroyed : ∀ k < s.next, k ∉ s.array → Action.destroy (.made k) ∉ s.trace →
    Action.destroy (.made k) ∉ t.trace
  stored : ∀ k < s.next, k ∉ s.array → k ∉ t.array

theorem Extends.refl (s : State) : Extends s s :=
  ⟨le_rfl, List.prefix_rfl, fun _ _ _ ↦ id, fun _ _ ↦ id⟩

theorem Extends.trans {u : State} (h : Extends s t) (h' : Extends t u) : Extends s u := by
  refine ⟨h.next_le.trans h'.next_le, h.trace_prefix.trans h'.trace_prefix, ?_, ?_⟩
  · intro k hk harray htrace
    exact h'.destroyed k (hk.trans_le h.next_le) (h.stored k hk harray)
      (h.destroyed k hk harray htrace)
  · intro k hk harray
    exact h'.stored k (hk.trans_le h.next_le) (h.stored k hk harray)

theorem destructors_eq (s : State) (ks : List ℕ) : s.destructors ks =
    { s with trace := s.trace ++ ks.map fun k ↦ .destroy (.made k) } := by
  induction ks generalizing s with
  | nil => simp [State.destructors]
  | cons k ks ih =>
      have hrest := ih (s.destructor k)
      rw [State.destructors] at hrest ⊢
      rw [List.foldl_cons, hrest]
      simp [State.destructor]

theorem fill_eq (s : State) (n : ℕ) : s.fill n =
    { s with
      array := s.array ++ List.range' s.next n
      next := s.next + n
      trace := s.trace ++ (List.range' s.next n).map .construct } := by
  induction n with
  | zero => simp [State.fill]
  | succ n ih =>
      rw [State.fill, ih]
      simp [State.defaultConstructor, List.range'_1_concat, Nat.add_assoc]

theorem extends_destructors {ks : List ℕ} (hks : ∀ k ∈ ks, k ∈ s.array) {array : List ℕ}
    (harray : ∀ k ∈ array, k ∈ s.array) :
    Extends s { s.destructors ks with array := array } := by
  rw [destructors_eq]
  refine ⟨le_rfl, List.prefix_append _ _, ?_, fun k _ hk hmem ↦ hk (harray k hmem)⟩
  intro k _ hk htrace hmem
  rcases List.mem_append.mp hmem with hmem | hmem
  · exact htrace hmem
  · obtain ⟨k', hk', heq⟩ := List.mem_map.mp hmem
    obtain rfl : k' = k := by simpa using heq
    exact hk (hks k' hk')

theorem extends_destructor {k : ℕ} (hk : k ∈ s.array) {array : List ℕ}
    (harray : ∀ k ∈ array, k ∈ s.array) : Extends s { s.destructor k with array := array } := by
  have hks : ∀ k' ∈ [k], k' ∈ s.array := by simpa using hk
  exact extends_destructors hks harray

theorem extends_copyConstructor (element : Object) {array : List ℕ}
    (harray : ∀ k ∈ array, k ∈ s.array ∨ k = s.next) :
    Extends s { s.copyConstructor element with array := array } := by
  refine ⟨Nat.le_succ _, (List.prefix_append _ _).trans (List.prefix_append _ _), ?_, ?_⟩
  · intro k _ _ htrace
    simpa [State.copyConstructor] using htrace
  · intro k hlt hk hmem
    rcases harray k hmem with hmem | rfl
    · exact hk hmem
    · exact hlt.false

theorem extends_append (s : State) (element : Object) : Extends s (s.append element) := by
  apply extends_copyConstructor
  intro k hk
  simpa using hk

theorem extends_fill (s : State) (n : ℕ) : Extends s (s.fill n) := by
  rw [fill_eq]
  refine ⟨Nat.le_add_right _ _, List.prefix_append _ _, ?_, ?_⟩
  · intro k _ _ htrace
    simpa using htrace
  · intro k hlt hk hmem
    rcases List.mem_append.mp hmem with hmem | hmem
    · exact hk hmem
    · have hge := (List.mem_range'_1.mp hmem).1
      exact absurd hlt hge.not_gt

/-- Erasing copies elements to the front. The last copy is the original of the one before it. -/
theorem extends_eraseLoop (n i : ℕ) (s : State) : Extends s (State.eraseLoop n i s) := by
  induction n generalizing i s with
  | zero => exact .refl s
  | succ n ih =>
      rw [State.eraseLoop]
      split
      · next k hk =>
        apply Extends.trans _ (ih (i + 1) _)
        apply extends_copyConstructor
        intro k' hk'
        exact List.mem_or_eq_of_mem_set hk'
      · exact .refl s

theorem Extends.dropLast (h : Extends s t) : Extends s { t with array := t.array.dropLast } :=
  ⟨h.next_le, h.trace_prefix, h.destroyed, fun k hk harray hmem ↦
    h.stored k hk harray (List.mem_of_mem_dropLast hmem)⟩

theorem Extends.flags (h : Extends s t) (capacity : ℕ) (destroyed undefined lost : Bool) :
    Extends s { t with
      capacity := capacity, destroyed := destroyed, undefined := undefined, lost := lost } :=
  ⟨h.next_le, h.trace_prefix, h.destroyed, h.stored⟩

theorem extends_undefined (s : State) : Extends s { s with undefined := true } :=
  (Extends.refl s).flags _ _ _ _

theorem extends_withBlock (s : State) (capacity : ℕ) : Extends s (s.withBlock capacity) :=
  (Extends.refl s).flags _ _ _ _

/-! ## What the functions come to -/

/-- What a full vector does first. -/
theorem pushBack_cases {granted : Bool} {element : Object}
    (h : s.pushBack granted element = some t) :
    (s.array.length = s.capacity ∧ ∃ c, reallocated (s.capacity + 1) = some c ∧
        t = (s.withBlock c).append element) ∨
      (s.array.length = s.capacity ∧ reallocated (s.capacity + 1) = none ∧
        t = { s with undefined := true }) ∨
      (s.array.length ≠ s.capacity ∧ s.lost = true ∧ t = { s with undefined := true }) ∨
      (s.array.length ≠ s.capacity ∧ s.lost = false ∧ t = s.append element) := by
  unfold State.pushBack at h
  split at h
  · next hfull =>
    split at h
    · next c hc =>
      obtain ⟨-, h⟩ := Option.ite_none_right_eq_some.mp h
      exact .inl ⟨hfull, c, hc, (Option.some.inj h).symm⟩
    · next hnone => exact .inr (.inl ⟨hfull, hnone, (Option.some.inj h).symm⟩)
  · next hroom =>
    split at h
    · next hlost => exact .inr (.inr (.inl ⟨hroom, hlost, (Option.some.inj h).symm⟩))
    · next hlost =>
      exact .inr (.inr (.inr ⟨hroom, by simpa using hlost, (Option.some.inj h).symm⟩))

/-- The cases of `vector_resize`, in the order of the source. -/
theorem resize_cases {granted : Bool} (h : s.resize granted n = some t) :
    (s.capacity < n ∧ ∃ c, reallocated n = some c ∧
        t = (s.withBlock c).fill (n - s.array.length)) ∨
      (s.capacity < n ∧ reallocated n = none ∧ t = { s with undefined := true }) ∨
      (n ≤ s.capacity ∧ s.array.length < n ∧ s.lost = true ∧ t = { s with undefined := true }) ∨
      (n ≤ s.capacity ∧ s.array.length < n ∧ s.lost = false ∧
        t = s.fill (n - s.array.length)) ∨
      (n = 0 ∧ t = { s with undefined := true }) ∨
      (n ≤ s.capacity ∧ n ≤ s.array.length ∧ n ≠ 0 ∧
        t = { s.destructors (s.array.drop n).reverse with array := s.array.take n }) := by
  unfold State.resize at h
  split at h
  · next hgt =>
    split at h
    · next c hc =>
      obtain ⟨-, h⟩ := Option.ite_none_right_eq_some.mp h
      exact .inl ⟨hgt, c, hc, (Option.some.inj h).symm⟩
    · next hnone => exact .inr (.inl ⟨hgt, hnone, (Option.some.inj h).symm⟩)
  · next hcap =>
    have hcap := not_lt.mp hcap
    split_ifs at h with hlt hlost hzero
    · exact .inr (.inr (.inl ⟨hcap, hlt, hlost, (Option.some.inj h).symm⟩))
    · exact .inr (.inr (.inr (.inl ⟨hcap, hlt, by simpa using hlost, (Option.some.inj h).symm⟩)))
    · exact .inr (.inr (.inr (.inr (.inl ⟨hzero, (Option.some.inj h).symm⟩))))
    · exact .inr (.inr (.inr (.inr (.inr ⟨hcap, not_lt.mp hlt, hzero,
        (Option.some.inj h).symm⟩))))

/-- The cases of `vector_reserve`, in the order of the source. -/
theorem reserve_cases (granted : Bool) (n : ℕ) (s : State) :
    (s.capacity < n ∧ ∃ c, reallocated n = some c ∧
        (granted = true ∧ s.reserve granted n = s.withBlock c ∨
          granted = false ∧ s.array = [] ∧
            s.reserve granted n = { s with capacity := c, lost := true } ∨
          granted = false ∧ s.array ≠ [] ∧ s.reserve granted n = { s with undefined := true })) ∨
      (s.capacity < n ∧ reallocated n = none ∧
        s.reserve granted n = { s with undefined := true }) ∨
      (n ≤ s.capacity ∧ s.reserve granted n = s) := by
  unfold State.reserve
  by_cases hgt : n > s.capacity
  · rw [if_pos hgt]
    cases hc : reallocated n with
    | none => exact .inr (.inl ⟨hgt, rfl, rfl⟩)
    | some c =>
        refine .inl ⟨hgt, c, rfl, ?_⟩
        cases granted
        · by_cases hnil : s.array = [] <;> simp [hnil]
        · simp
  · exact .inr (.inr ⟨not_lt.mp hgt, if_neg hgt⟩)

theorem extends_of_step (h : step s e = some t) : Extends s t := by
  rw [step, Option.ite_none_left_eq_some] at h
  obtain ⟨-, h⟩ := h
  cases e with
  | pushBack element granted =>
      obtain ⟨-, c, -, rfl⟩ | ⟨-, -, rfl⟩ | ⟨-, -, rfl⟩ | ⟨-, -, rfl⟩ := pushBack_cases h
      · exact (extends_withBlock s c).trans (extends_append _ element)
      · exact extends_undefined s
      · exact extends_undefined s
      · exact extends_append s element
  | popBack =>
      obtain rfl := Option.some.inj h
      rw [State.popBack]
      split
      · next k hk =>
        exact extends_destructor (List.mem_of_getLast? hk) fun k hk ↦ List.mem_of_mem_dropLast hk
      · exact .refl s
  | set position element =>
      obtain ⟨k, hk, rfl⟩ := Option.map_eq_some_iff.mp h
      have hdestroy : Extends s (s.destructor k) :=
        extends_destructor (List.mem_of_getElem? hk) fun _ ↦ id
      apply hdestroy.trans
      apply extends_copyConstructor
      intro k' hk'
      exact List.mem_or_eq_of_mem_set hk'
  | erase position =>
      obtain ⟨k, hk, rfl⟩ := Option.map_eq_some_iff.mp h
      have hdestroy : Extends s (s.destructor k) :=
        extends_destructor (List.mem_of_getElem? hk) fun _ ↦ id
      exact (hdestroy.trans (extends_eraseLoop _ _ _)).dropLast
  | resize n granted =>
      obtain ⟨-, c, -, rfl⟩ | ⟨-, -, rfl⟩ | ⟨-, -, -, rfl⟩ | ⟨-, -, -, rfl⟩ | ⟨-, rfl⟩ |
        ⟨-, -, -, rfl⟩ := resize_cases h
      · exact (extends_withBlock s c).trans (extends_fill _ _)
      · exact extends_undefined s
      · exact extends_undefined s
      · exact extends_fill s _
      · exact extends_undefined s
      · apply extends_destructors
        · intro k hk
          exact List.mem_of_mem_drop (List.mem_reverse.mp hk)
        · exact fun k hk ↦ List.mem_of_mem_take hk
  | reserve n granted =>
      obtain rfl := Option.some.inj h
      obtain ⟨-, c, -, ⟨-, heq⟩ | ⟨-, -, heq⟩ | ⟨-, -, heq⟩⟩ | ⟨-, -, heq⟩ | ⟨-, heq⟩ :=
        reserve_cases granted n s
      · exact heq ▸ extends_withBlock s c
      · exact heq ▸ (Extends.refl s).flags _ _ _ _
      · exact heq ▸ extends_undefined s
      · exact heq ▸ extends_undefined s
      · rw [heq]
        exact .refl s
  | clear =>
      obtain rfl := Option.some.inj h
      exact extends_destructors (fun _ ↦ id) (by simp)
  | destroy =>
      obtain rfl := Option.some.inj h
      have hclear : Extends s s.clear := extends_destructors (fun _ ↦ id) (by simp)
      exact hclear.flags _ true _ _

/-! ## Calls that keep the books -/

/-- The calls that do not go wrong: nothing but the last element is erased, no element is set to
itself, no empty vector is resized to 0, and capacities do not overflow. No `vector_reserve` of a
vector with elements is refused, and nothing is stored where the array was lost. -/
def Fine (s : State) : Event → Prop
  | .pushBack _ _ =>
      if s.array.length = s.capacity then s.capacity < maxCapacity else s.lost = false
  | .set position element => element ∉ s.array[position]?.map Object.made
  | .erase position => s.array.length ≤ position + 1
  | .resize n _ => n ≠ 0 ∧ n ≤ maxCapacity ∧ (s.lost = true → s.capacity < n)
  | .reserve n granted =>
      n ≤ maxCapacity ∧ (granted = false → s.capacity < n → s.array = [])
  | _ => True

instance decidableFine (s : State) : (e : Event) → Decidable (Fine s e)
  | .pushBack _ _ => inferInstanceAs (Decidable (if s.array.length = s.capacity then _ else _))
  | .popBack => isTrue trivial
  | .set position element =>
      inferInstanceAs (Decidable (element ∉ s.array[position]?.map Object.made))
  | .erase position => inferInstanceAs (Decidable (s.array.length ≤ position + 1))
  | .resize n _ => inferInstanceAs (Decidable (n ≠ 0 ∧ n ≤ maxCapacity ∧ _))
  | .reserve n granted => inferInstanceAs (Decidable (n ≤ maxCapacity ∧ (granted = false → _)))
  | .clear => isTrue trivial
  | .destroy => isTrue trivial

/-- The elements are the live objects. -/
structure Good (s : State) : Prop where
  ledger : Ledger s.trace s.array s.next
  size_le : s.array.length ≤ s.capacity
  capacity_le : s.capacity ≤ maxCapacity
  defined : s.undefined = false
  ended : s.destroyed = true → s.array = []
  kept : s.lost = true → s.array = []

theorem good_create : Good create :=
  ⟨Ledger.nil, Nat.zero_le _, by decide, rfl, fun _ ↦ rfl, fun _ ↦ rfl⟩

/-- An element that may be passed is live, or was not made by the vector. -/
theorem ledger_copy {trace : List Action} {live : List ℕ} {next : ℕ} {element : Object}
    (h : Ledger trace live next) (helement : ∀ k, element = .made k → k ∈ live) :
    Ledger (trace ++ [.copy element]) live next := by
  cases element with
  | made k => exact h.copyMade (helement k rfl)
  | outside k => exact h.copyOutside k

theorem mem_of_passable {element : Object} (h : Passable s element) :
    ∀ k, element = .made k → k ∈ s.array := by
  rintro k rfl
  exact h

theorem Good.withBlock (h : Good s) {c : ℕ} (hsize : s.array.length ≤ c) (hc : c ≤ maxCapacity) :
    Good (s.withBlock c) := by
  refine ⟨h.ledger, hsize, hc, h.defined, h.ended, ?_⟩
  intro hlost
  cases hlost

theorem Good.append (h : Good s) {element : Object} (hpass : Passable s element)
    (hroom : s.array.length < s.capacity) (hlost : s.lost = false)
    (hdestroyed : s.destroyed = false) : Good (s.append element) := by
  have hledger := (ledger_copy h.ledger (mem_of_passable hpass)).construct.perm
    (List.perm_append_singleton s.next s.array).symm
  refine ⟨hledger, ?_, h.capacity_le, h.defined, ?_, ?_⟩
  · rw [State.append, List.length_append, List.length_singleton]
    exact hroom
  · intro hd
    exact absurd (hdestroyed.symm.trans hd) (by simp)
  · intro hl
    exact absurd (hlost.symm.trans hl) (by simp)

theorem Good.pushBack (h : Good s) {element : Object} {granted : Bool}
    (hpass : Passable s element) (hfine : Fine s (.pushBack element granted))
    (hdestroyed : s.destroyed = false) (hpush : s.pushBack granted element = some t) : Good t := by
  obtain ⟨hfull, c, hc, rfl⟩ | ⟨hfull, hnone, rfl⟩ | ⟨hfull, hlost, rfl⟩ | ⟨hfull, hlost, rfl⟩ :=
    pushBack_cases hpush
  · obtain ⟨hle, hmax⟩ := le_of_reallocated (Nat.succ_pos _) hc
    exact (h.withBlock (by omega) hmax).append hpass (by simp only [State.withBlock]; omega) rfl
      hdestroyed
  · rw [Fine, if_pos hfull] at hfine
    obtain ⟨c, hc⟩ := exists_reallocated (n := s.capacity + 1) hfine
    exact absurd (hnone.symm.trans hc) (by simp)
  · rw [Fine, if_neg hfull] at hfine
    exact absurd (hfine.symm.trans hlost) (by simp)
  · exact h.append hpass (lt_of_le_of_ne h.size_le hfull) hlost hdestroyed

theorem Good.popBack (h : Good s) (hdestroyed : s.destroyed = false) : Good s.popBack := by
  rw [State.popBack]
  split
  · next k hk =>
    obtain ⟨init, hinit⟩ := List.getLast?_eq_some_iff.mp hk
    have hledger := h.ledger
    rw [hinit] at hledger
    have hsize := h.size_le
    rw [hinit, List.length_append, List.length_singleton] at hsize
    simp only [hinit, List.dropLast_concat]
    refine ⟨(hledger.perm (List.perm_append_singleton k init)).destroy, Nat.le_of_succ_le hsize,
      h.capacity_le, h.defined, ?_, ?_⟩
    · intro hd
      exact absurd (hdestroyed.symm.trans hd) (by simp)
    · intro hlost
      exact absurd (hinit.symm.trans (h.kept hlost)) (by simp)
  · exact h

theorem Good.set (h : Good s) {position : ℕ} {element : Object} (hpass : Passable s element)
    (hfine : Fine s (.set position element)) (hdestroyed : s.destroyed = false)
    (hset : s.set position element = some t) : Good t := by
  obtain ⟨k, hk, rfl⟩ := Option.map_eq_some_iff.mp hset
  obtain ⟨hlt, rfl⟩ := List.getElem?_eq_some_iff.mp hk
  have hsplit : s.array.Perm (s.array[position] :: s.array.eraseIdx position) :=
    (List.getElem_cons_eraseIdx_perm hlt).symm
  have hne : element ≠ .made s.array[position] := by
    rintro rfl
    simp [Fine, hk] at hfine
  have hrest : ∀ k, element = .made k → k ∈ s.array.eraseIdx position := by
    rintro k rfl
    have hmem := hsplit.subset (mem_of_passable hpass k rfl)
    rcases List.mem_cons.mp hmem with rfl | hmem
    · exact absurd rfl hne
    · exact hmem
  have hledger := (ledger_copy (h.ledger.perm hsplit).destroy hrest).construct
  refine ⟨hledger.perm (List.set_perm_cons_eraseIdx hlt s.next).symm, ?_, h.capacity_le, h.defined,
    ?_, ?_⟩
  · rw [List.length_set]
    exact h.size_le
  · intro hd
    exact absurd (hdestroyed.symm.trans hd) (by simp)
  · intro hlost
    simp only [h.kept hlost, List.set_nil]

/-- No element is copied when the last one is erased. -/
theorem Good.erase (h : Good s) {position : ℕ} (hfine : Fine s (.erase position))
    (hdestroyed : s.destroyed = false) (herase : s.erase position = some t) : Good t := by
  obtain ⟨k, hk, rfl⟩ := Option.map_eq_some_iff.mp herase
  obtain ⟨hlt, rfl⟩ := List.getElem?_eq_some_iff.mp hk
  have hlast : s.array.length = position + 1 := le_antisymm hfine hlt
  have hnone : s.array.length - 1 - position = 0 := by omega
  have hgetLast : s.array.getLast? = some s.array[position] := by
    rw [List.getLast?_eq_getElem?, ← hk]
    congr 1
    omega
  have hgood := h.popBack hdestroyed
  rw [State.popBack, hgetLast] at hgood
  rw [hnone]
  exact hgood

theorem Good.fill (h : Good s) (hn : s.array.length ≤ n) (hc : n ≤ s.capacity)
    (hlost : s.lost = false) (hdestroyed : s.destroyed = false) :
    Good (s.fill (n - s.array.length)) := by
  rw [fill_eq]
  refine ⟨h.ledger.constructAll _, ?_, h.capacity_le, h.defined, ?_, ?_⟩
  · simp only [List.length_append, List.length_range']
    omega
  · intro hd
    exact absurd (hdestroyed.symm.trans hd) (by simp)
  · intro hl
    exact absurd (hlost.symm.trans hl) (by simp)

theorem Good.resize (h : Good s) {granted : Bool} (hsize : s.array.length ≤ n)
    (hfine : Fine s (.resize n granted)) (hdestroyed : s.destroyed = false)
    (hresize : s.resize granted n = some t) : Good t := by
  obtain ⟨hpos, hle, hstored⟩ := hfine
  obtain ⟨hgt, c, hc, rfl⟩ | ⟨hgt, hnone, rfl⟩ | ⟨hcap, hlt, hlost, rfl⟩ | ⟨hcap, hlt, hlost, rfl⟩ |
    ⟨hzero, rfl⟩ | ⟨hcap, hge, hne, rfl⟩ := resize_cases hresize
  · obtain ⟨hnc, hmax⟩ := le_of_reallocated (Nat.pos_of_ne_zero hpos) hc
    exact (h.withBlock (hsize.trans hnc) hmax).fill hsize hnc rfl hdestroyed
  · obtain ⟨c, hc⟩ := exists_reallocated hle
    exact absurd (hnone.symm.trans hc) (by simp)
  · exact absurd (hstored hlost) hcap.not_gt
  · exact h.fill hsize hcap hlost hdestroyed
  · exact absurd hzero hpos
  · have heq : s.array.length = n := le_antisymm hsize hge
    rw [List.drop_eq_nil_of_le heq.le, List.take_of_length_le heq.le]
    exact h

theorem Good.reserve (h : Good s) {granted : Bool} (hfine : Fine s (.reserve n granted)) :
    Good (s.reserve granted n) := by
  obtain ⟨hle, hrefused⟩ := hfine
  obtain ⟨hgt, c, hc, hcase⟩ | ⟨hgt, hnone, -⟩ | ⟨-, heq⟩ := reserve_cases granted n s
  · obtain ⟨hnc, hmax⟩ := le_of_reallocated (by omega) hc
    have hsize : s.array.length ≤ c := h.size_le.trans (hgt.le.trans hnc)
    obtain ⟨-, heq⟩ | ⟨-, hnil, heq⟩ | ⟨hgranted, hne, -⟩ := hcase
    · exact heq ▸ h.withBlock hsize hmax
    · exact heq ▸ ⟨h.ledger, hsize, hmax, h.defined, h.ended, fun _ ↦ hnil⟩
    · exact absurd (hrefused hgranted hgt) hne
  · obtain ⟨c, hc⟩ := exists_reallocated hle
    exact absurd (hnone.symm.trans hc) (by simp)
  · rw [heq]
    exact h

theorem Good.clear (h : Good s) : Good s.clear := by
  have hledger := h.ledger
  rw [← List.append_nil s.array] at hledger
  rw [State.clear, destructors_eq]
  exact ⟨hledger.destroyAll, Nat.zero_le _, h.capacity_le, h.defined, fun _ ↦ rfl, fun _ ↦ rfl⟩

theorem Good.destroy (h : Good s) : Good s.destroy := by
  have hclear := h.clear
  exact ⟨hclear.ledger, hclear.size_le, hclear.capacity_le, hclear.defined, fun _ ↦ rfl,
    fun _ ↦ rfl⟩

theorem Good.step (h : Good s) (hadm : Admissible s e) (hfine : Fine s e)
    (hstep : Vector.step s e = some t) : Good t := by
  rw [Vector.step, Option.ite_none_left_eq_some] at hstep
  obtain ⟨hlive, hstep⟩ := hstep
  have hdestroyed : s.destroyed = false := by
    by_contra hd
    exact hlive (.inl (by simpa using hd))
  cases e with
  | pushBack element granted => exact h.pushBack hadm hfine hdestroyed hstep
  | popBack => exact Option.some.inj hstep ▸ h.popBack hdestroyed
  | set position element => exact h.set hadm hfine hdestroyed hstep
  | erase position => exact h.erase hfine hdestroyed hstep
  | resize n granted => exact h.resize hadm hfine hdestroyed hstep
  | reserve n granted => exact Option.some.inj hstep ▸ h.reserve hfine
  | clear => exact Option.some.inj hstep ▸ h.clear
  | destroy => exact Option.some.inj hstep ▸ h.destroy

/-! ## Calls that go wrong -/

/-- Something was used after its destruction, or an object is out of reach of the destructor. -/
def Doomed (s : State) : Prop :=
  s.undefined = true ∨ ¬ NoUseAfterDestroy s.trace ∨
    ∃ k < s.next, Action.construct k ∈ s.trace ∧ k ∉ s.array ∧
      Action.destroy (.made k) ∉ s.trace

theorem Doomed.step (h : Doomed s) (hstep : Vector.step s e = some t) : Doomed t := by
  have hext := extends_of_step hstep
  rw [Vector.step, Option.ite_none_left_eq_some] at hstep
  obtain hundef | huse | ⟨k, hk, hconstruct, harray, hdestroy⟩ := h
  · exact absurd (.inr hundef) hstep.1
  · exact .inr (.inl fun hnot ↦ huse (hnot.sublist hext.trace_prefix.sublist))
  · exact .inr (.inr ⟨k, hk.trans_le hext.next_le, hext.trace_prefix.subset hconstruct,
      hext.stored k hk harray, hext.destroyed k hk harray hdestroy⟩)

theorem Doomed.not_owned (h : Doomed s) : ¬ (s.undefined = false ∧ OwnedTrace s.trace) := by
  rintro ⟨hdefined, howned⟩
  obtain hundef | huse | ⟨k, -, hconstruct, -, hdestroy⟩ := h
  · exact absurd (hdefined.symm.trans hundef) (by simp)
  · exact huse howned.noUse
  · have hcount := howned.once k hconstruct
    rw [List.count_eq_zero.mpr hdestroy] at hcount
    exact absurd hcount (by decide)

/-- The element is destroyed and then copied. -/
theorem doomed_set {position : ℕ} {element : Object}
    (helement : element ∈ s.array[position]?.map Object.made)
    (hset : s.set position element = some t) : Doomed t := by
  obtain ⟨k, hk, rfl⟩ := Option.map_eq_some_iff.mp hset
  obtain rfl : element = .made k := by simpa [hk, eq_comm] using helement
  refine .inr (.inl fun hno ↦ ?_)
  simp only [State.copyConstructor, State.destructor] at hno
  rw [List.append_assoc, List.append_assoc] at hno
  have hpair := (List.pairwise_append.mp hno).2.1
  simp [Action.Uses] at hpair

/-- What the loop leaves in front of the last element is new from position `i` on. -/
theorem eraseLoop_array (h : i + n + 1 = s.array.length) :
    ∀ k ∈ (State.eraseLoop n i s).array.dropLast, k ∈ s.array.take i ∨ s.next ≤ k := by
  induction n generalizing i s with
  | zero =>
      intro k hk
      rw [State.eraseLoop, List.dropLast_eq_take, ← h] at hk
      exact .inl hk
  | succ n ih =>
      have hlt : i + 1 < s.array.length := by omega
      intro k hk
      rw [State.eraseLoop, List.getElem?_eq_getElem hlt] at hk
      rcases ih (by simp only [List.length_set]; omega) k hk with hk | hk
      · rw [List.take_add_one, List.take_set_of_le (le_refl i), List.getElem?_set_self (by omega)] at hk
        rcases List.mem_append.mp hk with hk | hk
        · exact .inl hk
        · exact .inr (by simpa using hk : k = s.next).ge
      · exact .inr (Nat.le_of_succ_le hk)

theorem eraseLoop_destroy {o : Object} :
    Action.destroy o ∈ (State.eraseLoop n i s).trace ↔ Action.destroy o ∈ s.trace := by
  induction n generalizing i s with
  | zero => rfl
  | succ n ih =>
      rw [State.eraseLoop]
      split
      · rw [ih]
        simp [State.copyConstructor]
      · rfl

/-- The element behind the one that is erased is overwritten by its copy. -/
theorem doomed_erase (h : Good s) {position : ℕ} (hlt : position + 1 < s.array.length)
    (herase : s.erase position = some t) (hext : Extends s t) : Doomed t := by
  obtain ⟨k, hk, rfl⟩ := Option.map_eq_some_iff.mp herase
  obtain ⟨hposition, rfl⟩ := List.getElem?_eq_some_iff.mp hk
  have hlive : s.array[position + 1] ∈ s.array := List.getElem_mem hlt
  have hnext := h.ledger.lt_next _ hlive
  have hnodup := h.ledger.nodup
  refine .inr (.inr ⟨s.array[position + 1], hnext.trans_le hext.next_le,
    hext.trace_prefix.subset (h.ledger.construct_mem_iff.mpr hnext), ?_, ?_⟩)
  · intro hmem
    have hlength : position + (s.array.length - 1 - position) + 1 = s.array.length := by omega
    rcases eraseLoop_array (s := s.destructor s.array[position]) hlength _ hmem with hmem | hge
    · obtain ⟨j, hj, heq⟩ := List.mem_take_iff_getElem.mp hmem
      have hj' := hnodup.getElem_inj_iff.mp heq
      omega
    · exact absurd hnext hge.not_gt
  · rw [eraseLoop_destroy, State.destructor, List.mem_append, List.mem_singleton,
      Action.destroy.injEq, Object.made.injEq, hnodup.getElem_inj_iff]
    exact fun hmem ↦ hmem.elim (h.ledger.not_destroyed hlive) (by omega)

theorem Good.doomed (h : Good s) (hadm : Admissible s e) (hfine : ¬ Fine s e)
    (hstep : Vector.step s e = some t) : Doomed t := by
  have hext := extends_of_step hstep
  rw [Vector.step, Option.ite_none_left_eq_some] at hstep
  obtain ⟨-, hstep⟩ := hstep
  cases e with
  | pushBack element granted =>
      obtain ⟨hfull, c, hc, rfl⟩ | ⟨-, -, rfl⟩ | ⟨-, -, rfl⟩ | ⟨hfull, hlost, rfl⟩ :=
        pushBack_cases hstep
      · rw [Fine, if_pos hfull, not_lt] at hfine
        rw [reallocated_eq_none (by omega)] at hc
        cases hc
      · exact .inl rfl
      · exact .inl rfl
      · rw [Fine, if_neg hfull] at hfine
        exact absurd hlost hfine
  | popBack => exact absurd trivial hfine
  | set position element => exact doomed_set (not_not.mp hfine) hstep
  | erase position => exact doomed_erase h (not_le.mp hfine) hstep hext
  | resize n granted =>
      obtain ⟨hgt, c, hc, rfl⟩ | ⟨-, -, rfl⟩ | ⟨-, -, -, rfl⟩ | ⟨hcap, hlt, hlost, rfl⟩ | ⟨-, rfl⟩ |
        ⟨hcap, hge, hzero, rfl⟩ := resize_cases hstep
      · refine absurd ⟨by omega, ?_, fun _ ↦ hgt⟩ hfine
        by_contra hle
        rw [reallocated_eq_none (not_le.mp hle)] at hc
        cases hc
      · exact .inl rfl
      · exact .inl rfl
      · exact absurd ⟨by omega, hcap.trans h.capacity_le, by simp [hlost]⟩ hfine
      · exact .inl rfl
      · refine absurd ⟨hzero, hcap.trans h.capacity_le, fun hlost ↦ ?_⟩ hfine
        rw [h.kept hlost, List.length_nil] at hge
        omega
  | reserve n granted =>
      obtain rfl := Option.some.inj hstep
      obtain ⟨hgt, c, hc, hcase⟩ | ⟨-, -, heq⟩ | ⟨hcap, -⟩ := reserve_cases granted n s
      · have hle : n ≤ maxCapacity := by
          by_contra hle
          rw [reallocated_eq_none (not_le.mp hle)] at hc
          cases hc
        obtain ⟨hgranted, -⟩ | ⟨-, hnil, -⟩ | ⟨-, -, heq⟩ := hcase
        · exact absurd ⟨hle, by simp [hgranted]⟩ hfine
        · exact absurd ⟨hle, fun _ _ ↦ hnil⟩ hfine
        · exact .inl (heq ▸ rfl)
      · exact .inl (heq ▸ rfl)
      · exact absurd ⟨hcap.trans h.capacity_le, fun _ hgt ↦ absurd hgt hcap.not_gt⟩ hfine
  | clear => exact absurd trivial hfine
  | destroy => exact absurd trivial hfine

/-! ## Runs -/

theorem good_or_doomed {es : List Event}
    (hrun : Run (Guarded (StepOf Vector.step) Admissible) create es s) :
    (Run (Guarded (StepOf Vector.step) fun s e ↦ Admissible s e ∧ Fine s e) create es s ∧
      Good s) ∨ Doomed s := by
  induction hrun with
  | nil => exact .inl ⟨Run.nil, good_create⟩
  | @snoc s t es e _ hlast ih =>
      obtain ⟨hadm, hstep⟩ := hlast
      rcases ih with ⟨hfines, hgood⟩ | hdoomed
      · by_cases hfine : Fine s e
        · exact .inl ⟨hfines.snoc ⟨⟨hadm, hfine⟩, hstep⟩, hgood.step hadm hfine hstep⟩
        · exact .inr (hgood.doomed hadm hfine hstep)
      · exact .inr (hdoomed.step hstep)

/-- A vector that has been destroyed has destroyed its objects exactly once, has used none after
that, and has destroyed nothing else, exactly if none of the calls went wrong. -/
theorem owned_iff_fine {es : List Event}
    (hrun : Run (Guarded (StepOf Vector.step) Admissible) create es s)
    (hend : s.destroyed = true ∨ s.undefined = true) :
    s.undefined = false ∧ OwnedTrace s.trace ↔
      Run (Guarded (StepOf Vector.step) fun s e ↦ Admissible s e ∧ Fine s e) create es s := by
  constructor
  · intro howned
    rcases good_or_doomed hrun with ⟨hfines, -⟩ | hdoomed
    · exact hfines
    · exact absurd howned hdoomed.not_owned
  · intro hfines
    have hgood : Good s :=
      hfines.invariant (fun _ _ _ h hstep ↦ h.step hstep.1.1 hstep.1.2 hstep.2) good_create
    have hdestroyed : s.destroyed = true :=
      hend.resolve_right fun hundef ↦ absurd (hgood.defined.symm.trans hundef) (by simp)
    have hledger := hgood.ledger
    rw [hgood.ended hdestroyed] at hledger
    exact ⟨hgood.defined, hledger.owned⟩

/-- A reallocation of the empty vector is refused before one is granted. Later elements of the
vector are passed to it, and the last one is erased. -/
theorem owned_iff_fine_aliased :
    ∃ s, Run (Guarded (StepOf Vector.step) Admissible) create
        [.reserve 9 false, .reserve 20 true, .pushBack (.outside 0) true, .pushBack (.made 0) true,
          .set 0 (.made 1), .erase 1, .resize 3 true, .popBack, .destroy] s ∧
      s.undefined = false ∧ OwnedTrace s.trace := by
  have hexec : (execute (guarded Vector.step fun s e ↦ Admissible s e ∧ Fine s e) create
      [.reserve 9 false, .reserve 20 true, .pushBack (.outside 0) true, .pushBack (.made 0) true,
        .set 0 (.made 1), .erase 1, .resize 3 true, .popBack, .destroy]).map State.destroyed = some true := by decide +kernel
  obtain ⟨s, hs, hdestroyed⟩ := Option.map_eq_some_iff.mp hexec
  have hfines := Run.execute_guarded_eq_some_iff.mp hs
  have hrun : Run (Guarded (StepOf Vector.step) Admissible) create
      [.reserve 9 false, .reserve 20 true, .pushBack (.outside 0) true, .pushBack (.made 0) true,
        .set 0 (.made 1), .erase 1, .resize 3 true, .popBack, .destroy] s := hfines.mono fun _ _ _ h ↦ ⟨h.1.1, h.2⟩
  exact ⟨s, hrun, (owned_iff_fine hrun (.inl hdestroyed)).mpr hfines⟩

/-- After the first of two elements is erased, the second one is not destroyed any more. -/
theorem erase_leaks :
    ¬ ∀ es s, Run (Guarded (StepOf Vector.step) Admissible) create es s → s.destroyed = true →
      OwnedTrace s.trace := by
  intro h
  have hexec : (execute (guarded Vector.step Admissible) create
      [.pushBack (.outside 0) true, .pushBack (.outside 1) true, .erase 0, .destroy]).map
        (fun s ↦ (s.destroyed, s.trace)) =
      some (true, [.copy (.outside 0), .construct 0, .copy (.outside 1), .construct 1,
        .destroy (.made 0), .copy (.made 1), .construct 2, .destroy (.made 2)]) := by decide +kernel
  obtain ⟨s, hs, hfields⟩ := Option.map_eq_some_iff.mp hexec
  obtain ⟨hdestroyed, htrace⟩ := Prod.mk.inj hfields
  have howned := h _ s (Run.execute_guarded_eq_some_iff.mp hs) hdestroyed
  have hcount := howned.once 1 (by rw [htrace]; decide)
  rw [htrace] at hcount
  exact absurd hcount (by decide)

end SystemProgramming.Vector
