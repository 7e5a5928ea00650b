import SystemProgramming.Vector.Refinement
import SystemProgramming.Lib.ObjectValues

/-!
# The vector as a list of values

Copies hold what their sources hold.  Read by value, a vector is a list, and its functions are
those of lists.
-/

namespace SystemProgramming.Vector

variable {V : Type}

/-- The calls on a list.  The element of a call is a value. -/
inductive ListCall (V : Type)
  | pushBack (x : V)
  | popBack
  | set (position : ℕ) (x : V)
  | insert (position : ℕ) (x : V)
  | erase (position : ℕ)
  | resize (n : ℕ)
  | reserve (n : ℕ)
  | clear

/-- New elements of `vector_resize` are default ones. -/
def ListCall.apply (fallback : V) (l : List V) : ListCall V → List V
  | .pushBack x => l ++ [x]
  | .popBack => l.dropLast
  | .set position x => l.set position x
  | .insert position x => l.insertIdx position x
  | .erase position => l.eraseIdx position
  | .resize n => l.take n ++ List.replicate (n - l.length) fallback
  | .reserve _ => l
  | .clear => []

/-- The call with the value of its element. -/
def Call.read (value : Object → Option V) : Call → Option (ListCall V)
  | .pushBack element => (value element).map .pushBack
  | .popBack => some .popBack
  | .set position element => (value element).map (.set position)
  | .insert position element => (value element).map (.insert position)
  | .erase position => some (.erase position)
  | .resize n => some (.resize n)
  | .reserve n => some (.reserve n)
  | .clear => some .clear

/-- The element of `vector_set` is not the one that is destroyed first, and nothing is inserted
behind the end. -/
def Call.Proper (v : Slots) : Call → Prop
  | .set position element => v.contents[position]? ≠ some element
  | .insert position _ => position ≤ v.size
  | _ => True

/-! ## Lists -/

section

variable {α : Type} {xs : List α} {i : ℕ}

theorem insertIdx_eq_take_append (x : α) (h : i ≤ xs.length) :
    xs.insertIdx i x = xs.take i ++ x :: xs.drop i := by
  obtain ⟨front, behind, rfl, rfl, hinsert⟩ := List.exists_of_modifyTailIdx (List.cons x) h
  rw [List.insertIdx, hinsert, List.take_left, List.drop_left]

/-- An element may go instead of its copy. -/
theorem eraseIdx_set_succ (h : i + 1 < xs.length) :
    (xs.set i xs[i + 1]).eraseIdx (i + 1) = xs.eraseIdx i := by
  apply List.ext_getElem?
  intro j
  rw [List.getElem?_eraseIdx, List.getElem?_eraseIdx]
  grind

end

/-! ## Objects and what they hold -/

section

variable (given : ℕ → V) (fallback : V)

def State.holdings (s : State) : Holdings V := Holdings.after given fallback s.trace

/-- The objects of the array hold `l`. -/
structure State.Holds (s : State) (l : List (Option V)) : Prop where
  length : (s.holdings given fallback).made.length = s.next
  copied : (s.holdings given fallback).copied = none
  nodup : s.array.Nodup
  lt_next : ∀ k ∈ s.array, k < s.next
  held : s.array.map (s.holdings given fallback).lookup = l

end

namespace State.Holds

variable {given : ℕ → V} {fallback : V} {s t : State} {l : List (Option V)} {element : Object}
  {i k n capacity : ℕ}

theorem create : Holds given fallback Vector.create [] :=
  ⟨rfl, rfl, List.nodup_nil, nofun, rfl⟩

theorem withBlock (h : Holds given fallback s l) (capacity : ℕ) :
    Holds given fallback (s.withBlock capacity) l :=
  ⟨h.length, h.copied, h.nodup, h.lt_next, h.held⟩

theorem length_eq (h : Holds given fallback s l) : l.length = s.array.length := by
  rw [← h.held, List.length_map]

theorem next_notMem (h : Holds given fallback s l) : s.next ∉ s.array :=
  fun hmem ↦ (h.lt_next _ hmem).false

theorem nodup_concat (h : Holds given fallback s l) : (s.array ++ [s.next]).Nodup :=
  h.nodup.append (List.nodup_singleton _) (by simpa using h.next_notMem)

theorem lookup_concat (h : Holds given fallback s l) (hk : k < s.next) (x : Option V) :
    Holdings.lookup ⟨(s.holdings given fallback).made ++ [x], none⟩ k =
      (s.holdings given fallback).lookup k := by
  rw [← h.length] at hk
  rw [Holdings.lookup_append_of_lt hk, Holdings.lookup]

/-- A copy takes a place in the array. -/
theorem copy (h : Holds given fallback s l) (element : Object) {array : List ℕ} (hnodup : array.Nodup)
    (harray : ∀ k ∈ array, k ∈ s.array ∨ k = s.next) :
    Holds given fallback { s.copyConstructor element with array := array }
      (array.map fun k ↦ if k = s.next then (s.holdings given fallback).value given element
        else (s.holdings given fallback).lookup k) := by
  have hafter : Holdings.after given fallback (s.copyConstructor element).trace =
      ⟨(s.holdings given fallback).made ++ [(s.holdings given fallback).value given element],
        none⟩ := Holdings.after_copy
  refine ⟨?_, ?_, hnodup, fun k hk ↦ ?_, ?_⟩
  · rw [State.holdings, hafter, List.length_append, h.length]
    rfl
  · rw [State.holdings, hafter]
  · rcases harray k hk with hold | rfl
    · exact (h.lt_next k hold).trans (Nat.lt_succ_self _)
    · exact Nat.lt_succ_self _
  · rw [State.holdings, hafter]
    refine List.map_congr_left fun k hk ↦ ?_
    split_ifs with hnew
    · rw [hnew, ← h.length, Holdings.lookup_append_self]
    · exact h.lookup_concat (h.lt_next k ((harray k hk).resolve_right hnew)) _

theorem map_old (h : Holds given fallback s l) {ks : List ℕ} (hks : ∀ k ∈ ks, k ∈ s.array)
    (x : Option V) : (ks.map fun k ↦ if k = s.next then x
      else (s.holdings given fallback).lookup k) = ks.map (s.holdings given fallback).lookup :=
  List.map_congr_left fun k hk ↦ if_neg (h.lt_next k (hks k hk)).ne

theorem append (h : Holds given fallback s l) (element : Object) :
    Holds given fallback (s.append element)
      (l ++ [(s.holdings given fallback).value given element]) := by
  have hcopy := h.copy element h.nodup_concat (by simp)
  rw [List.map_append, h.map_old (fun _ hk ↦ hk), h.held, List.map_singleton, if_pos rfl] at hcopy
  exact hcopy

theorem put (h : Holds given fallback s l) (element : Object) (i : ℕ) :
    Holds given fallback { s.copyConstructor element with array := s.array.set i s.next }
      (l.set i ((s.holdings given fallback).value given element)) := by
  have hnodup : (s.array.set i s.next).Nodup := h.nodup.set h.next_notMem
  have hcopy := h.copy element hnodup fun k hk ↦ List.mem_or_eq_of_mem_set hk
  rw [List.map_set, h.map_old (fun _ hk ↦ hk), h.held, if_pos rfl] at hcopy
  exact hcopy

theorem insert (h : Holds given fallback s l) (element : Object) (hi : i ≤ s.array.length) :
    Holds given fallback { s.copyConstructor element with array := s.array.insertIdx i s.next }
      (l.insertIdx i ((s.holdings given fallback).value given element)) := by
  have hperm := List.perm_insertIdx s.next s.array hi
  have hnodup := hperm.nodup_iff.mpr (List.nodup_cons.mpr ⟨h.next_notMem, h.nodup⟩)
  have hcopy := h.copy element hnodup fun k hk ↦ (List.mem_cons.mp (hperm.subset hk)).symm
  rw [List.map_insertIdx, h.map_old (fun _ hk ↦ hk), h.held, if_pos rfl] at hcopy
  exact hcopy

/-- Objects are destroyed that have no place in the array any more. -/
theorem destructors (h : Holds given fallback s l) {ks array : List ℕ}
    (harray : array.Sublist s.array) (hks : ∀ k ∈ array, k ∉ ks) :
    Holds given fallback { s.destructors ks with array := array }
      (array.map (s.holdings given fallback).lookup) := by
  rw [destructors_eq]
  obtain ⟨made, hafter, hlength, hkept, -⟩ :=
    Holdings.after_destroy given fallback s.trace ks
  refine ⟨?_, ?_, h.nodup.sublist harray, fun k hk ↦ h.lt_next k (harray.subset hk), ?_⟩
  · rw [State.holdings, hafter]
    exact hlength.trans h.length
  · rw [State.holdings, hafter]
    exact h.copied
  · rw [State.holdings, hafter]
    exact List.map_congr_left fun k hk ↦ hkept k (hks k hk)

/-- An object is destroyed in its place. -/
theorem destructor (h : Holds given fallback s l) (hk : s.array[i]? = some k) :
    Holds given fallback (s.destructor k) (l.set i none) ∧ ∀ o ≠ Object.made k,
      ((s.destructor k).holdings given fallback).value given o =
        (s.holdings given fallback).value given o := by
  obtain ⟨made, hafter, hlength, hkept, hgone⟩ :=
    Holdings.after_destroy given fallback s.trace [k]
  obtain ⟨hi, rfl⟩ := List.getElem?_eq_some_iff.mp hk
  have hholdings : (s.destructor s.array[i]).holdings given fallback =
      ⟨made, (s.holdings given fallback).copied⟩ := hafter
  rw [hholdings]
  constructor
  · refine ⟨?_, ?_, h.nodup, h.lt_next, ?_⟩
    · rw [hholdings]
      exact hlength.trans h.length
    · rw [hholdings]
      exact h.copied
    · rw [hholdings, ← h.held]
      refine List.ext_getElem (by simp [State.destructor]) fun j hj _ ↦ ?_
      have hj : j < s.array.length := by simpa [State.destructor] using hj
      rw [List.getElem_set, List.getElem_map, List.getElem_map]
      split_ifs with hij
      · subst hij
        exact hgone _ (List.mem_singleton_self _)
      · refine hkept _ fun hmem ↦ hij ?_
        exact ((h.nodup.getElem_inj_iff).mp (List.mem_singleton.mp hmem)).symm
  · intro o ho
    cases o with
    | made j => exact hkept j fun hmem ↦ ho (by rw [List.mem_singleton.mp hmem])
    | outside j => rfl

theorem construct (h : Holds given fallback s l) :
    Holds given fallback { s.defaultConstructor with array := s.array ++ [s.next] }
      (l ++ [some fallback]) := by
  have hafter : Holdings.after given fallback s.defaultConstructor.trace =
      ⟨(s.holdings given fallback).made ++ [some fallback], none⟩ :=
    Holdings.after_construct h.copied
  refine ⟨?_, ?_, h.nodup_concat, fun k hk ↦ ?_, ?_⟩
  · rw [State.holdings, hafter, List.length_append, h.length]
    rfl
  · rw [State.holdings, hafter]
  · rcases List.mem_append.mp hk with hk | hk
    · exact (h.lt_next k hk).trans (Nat.lt_succ_self _)
    · rw [List.mem_singleton.mp hk]
      exact Nat.lt_succ_self _
  · rw [State.holdings, hafter, List.map_append, List.map_singleton, ← h.length,
      Holdings.lookup_append_self, ← h.held]
    congr 1
    exact List.map_congr_left fun k hk ↦ h.lookup_concat (h.lt_next k hk) _

theorem fill (h : Holds given fallback s l) (n : ℕ) :
    Holds given fallback (s.fill n) (l ++ List.replicate n (some fallback)) := by
  induction n with
  | zero => simpa [State.fill] using h
  | succ n ih =>
      rw [List.replicate_succ', ← List.append_assoc]
      exact ih.construct

theorem dropLast (h : Holds given fallback s l) :
    Holds given fallback { s with array := s.array.dropLast } l.dropLast := by
  refine ⟨h.length, h.copied, h.nodup.sublist (List.dropLast_sublist _),
    fun k hk ↦ h.lt_next k (List.mem_of_mem_dropLast hk), ?_⟩
  rw [← h.held, List.map_dropLast]
  rfl

/-! ## The functions -/

theorem pushBack (h : Holds given fallback s l) {granted : Bool}
    (hpush : s.pushBack granted element = some t) (hdefined : t.undefined = false) :
    Holds given fallback t (l ++ [(s.holdings given fallback).value given element]) := by
  obtain ⟨-, c, -, rfl⟩ | ⟨-, -, rfl⟩ | ⟨-, -, rfl⟩ | ⟨-, -, rfl⟩ := pushBack_cases hpush
  · exact (h.withBlock c).append element
  · cases hdefined
  · cases hdefined
  · exact h.append element

theorem popBack (h : Holds given fallback s l) : Holds given fallback s.popBack l.dropLast := by
  unfold State.popBack
  split
  · next k hk =>
    have hlast : s.array[s.array.length - 1]? = some k := by
      rw [← List.getLast?_eq_getElem?, hk]
    have hlist : (l.set (s.array.length - 1) none).dropLast = l.dropLast := by
      rw [List.dropLast_eq_take, List.dropLast_eq_take, List.length_set,
        List.take_set_of_le (by rw [h.length_eq])]
    have hdrop := (h.destructor hlast).1.dropLast
    rw [hlist] at hdrop
    exact hdrop
  · next hk =>
    rw [List.getLast?_eq_none_iff] at hk
    have hnil : l = [] := List.length_eq_zero_iff.mp (by rw [h.length_eq, hk, List.length_nil])
    rw [hnil] at h ⊢
    exact h

theorem set (h : Holds given fallback s l) (hproper : element ∉ s.array[i]?.map Object.made)
    (hset : s.set i element = some t) : Holds given fallback t
      (l.set i ((s.holdings given fallback).value given element)) := by
  obtain ⟨k, hk, rfl⟩ := Option.map_eq_some_iff.mp hset
  obtain ⟨hdestroyed, hvalue⟩ := h.destructor hk
  have hne : element ≠ .made k := by
    rintro rfl
    rw [hk] at hproper
    exact hproper rfl
  have hput := hdestroyed.put element i
  rw [hvalue element hne, List.set_set] at hput
  exact hput

/-- In every round a copy of the next element takes the place. -/
theorem eraseLoop (h : Holds given fallback s l) (hi : i + n + 1 = l.length) :
    ∃ l', Holds given fallback (State.eraseLoop n i s) l' ∧ l'.dropLast = l.eraseIdx i := by
  induction n generalizing s l i with
  | zero => exact ⟨l, h, (List.eraseIdx_eq_dropLast hi).symm⟩
  | succ n ih =>
      have hlt : i + 1 < s.array.length := by
        rw [← h.length_eq]
        omega
      have hnext : i + 1 < l.length := by omega
      have hk : s.array[i + 1]? = some s.array[i + 1] := List.getElem?_eq_getElem hlt
      have hvalue : (s.holdings given fallback).lookup s.array[i + 1] = l[i + 1] := by
        simp only [← h.held, List.getElem_map]
      obtain ⟨l', hl', heq⟩ := ih (h.put (.made s.array[i + 1]) i) (i := i + 1)
        (by rw [List.length_set]; omega)
      refine ⟨l', by simpa only [State.eraseLoop, hk] using hl', heq.trans ?_⟩
      rw [Holdings.value, hvalue, eraseIdx_set_succ hnext]

theorem erase (h : Holds given fallback s l) (herase : s.erase i = some t) :
    Holds given fallback t (l.eraseIdx i) := by
  obtain ⟨k, hk, rfl⟩ := Option.map_eq_some_iff.mp herase
  obtain ⟨hlt, -⟩ := List.getElem?_eq_some_iff.mp hk
  obtain ⟨l', hl', heq⟩ := (h.destructor hk).1.eraseLoop
    (n := s.array.length - 1 - i) (i := i) (by rw [List.length_set, h.length_eq]; omega)
  have hdrop := hl'.dropLast
  rw [heq, List.eraseIdx_set_eq] at hdrop
  exact hdrop

theorem resize (h : Holds given fallback s l) {granted : Bool}
    (hsize : s.array.length ≤ s.capacity) (hresize : s.resize granted n = some t)
    (hdefined : t.undefined = false) :
    Holds given fallback t (l.take n ++ List.replicate (n - l.length) (some fallback)) := by
  have hlength := h.length_eq
  obtain ⟨hgt, c, -, rfl⟩ | ⟨-, -, rfl⟩ | ⟨-, -, -, rfl⟩ | ⟨-, hlt, -, rfl⟩ | ⟨-, rfl⟩ |
    ⟨-, hge, -, rfl⟩ := resize_cases hresize
  · rw [List.take_of_length_le (by omega), hlength]
    exact (h.withBlock c).fill _
  · cases hdefined
  · cases hdefined
  · rw [List.take_of_length_le (by omega), hlength]
    exact h.fill _
  · cases hdefined
  · rw [show n - l.length = 0 by omega, List.replicate_zero, List.append_nil, ← h.held,
      ← List.map_take]
    refine h.destructors (List.take_sublist _ _) fun k hk hmem ↦ ?_
    exact (List.disjoint_take_drop h.nodup le_rfl) hk (List.mem_reverse.mp hmem)

theorem reserve (h : Holds given fallback s l) (granted : Bool)
    (hdefined : (s.reserve granted n).undefined = false) :
    Holds given fallback (s.reserve granted n) l := by
  obtain ⟨-, c, -, ⟨-, heq⟩ | ⟨-, -, heq⟩ | ⟨-, -, heq⟩⟩ | ⟨-, -, heq⟩ | ⟨-, heq⟩ :=
    reserve_cases granted n s
  · exact heq ▸ h.withBlock c
  · exact heq ▸ ⟨h.length, h.copied, h.nodup, h.lt_next, h.held⟩
  · rw [heq] at hdefined
    cases hdefined
  · rw [heq] at hdefined
    cases hdefined
  · rw [heq]
    exact h

theorem clear (h : Holds given fallback s l) : Holds given fallback s.clear [] :=
  h.destructors (List.nil_sublist _) nofun

end State.Holds

/-! ## Runs -/

section

variable {given : ℕ → V} {fallback : V} {alloc : Allocator} {v w : Slots} {s : State} {e : Call}
  {op : ListCall V} {l : List V} {element : Object} {position : ℕ}

/-- The insertion of a copy, seen from the objects. -/
theorem Represents.insert (h : Represents v s)
    (hfine : (Call.insert position element).Fine alloc v) (hposition : position ≤ v.size)
    (hcall : v.insert alloc position element = .returned w) :
    Represents w ({ s.copyConstructor element with
      array := s.array.insertIdx position s.next }.withBlock w.capacity) := by
  have hsound := h.sized.sound
  have hzero : 0 < position := by
    refine Nat.pos_of_ne_zero fun hzero ↦ ?_
    subst hzero
    rcases hsound.insert_zero alloc element with hout | hloop
    · rw [hout] at hcall
      cases hcall
    · rw [hloop] at hcall
      cases hcall
  have hroom : v.size < v.capacity ∨ v.capacity < maxCapacity ∧ Granted alloc (v.capacity + 1) := by
    rcases lt_or_eq_of_le hsound.size_le with hlt | hfull
    · exact Or.inl hlt
    · obtain ⟨hmax, hgranted, -⟩ := hfine hfull
      exact Or.inr ⟨hmax, hgranted⟩
  obtain ⟨t, ht, -, -, hcontents, hnext, htrace⟩ := hsound.inserted element hzero hposition hroom
  rw [hcall] at ht
  cases ht
  refine ⟨(Slots.Follows.call (e := .insert position element) h.sized hfine hcall).sized, ?_, rfl,
    ?_, ?_, h.alive, h.defined, rfl⟩
  · simp only [State.withBlock]
    rw [hcontents, h.contents, List.map_insertIdx,
      insertIdx_eq_take_append _ (by rw [List.length_map, h.length]; exact hposition), h.next]
  · rw [hnext, h.next]
    rfl
  · simp only [State.withBlock, State.copyConstructor]
    rw [htrace, h.trace, h.next, List.append_assoc]
    rfl

/-- What the objects hold after the calls of the vector. -/
def Slots.value (given : ℕ → V) (fallback : V) (v : Slots) : Object → Option V :=
  (Holdings.after given fallback v.trace).value given

theorem Represents.value_eq (h : Represents v s) :
    v.value given fallback = (s.holdings given fallback).value given := by
  rw [Slots.value, h.trace, State.holdings]

theorem Represents.call_of_event (h : Represents v s) {event : Event}
    (hevent : e.event = some event) (hfine : e.Fine alloc v) (hcall : v.call alloc e = .returned w) :
    ∃ t, dispatch s event = some t ∧ Represents w t := by
  obtain ⟨t, ht, hw⟩ := h.call hevent hfine hcall
  have hgoes : ¬ (s.destroyed ∨ s.undefined) := by simp [h.alive, h.defined]
  rw [step, if_neg hgoes] at ht
  exact ⟨t, ht, hw⟩

/-- Every call that returns does to the values what the call on the list does. -/
theorem Represents.holds_call (h : Represents v s) (hl : s.Holds given fallback (l.map some))
    (hfine : e.Fine alloc v) (hproper : e.Proper v)
    (hread : e.read (v.value given fallback) = some op) (hcall : v.call alloc e = .returned w) :
    ∃ t, Represents w t ∧ State.Holds given fallback t ((op.apply fallback l).map some) := by
  rw [h.value_eq] at hread
  cases e with
  | pushBack element =>
      obtain ⟨x, hx, rfl⟩ := Option.map_eq_some_iff.mp hread
      obtain ⟨t, ht, hw⟩ := h.call_of_event rfl hfine hcall
      refine ⟨t, hw, ?_⟩
      rw [ListCall.apply, List.map_append, List.map_singleton, ← hx]
      exact hl.pushBack ht hw.defined
  | popBack =>
      cases hread
      obtain ⟨t, ht, hw⟩ := h.call_of_event rfl hfine hcall
      cases ht
      refine ⟨_, hw, ?_⟩
      rw [ListCall.apply, List.map_dropLast]
      exact hl.popBack
  | set position element =>
      obtain ⟨x, hx, rfl⟩ := Option.map_eq_some_iff.mp hread
      obtain ⟨t, ht, hw⟩ := h.call_of_event rfl hfine hcall
      refine ⟨t, hw, ?_⟩
      rw [ListCall.apply, List.map_set, ← hx]
      refine hl.set (fun hmem ↦ hproper ?_) ht
      obtain ⟨k, hk, rfl⟩ := Option.mem_map.mp hmem
      rw [h.contents, List.getElem?_map, hk, Option.map_some]
  | insert position element =>
      obtain ⟨x, hx, rfl⟩ := Option.map_eq_some_iff.mp hread
      refine ⟨_, h.insert hfine hproper hcall, ?_⟩
      rw [ListCall.apply, List.map_insertIdx, ← hx]
      exact (hl.insert element (hproper.trans_eq h.length.symm)).withBlock _
  | erase position =>
      cases hread
      obtain ⟨t, ht, hw⟩ := h.call_of_event rfl hfine hcall
      refine ⟨t, hw, ?_⟩
      rw [ListCall.apply, ← List.eraseIdx_map]
      exact hl.erase ht
  | resize n =>
      cases hread
      obtain ⟨t, ht, hw⟩ := h.call_of_event rfl hfine hcall
      refine ⟨t, hw, ?_⟩
      have hsize : s.array.length ≤ s.capacity := by
        rw [h.length, ← h.capacity]
        exact h.sized.size_le
      have hresize := hl.resize hsize ht hw.defined
      rw [List.length_map, ← List.map_take, ← List.map_replicate, ← List.map_append] at hresize
      exact hresize
  | reserve n =>
      cases hread
      obtain ⟨t, ht, hw⟩ := h.call_of_event rfl hfine hcall
      cases ht
      exact ⟨_, hw, hl.reserve true hw.defined⟩
  | clear =>
      cases hread
      obtain ⟨t, ht, hw⟩ := h.call_of_event rfl hfine hcall
      cases ht
      exact ⟨_, hw, hl.clear⟩

/-- A call that returns, with the call on the list that it stands for. -/
structure ValueStep (given : ℕ → V) (fallback : V) (v : Slots)
    (e : (Call × Allocator) × ListCall V) (w : Slots) : Prop where
  fine : e.1.1.Fine e.1.2 v
  proper : e.1.1.Proper v
  read : e.1.1.read (v.value given fallback) = some e.2
  step : v.step e.1 = some w

variable {fresh : ℕ → Object} {es : List ((Call × Allocator) × ListCall V)}

theorem exists_holds_of_run (hrun : Run (ValueStep given fallback) (Slots.create fresh) es v) :
    ∃ s, Represents v s ∧ State.Holds given fallback s
      (((es.map Prod.snd).foldl (ListCall.apply fallback) []).map some) := by
  induction hrun with
  | nil => exact ⟨create, .create fresh, .create⟩
  | snoc _ hlast ih =>
      obtain ⟨s, hs, hl⟩ := ih
      rw [List.map_append, List.foldl_append]
      exact hs.holds_call hl hlast.fine hlast.proper hlast.read
        (Slots.step_eq_some_iff.mp hlast.step)

/-- In every run the vector, read by value, is the list that the same calls make. -/
theorem values_of_run (hrun : Run (ValueStep given fallback) (Slots.create fresh) es v) :
    v.contents.map (v.value given fallback) =
      ((es.map Prod.snd).foldl (ListCall.apply fallback) []).map some := by
  obtain ⟨s, hs, hl⟩ := exists_holds_of_run hrun
  rw [hs.value_eq, hs.contents, List.map_map, ← hl.held]
  rfl

/-- An element of the vector is pushed once more. -/
theorem values_of_run_twice : ∃ v, Run (ValueStep id 0) (Slots.create fun _ ↦ .outside 0)
      [((.pushBack (.outside 7), fun _ ↦ none), .pushBack 7),
        ((.insert 1 (.made 0), fun _ ↦ none), .insert 1 7)] v ∧
    v.contents.map (v.value id 0) = [some 7, some 7] := by
  have hroom {s : Slots} (h : s.size ≠ s.capacity) {P : Prop} : s.size = s.capacity → P :=
    fun heq ↦ absurd heq h
  have hpush : ValueStep id 0 (Slots.create fun _ ↦ .outside 0)
      ((.pushBack (.outside 7), fun _ ↦ none), .pushBack 7)
      ⟨.made 0 :: List.replicate 7 (.outside 0), 1, 8, 1, [.copy (.outside 7), .construct 0]⟩ :=
    ⟨hroom (by decide), trivial, rfl, rfl⟩
  have hinsert : ValueStep id 0
      ⟨.made 0 :: List.replicate 7 (.outside 0), 1, 8, 1, [.copy (.outside 7), .construct 0]⟩
      ((.insert 1 (.made 0), fun _ ↦ none), .insert 1 7)
      ⟨.made 0 :: .made 1 :: List.replicate 6 (.outside 0), 2, 8, 2,
        [.copy (.outside 7), .construct 0, .copy (.made 0), .construct 1]⟩ :=
    ⟨hroom (by decide), le_refl 1, rfl, rfl⟩
  have hrun := Run.cons hpush (Run.single hinsert)
  exact ⟨_, hrun, values_of_run hrun⟩

end

end SystemProgramming.Vector
