import SystemProgramming.Malloc.Calls

/-!
# Runs of the client

The live pointers of the client have blocks of their own in every run whose requests fit.
-/

namespace SystemProgramming.Malloc

namespace System

variable {s t : System} {base p n : ℕ} {e : Call × Answers} {mem : Bytes}
  {es : List (Call × Answers)}

instance (s : System) : ∀ call, Decidable (s.Legal call)
  | .malloc _ => inferInstanceAs (Decidable (_ < _))
  | .calloc _ _ => inferInstanceAs (Decidable (_ ∧ _))
  | .realloc ptr size => decidable_of_iff (size < 2 ^ 64 ∧ ∀ p ∈ ptr, s.live p ≠ none) Iff.rfl
  | .free ptr => decidable_of_iff (∀ p ∈ ptr, s.live p ≠ none) Iff.rfl
  | .write ptr offset bytes =>
    decidable_of_iff (∃ n ∈ s.live ptr, offset + bytes.length ≤ n) Iff.rfl

/-- The requests of the call fit, and no product wraps around. -/
def Fits (s : System) (e : Call × Answers) : Prop :=
  match e.1 with
  | .malloc size => s.heap.Fits size e.2
  | .calloc num size => num * size < 2 ^ 64 ∧ s.heap.Fits (num * size) e.2
  | .realloc none size => s.heap.Fits size e.2
  | .realloc (some ptr) size =>
    size ≠ 0 → ((s.heap.combineNext (ptr - META)).header (ptr - META)).size < size →
      (s.heap.combineNext (ptr - META)).Fits size e.2
  | .free _ => True
  | .write _ _ _ => True

instance (s : System) : ∀ e, Decidable (s.Fits e)
  | (.malloc _, _) => inferInstanceAs (Decidable (Heap.Fits _ _ _))
  | (.calloc _ _, _) => inferInstanceAs (Decidable (_ ∧ _))
  | (.realloc none _, _) => inferInstanceAs (Decidable (Heap.Fits _ _ _))
  | (.realloc (some _) _, _) => inferInstanceAs (Decidable (_ → _ → _))
  | (.free _, _) => .isTrue trivial
  | (.write _ _ _, _) => .isTrue trivial

def Ok (s : System) (e : Call × Answers) : Prop := s.Legal e.1 ∧ s.Fits e

instance (s : System) (e : Call × Answers) : Decidable (s.Ok e) :=
  inferInstanceAs (Decidable (_ ∧ _))

/-- The blocks are in order, and every live pointer has one of them. -/
structure Inv (base : ℕ) (s : System) (blocks : List ℕ) (lists : ℕ → List ℕ) : Prop where
  heap : s.heap.Inv base blocks lists
  owned : ∀ p n, s.live p = some n → s.heap.Owned blocks p n

theorem Inv.init (hpos : 0 < base) (hlt : base < 2 ^ 63) (mem : Bytes) :
    Inv base (System.init base mem) [] fun _ ↦ [] where
  heap := ⟨hpos, hlt, rfl, by simp, by simp, ⟨fun _ ↦ rfl, by simp, by simp⟩, by simp⟩
  owned _ _ h := by cases h

section Live

variable {heap heap' : Heap} {blocks blocks' : List ℕ} {live : ℕ → Option ℕ} {r : Option ℕ}
  {size : ℕ}

theorem owned_allocate (hlive : ∀ p n, live p = some n → heap.Owned blocks p n)
    (hr : ∀ p, r = some p → heap.Owned blocks p size) :
    ∀ p n, allocate live size r p = some n → heap.Owned blocks p n := by
  intro p n hp
  cases r with
  | none => exact hlive p n hp
  | some q =>
    rw [allocate, Function.update_apply] at hp
    split at hp
    · next heq =>
      obtain rfl := Option.some.inj hp
      exact heq ▸ hr q rfl
    · exact hlive p n hp

theorem owned_release (hlive : ∀ p n, live p = some n → heap.Owned blocks p n)
    (hk : heap.Keeps {p - META} blocks heap' blocks') (hp : live p = some n) :
    ∀ q m, release live (some p) q = some m → heap'.Owned blocks' q m := by
  intro q m hq
  rw [release, Function.update_apply] at hq
  split at hq
  · cases hq
  · next hne => exact (hk.owned (hlive q m hq) ((hlive q m hq).header_ne (hlive p n hp) hne)).1

end Live

theorem exec_realloc {ptr r : Option ℕ} {size : ℕ} {answers : Answers} {heap : Heap}
    (heq : s.heap.realloc ptr size answers = some (heap, r)) :
    s.exec (.realloc ptr size, answers) = some ⟨heap,
      allocate (if size ≠ 0 ∧ r = none then s.live else release s.live ptr) size r⟩ := by
  simp only [exec, heq, Option.bind_eq_bind, Option.bind_some, Option.pure_def]

/-- A call that fits returns, and the invariant holds again. -/
theorem Inv.exec {blocks : List ℕ} {lists : ℕ → List ℕ} (hs : s.Inv base blocks lists)
    (hok : s.Ok e) : ∃ t blocks' lists', s.exec e = some t ∧ t.Inv base blocks' lists' := by
  obtain ⟨hlegal, hfits⟩ := hok
  have hkept : ∀ {heap' blocks'}, s.heap.Keeps ∅ blocks heap' blocks' →
      ∀ p n, s.live p = some n → heap'.Owned blocks' p n :=
    fun hk p n hp ↦ (hk.owned (hs.owned p n hp) (Set.notMem_empty _)).1
  obtain ⟨call, answers⟩ := e
  cases call with
  | malloc size =>
    obtain ⟨heap', r, blocks', lists', heq, hs', hk', hr⟩ := hs.heap.malloc hfits
    refine ⟨⟨heap', allocate s.live size r⟩, blocks', lists', by simp [System.exec, heq], hs', ?_⟩
    exact owned_allocate (hkept hk') fun p hp ↦ (hr p hp).1
  | calloc num size =>
    obtain ⟨heap', r, blocks', lists', heq, hs', hk', hr⟩ := hs.heap.calloc hfits.1 hfits.2
    refine ⟨⟨heap', allocate s.live (num * size) r⟩, blocks', lists', by simp [System.exec, heq],
      hs', ?_⟩
    exact owned_allocate (hkept hk') fun p hp ↦ (hr p hp).1
  | realloc ptr size =>
    cases ptr with
    | none =>
      obtain ⟨heap', r, blocks', lists', heq, hs', hk', hr⟩ := hs.heap.malloc hfits
      refine ⟨_, blocks', lists', exec_realloc heq, hs', ?_⟩
      refine owned_allocate ?_ fun p hp ↦ (hr p hp).1
      split
      · exact hkept hk'
      · exact hkept hk'
    | some p =>
      obtain ⟨n, hn⟩ := Option.ne_none_iff_exists'.mp (hlegal.2 p rfl)
      have hown := hs.owned p n hn
      by_cases hpos : size = 0
      · obtain ⟨blocks', lists', hs', hk'⟩ := hs.heap.free hown answers
        refine ⟨_, blocks', lists', exec_realloc (if_pos hpos), hs', ?_⟩
        rw [if_neg (fun h ↦ h.1 hpos)]
        exact owned_release hs.owned hk' hn
      · obtain ⟨heap', r, blocks', lists', heq, hs', hk', hnone, hr⟩ :=
          hs.heap.realloc hown hpos (hfits hpos)
        refine ⟨_, blocks', lists', exec_realloc heq, hs', ?_⟩
        refine owned_allocate ?_ fun q hq ↦ (hr q hq).1
        split
        · next h =>
          intro q m hq
          rcases eq_or_ne q p with rfl | hne
          · obtain rfl := Option.some.inj (hn.symm.trans hq)
            exact (hnone h.2).1
          · exact (hk'.owned (hs.owned q m hq) ((hs.owned q m hq).header_ne hown hne)).1
        · exact owned_release hs.owned hk' hn
  | free ptr =>
    cases ptr with
    | none => exact ⟨s, blocks, lists, rfl, hs⟩
    | some p =>
      obtain ⟨n, hn⟩ := Option.ne_none_iff_exists'.mp (hlegal p rfl)
      obtain ⟨blocks', lists', hs', hk'⟩ := hs.heap.free (hs.owned p n hn) answers
      exact ⟨_, blocks', lists', rfl, hs', owned_release hs.owned hk' hn⟩
  | write ptr offset bytes =>
    obtain ⟨n, hn, hle⟩ := hlegal
    obtain ⟨heap', hheap'⟩ : ∃ heap' : Heap, heap' =
        { s.heap with mem := memcpy s.heap.mem (ptr + offset) bytes } := ⟨_, rfl⟩
    have hmem : ∀ a, a < ptr ∨ ptr + n ≤ a → heap'.mem a = s.heap.mem a := by
      intro a ha
      rw [hheap']
      exact memcpy_outside _ _ _ (by omega)
    obtain ⟨hs', hk', hown'⟩ := hs.heap.of_payload (hs.owned ptr n hn) hmem (by rw [hheap'])
      (by rw [hheap'])
    refine ⟨⟨heap', s.live⟩, blocks, lists, by rw [hheap']; rfl, hs', fun q m hq ↦ ?_⟩
    rcases eq_or_ne q ptr with rfl | hne
    · obtain rfl := Option.some.inj (hn.symm.trans hq)
      exact hown'
    · exact (hk'.owned (hs.owned q m hq) ((hs.owned q m hq).header_ne (hs.owned ptr n hn) hne)).1

/-- The invariant along a run. -/
theorem Inv.run (hpos : 0 < base) (hlt : base < 2 ^ 63)
    (hrun : Run (Guarded (StepOf System.exec) System.Ok) (System.init base mem) es s) :
    ∃ blocks lists, s.Inv base blocks lists := by
  refine Run.invariant (I := fun s ↦ ∃ blocks lists, Inv base s blocks lists) ?_ hrun
    ⟨[], _, .init hpos hlt mem⟩
  rintro s e t ⟨blocks, lists, hs⟩ ⟨hok, hstep⟩
  obtain ⟨t', blocks', lists', heq, ht⟩ := hs.exec hok
  obtain rfl := Option.some.inj (heq.symm.trans hstep)
  exact ⟨blocks', lists', ht⟩

end System

/-- The list of a class, linked in both directions. -/
def Heap.IsList (s : Heap) (i : ℕ) (l : List ℕ) : Prop :=
  DoublyLinked (fun h ↦ (s.header h).next) (fun h ↦ (s.header h).prev) none (s.freeListHead i) l

/-- The list of every class holds the free blocks of the class, each once.  The blocks are those
that one meets on the way from the base to the break. -/
def Heap.ListsConsistent (base : ℕ) (s : Heap) : Prop :=
  ∃ blocks, Tiles s.span base blocks s.top ∧ ∀ i ≤ 16, ∃ l, s.IsList i l ∧ l.Nodup ∧
    ∀ h, h ∈ l ↔ h ∈ blocks ∧ (s.header h).free = 1 ∧ getIndex (s.header h).size = i

/-- The walk over the headers ends at the break.  Every live payload lies in a block of the walk,
apart from the headers and from the other live payloads. -/
def System.PayloadsSeparate (base : ℕ) (s : System) : Prop :=
  ∃ blocks, Tiles s.heap.span base blocks s.heap.top ∧
    (∀ p n, s.live p = some n → ∃ h ∈ blocks, h + META ≤ p ∧ p + n ≤ h + s.heap.span h) ∧
    (∀ p n, s.live p = some n → ∀ h ∈ blocks, p + n ≤ h ∨ h + META ≤ p) ∧
    ∀ p n q m, s.live p = some n → s.live q = some m → p ≠ q → p + n ≤ q ∨ q + m ≤ p

section Consistency

variable {s : System} {base : ℕ} {blocks : List ℕ} {lists : ℕ → List ℕ}

theorem Heap.Inv.listsConsistent {s : Heap} (hs : s.Inv base blocks lists) :
    s.ListsConsistent base :=
  ⟨blocks, hs.tiles, fun i _ ↦ ⟨lists i, hs.linked.linked i, (hs.linked.linked i).nodup,
    hs.mem_lists i⟩⟩

theorem System.Inv.payloadsSeparate (hs : s.Inv base blocks lists) : s.PayloadsSeparate base := by
  refine ⟨blocks, hs.heap.tiles, fun p n hp ↦ ?_, fun p n hp k hk ↦ ?_, fun p n q m hp hq hne ↦ ?_⟩
  · obtain ⟨h, hh, rfl, -, hn⟩ := hs.owned p n hp
    refine ⟨h, hh, le_rfl, ?_⟩
    rw [Heap.span_eq]
    omega
  · obtain ⟨h, hh, rfl, -, hn⟩ := hs.owned p n hp
    rcases eq_or_ne h k with rfl | hne
    · exact Or.inr le_rfl
    · have := hs.heap.tiles.separate hh hk hne
      rw [Heap.span_eq, Heap.span_eq] at this
      omega
  · obtain ⟨h, hh, rfl, -, hn⟩ := hs.owned p n hp
    obtain ⟨k, hk, rfl, -, hm⟩ := hs.owned q m hq
    have hne' : h ≠ k := by
      rintro rfl
      exact hne rfl
    have := hs.heap.tiles.separate hh hk hne'
    rw [Heap.span_eq, Heap.span_eq] at this
    omega

/-- The size that a call asks for. -/
def Call.request : Call → ℕ
  | .malloc size => size
  | .calloc num size => num * size
  | .realloc _ size => size
  | .free _ => 0
  | .write _ _ _ => 0

/-- The client uses live pointers only, and its requests do not wrap around. -/
def System.NoWrap (s : System) (e : Call × Answers) : Prop :=
  s.Legal e.1 ∧ META + e.1.request < 2 ^ 64

instance (s : System) (e : Call × Answers) : Decidable (s.NoWrap e) :=
  inferInstanceAs (Decidable (_ ∧ _))

end Consistency

/-- The system answers every call of `sbrk` that makes the heap smaller. -/
def granting (grow : Bool) : Answers := ⟨true, grow, true, fun _ ↦ 0⟩

/-- Two blocks, the first of which is freed and used again. -/
def reusingCalls : List (Call × Answers) :=
  [(.malloc 8, granting true), (.malloc 40, granting true), (.free (some 96), granting true),
    (.calloc 2 3, granting true)]

end SystemProgramming.Malloc
