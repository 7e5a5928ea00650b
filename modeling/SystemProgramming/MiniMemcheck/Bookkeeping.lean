import SystemProgramming.MiniMemcheck.Model

/-!
# The list of live allocations

The list from `head` holds the requests of the live payloads.  A call has a result exactly
when the metadata fits into what the allocator returns and no live payload moves, and the
list and the counters are right after every call that has one.
-/

namespace SystemProgramming.MiniMemcheck

variable {M : Size} {s s' : State} {live : Live} {entries : List (Addr × Request)}
  {p a : Addr} {r : Request}

/-- A link as it stands in the memory, with 0 for the null pointer. -/
def ptr (a : Addr) : Option Addr := if a = 0 then none else some a

theorem ptr_eq_none : ptr a = none ↔ a = 0 := by
  simp [ptr]

theorem ptr_eq_some {b : Addr} : ptr a = some b ↔ a = b ∧ b ≠ 0 := by
  rw [ptr]
  split
  · rename_i h
    refine iff_of_false (fun hnone ↦ by cases hnone) ?_
    rintro ⟨rfl, hb⟩
    exact hb h
  · rename_i h
    rw [Option.some.injEq]
    exact ⟨fun hab ↦ ⟨hab, hab ▸ h⟩, fun hab ↦ hab.1⟩

namespace State

def next (s : State) (a : Addr) : Option (Option Addr) := (s.load a).map fun m ↦ ptr m.next

/-- The metadata of a request is stored at `a`. -/
def Stores (M : Size) (s : State) (a : Addr) (r : Request) : Prop :=
  ∃ size next, s.heap a = some ⟨size, some ⟨r, next⟩⟩ ∧ M ≤ size

theorem Stores.congr (h : s.Stores M a r) (hsame : s'.heap a = s.heap a) : s'.Stores M a r := by
  rw [Stores, hsame]
  exact h

theorem next_congr (hsame : s'.heap a = s.heap a) : s'.next a = s.next a := by
  rw [next, next, load, load, hsame]

theorem store_eq {size : Size} {old : Option MetaData} {m : MetaData}
    (ha : s.heap a = some ⟨size, old⟩) (hM : M ≤ size) : s.store M a m =
      some { s with heap := Function.update s.heap a (some ⟨size, some m⟩) } := by
  simp [store, ha, hM]

/-! ## The search -/

theorem ne_zero_of_mem {l : List Addr} {cur : Addr} (h : Segment s.next (ptr cur) l none)
    (ha : a ∈ l) : a ≠ 0 := by
  induction l generalizing cur with
  | nil => cases ha
  | cons b l ih =>
    obtain ⟨hcur, q, hq, htail⟩ := h
    rcases List.mem_cons.mp ha with rfl | hmem
    · exact (ptr_eq_some.mp hcur).2
    · obtain ⟨m, -, rfl⟩ := Option.map_eq_some_iff.mp hq
      exact ih htail hmem

theorem search_of_mem {l l' : List Addr} {cur previous : Addr} {fuel : ℕ}
    (h : Segment s.next (ptr cur) (l ++ a :: l') none) (hfuel : l.length < fuel) :
    s.search a fuel previous cur = some (l.getLast?.getD previous, a) := by
  induction l generalizing cur previous fuel with
  | nil =>
    obtain ⟨hcur, -⟩ := h
    obtain ⟨rfl, -⟩ := ptr_eq_some.mp hcur
    obtain _ | fuel := fuel
    · simp at hfuel
    · simp [search]
  | cons b l ih =>
    have hne : b ≠ a := by
      rintro rfl
      have hnodup := h.nodup
      simp at hnodup
    obtain ⟨hcur, q, hq, htail⟩ := h
    obtain ⟨rfl, hb⟩ := ptr_eq_some.mp hcur
    obtain ⟨m, hm, rfl⟩ := Option.map_eq_some_iff.mp hq
    obtain _ | fuel := fuel
    · simp at hfuel
    · rw [search, if_neg (not_or.mpr ⟨hb, hne⟩), hm, Option.bind_some,
        ih htail (by simpa using hfuel), List.getLast?_cons, Option.getD_some]

theorem search_of_notMem {l : List Addr} {cur previous : Addr} {fuel : ℕ}
    (h : Segment s.next (ptr cur) l none) (ha : a ∉ l) (hfuel : l.length < fuel) :
    ∃ previous', s.search a fuel previous cur = some (previous', 0) := by
  induction l generalizing cur previous fuel with
  | nil =>
    obtain rfl := ptr_eq_none.mp h
    obtain _ | fuel := fuel
    · simp at hfuel
    · exact ⟨previous, by simp [search]⟩
  | cons b l ih =>
    have hba : b ≠ a := fun heq ↦ ha (heq ▸ List.mem_cons_self)
    have hal : a ∉ l := fun hmem ↦ ha (List.mem_cons_of_mem b hmem)
    obtain ⟨hcur, q, hq, htail⟩ := h
    obtain ⟨rfl, hb⟩ := ptr_eq_some.mp hcur
    obtain ⟨m, hm, rfl⟩ := Option.map_eq_some_iff.mp hq
    obtain _ | fuel := fuel
    · simp at hfuel
    · obtain ⟨previous', hrest⟩ := ih htail hal (by simpa using hfuel)
      exact ⟨previous', by
        rw [search, if_neg (not_or.mpr ⟨hb, hba⟩), hm, Option.bind_some, hrest]⟩

end State

theorem length_lt_searchFuel {l : List Addr} (h : l.Nodup) : l.length < State.searchFuel := by
  have hfin : (l.map BitVec.toFin).Nodup :=
    h.map fun x y hxy ↦ BitVec.eq_of_toFin_eq hxy
  have hcard := hfin.length_le_card
  rw [List.length_map, Fintype.card_fin] at hcard
  exact Nat.lt_succ_of_le hcard

/-! ## The invariant -/

/-- The list from `head` and the counters agree with the live payloads. -/
structure Bookkeeping (M : Size) (s : State) (live : Live) (entries : List (Addr × Request)) :
    Prop where
  linked : Segment s.next (ptr s.head) (entries.map Prod.fst) none
  stores : ∀ e ∈ entries, s.Stores M e.1 e.2
  live_iff : ∀ p r, live p = some r ↔ (p - M, r) ∈ entries
  payload_ne : ∀ e ∈ entries, e.1 + M ≠ 0
  total : s.totalMemoryRequested - s.totalMemoryFreed =
    (entries.map fun e ↦ e.2.requestSize).sum

namespace Bookkeeping

theorem init : Bookkeeping M State.init (fun _ ↦ none) [] where
  linked := rfl
  stores e he := by cases he
  live_iff p r := by simp
  payload_ne e he := by cases he
  total := by simp [State.init]

theorem nodup (h : Bookkeeping M s live entries) : (entries.map Prod.fst).Nodup :=
  h.linked.nodup

theorem congr (h : Bookkeeping M s live entries) (hheap : s'.heap = s.heap)
    (hhead : s'.head = s.head) (hrequested : s'.totalMemoryRequested = s.totalMemoryRequested)
    (hfreed : s'.totalMemoryFreed = s.totalMemoryFreed) : Bookkeeping M s' live entries where
  linked := by
    rw [hhead]
    exact h.linked.congr fun a _ ↦ State.next_congr (by rw [hheap])
  stores e he := (h.stores e he).congr (by rw [hheap])
  live_iff := h.live_iff
  payload_ne := h.payload_ne
  total := by rw [hrequested, hfreed, h.total]

theorem live_null (h : Bookkeeping M s live entries) : live 0 = none := by
  refine Option.eq_none_iff_forall_not_mem.mpr fun r hr ↦ ?_
  have hne := h.payload_ne _ ((h.live_iff 0 r).mp hr)
  simp at hne

theorem notMem_of_free (h : Bookkeeping M s live entries) (ha : s.heap a = none) :
    a ∉ entries.map Prod.fst := by
  intro hmem
  obtain ⟨e, he, rfl⟩ := List.mem_map.mp hmem
  obtain ⟨size, next, hstored, -⟩ := h.stores e he
  rw [ha] at hstored
  cases hstored

/-- A live payload splits the list. -/
theorem split (h : Bookkeeping M s live entries) (hp : live p = some r) :
    ∃ l l', entries = l ++ (p - M, r) :: l' ∧ p - M ≠ 0 ∧ ∀ previous,
      s.search (p - M) State.searchFuel previous s.head =
        some ((l.map Prod.fst).getLast?.getD previous, p - M) := by
  obtain ⟨l, l', rfl⟩ := List.append_of_mem ((h.live_iff p r).mp hp)
  have hlinked := h.linked
  rw [List.map_append, List.map_cons] at hlinked
  refine ⟨l, l', rfl, State.ne_zero_of_mem hlinked (by simp), fun previous ↦ ?_⟩
  refine State.search_of_mem hlinked ?_
  have hlen := length_lt_searchFuel h.nodup
  simp only [List.length_map, List.length_append, List.length_cons] at hlen ⊢
  omega

theorem search_of_not_live (h : Bookkeeping M s live entries) (hp : live p = none)
    (previous : Addr) : ∃ previous',
      s.search (p - M) State.searchFuel previous s.head = some (previous', 0) := by
  refine State.search_of_notMem h.linked (fun hmem ↦ ?_) (length_lt_searchFuel h.nodup)
  obtain ⟨⟨a, r⟩, he, rfl⟩ := List.mem_map.mp hmem
  rw [(h.live_iff p r).mpr he] at hp
  cases hp

/-! ## The steps of the list -/

/-- A new block is put in front. -/
theorem push {mem : Addr} {size : Size} (h : Bookkeeping M s live entries) (hmem : mem ≠ 0)
    (hfree : s.heap mem = none) (hpayload : mem + M ≠ 0) (hM : M ≤ size)
    (hheap : s'.heap = Function.update s.heap mem (some ⟨size, some ⟨r, s.head⟩⟩))
    (hhead : s'.head = mem)
    (hrequested : s'.totalMemoryRequested = s.totalMemoryRequested + r.requestSize)
    (hfreed : s'.totalMemoryFreed = s.totalMemoryFreed) :
    Bookkeeping M s' (live.allocate (mem + M) r) ((mem, r) :: entries) := by
  have hnot := h.notMem_of_free hfree
  have hold : ∀ a ∈ entries.map Prod.fst, s'.heap a = s.heap a := by
    intro a ha
    have hne : a ≠ mem := fun heq ↦ hnot (heq ▸ ha)
    rw [hheap, Function.update_of_ne hne]
  have hnew : s'.heap mem = some ⟨size, some ⟨r, s.head⟩⟩ := by
    rw [hheap, Function.update_self]
  refine ⟨⟨?_, ptr s.head, ?_, ?_⟩, ?_, ?_, ?_, ?_⟩
  · rw [hhead, ptr, if_neg hmem]
  · simp [State.next, State.load, hnew]
  · exact h.linked.congr fun a ha ↦ State.next_congr (hold a ha)
  · intro e he
    rcases List.mem_cons.mp he with rfl | he
    · exact ⟨size, s.head, hnew, hM⟩
    · exact (h.stores e he).congr (hold e.1 (List.mem_map_of_mem he))
  · intro p r'
    rw [Live.allocate, if_neg hpayload, List.mem_cons, Prod.mk.injEq, ← h.live_iff]
    rcases eq_or_ne p (mem + M) with rfl | hne
    · have hdead : live (mem + M) = none := by
        refine Option.eq_none_iff_forall_not_mem.mpr fun r'' hr'' ↦ ?_
        have hin := (h.live_iff _ _).mp hr''
        rw [BitVec.add_sub_cancel] at hin
        exact hnot (List.mem_map_of_mem hin)
      rw [Function.update_self, BitVec.add_sub_cancel, hdead]
      simp [eq_comm]
    · have hsub : p - M ≠ mem := by
        rintro rfl
        exact hne (BitVec.sub_add_cancel p M).symm
      rw [Function.update_of_ne hne]
      simp [hsub]
  · intro e he
    rcases List.mem_cons.mp he with rfl | he
    · exact hpayload
    · exact h.payload_ne e he
  · rw [hrequested, hfreed, List.map_cons, List.sum_cons, ← h.total]
    ring

theorem notMem_rest {l l' : List (Addr × Request)} {x : Addr × Request}
    (h : Bookkeeping M s live (l ++ x :: l')) : x.1 ∉ (l ++ l').map Prod.fst := by
  have hnodup := h.nodup
  rw [List.map_append, List.map_cons, List.nodup_middle] at hnodup
  rw [List.map_append]
  exact (List.nodup_cons.mp hnodup).1

/-- One allocation is taken out of the list. -/
theorem remove {l l' : List (Addr × Request)}
    (h : Bookkeeping M s live (l ++ (p - M, r) :: l'))
    (hlinked : Segment s'.next (ptr s'.head) ((l ++ l').map Prod.fst) none)
    (hstores : ∀ e ∈ l ++ l', s'.Stores M e.1 e.2)
    (hrequested : s'.totalMemoryRequested = s.totalMemoryRequested)
    (hfreed : s'.totalMemoryFreed = s.totalMemoryFreed + r.requestSize) :
    Bookkeeping M s' (live.release p) (l ++ l') where
  linked := hlinked
  stores := hstores
  live_iff q r' := by
    have hnot := h.notMem_rest
    rw [Live.release]
    rcases eq_or_ne q p with rfl | hne
    · rw [Function.update_self]
      exact iff_of_false (fun hnone ↦ by cases hnone) fun hmem ↦
        hnot (List.mem_map.mpr ⟨_, hmem, rfl⟩)
    · have hsub : q - M ≠ p - M := by
        intro heq
        rw [← BitVec.sub_add_cancel q M, heq, BitVec.sub_add_cancel] at hne
        exact hne rfl
      rw [Function.update_of_ne hne, h.live_iff]
      simp [hsub]
  payload_ne e he := h.payload_ne e (by
    rcases List.mem_append.mp he with he | he <;> simp [he])
  total := by
    rw [hrequested, hfreed]
    have htotal := h.total
    simp only [List.map_append, List.map_cons, List.sum_append, List.sum_cons] at htotal ⊢
    rw [← sub_sub, htotal]
    ring

theorem payload_ne_zero (h : Bookkeeping M s live entries) (hp : live p = some r) : p ≠ 0 := by
  rintro rfl
  rw [h.live_null] at hp
  cases hp

/-! ## The calls -/

theorem miniFree_of_live (h : Bookkeeping M s live entries) (hp : live p = some r) :
    ∃ s' entries', s.miniFree M p = some s' ∧ Bookkeeping M s' (live.release p) entries' ∧
      s'.invalidAddresses = s.invalidAddresses := by
  have hp0 := h.payload_ne_zero hp
  obtain ⟨l, l', rfl, hcur, hsearch⟩ := h.split hp
  obtain ⟨size, next, hheap, hM⟩ := h.stores (p - M, r) (by simp)
  have hload : s.load (p - M) = some ⟨r, next⟩ := by simp [State.load, hheap]
  have hlinked := h.linked
  have hrest : ∀ e ∈ l ++ l', e ∈ l ++ (p - M, r) :: l' := fun e he ↦ by
    rcases List.mem_append.mp he with he | he <;> simp [he]
  rcases List.eq_nil_or_concat l with rfl | ⟨l, ⟨b, rb⟩, rfl⟩
  · -- the allocation at the head
    obtain ⟨hhead, q, hq, htail⟩ := hlinked
    have hhead : p - M = s.head := (ptr_eq_some.mp hhead).1.symm
    have hptr : ptr next = q := by
      rw [State.next, hload] at hq
      exact Option.some.inj hq
    have hfree : s.miniFree M p = some
        { s with head := next, totalMemoryFreed := s.totalMemoryFreed + r.requestSize } := by
      simp only [State.miniFree, if_neg hp0, hsearch, Option.bind_eq_bind, Option.bind_some,
        if_neg hcur, hload, if_pos hhead]
      simp only [State.load, hheap, Option.bind_some, Option.pure_def]
    refine ⟨_, l', hfree, h.remove (hptr ▸ htail) (fun e he ↦ ?_) rfl rfl, rfl⟩
    exact h.stores e (hrest e he)
  · -- the node before it is given its link
    rw [List.concat_eq_append, List.map_append, List.map_append, List.map_cons, List.map_cons,
      List.map_nil, List.append_assoc, List.singleton_append] at hlinked
    have hnodup := hlinked.nodup
    obtain ⟨sizeb, nextb, hheapb, hMb⟩ := h.stores (b, rb) (by simp)
    have hne : p - M ≠ b := by
      rintro rfl
      simp [List.nodup_middle] at hnodup
    have hloadb : s.load b = some ⟨rb, nextb⟩ := by simp [State.load, hheapb]
    have hlast : (List.map Prod.fst (l.concat (b, rb))).getLast?.getD 0 = b := by simp
    have hhead : p - M ≠ s.head := by
      intro heq
      have hfirst := hlinked.head?_eq
      rw [← heq, ptr, if_neg hcur] at hfirst
      cases l with
      | nil => exact hne (by simpa using hfirst)
      | cons x l =>
        rw [show p - M = x.1 by simpa using hfirst] at hnodup
        simp at hnodup
    let s' : State :=
      { s with heap := Function.update s.heap b (some ⟨sizeb, some ⟨rb, next⟩⟩),
               totalMemoryFreed := s.totalMemoryFreed + r.requestSize }
    have hfree : s.miniFree M p = some s' := by
      simp only [State.miniFree, if_neg hp0, hsearch, Option.bind_eq_bind, Option.bind_some,
        if_neg hcur, if_neg hhead, hload, hlast, hloadb, State.store_eq hheapb hMb]
      simp only [State.load, Function.update_of_ne hne, hheap, Option.bind_some, Option.pure_def,
        s']
    have hheap' : ∀ a ≠ b, s'.heap a = s.heap a := fun a ha ↦ Function.update_of_ne ha _ _
    have hb : s'.next b = s.next (p - M) := by
      simp [State.next, State.load, s', hheap]
    refine ⟨s', _, hfree, h.remove ?_ (fun e he ↦ ?_) rfl rfl, rfl⟩
    · have hunlinked := hlinked.unlink hb fun a ha ↦ State.next_congr (hheap' a ha)
      simpa using hunlinked
    · have hold := h.stores e (hrest e he)
      rcases eq_or_ne e.1 b with heq | hother
      · obtain ⟨size', next', hheap₁, -⟩ := hold
        rw [heq, hheapb] at hheap₁
        obtain rfl : rb = e.2 := by
          simp only [Option.some.injEq, Block.mk.injEq, MetaData.mk.injEq] at hheap₁
          exact hheap₁.2.1
        exact ⟨sizeb, next, by rw [heq]; exact Function.update_self .., hMb⟩
      · exact hold.congr (hheap' e.1 hother)

theorem miniFree_of_not_live (h : Bookkeeping M s live entries) (hp0 : p ≠ 0)
    (hp : live p = none) : s.miniFree M p =
      some { s with invalidAddresses := s.invalidAddresses + 1 } := by
  obtain ⟨previous, hsearch⟩ := h.search_of_not_live hp 0
  simp only [State.miniFree, if_neg hp0, hsearch, Option.bind_eq_bind, Option.bind_some, if_true]

/-- The result of a call that asks `malloc` for a block and gets it. -/
theorem allocate {mem : Addr} {size : Size} (h : Bookkeeping M s live entries) (hmem : mem ≠ 0)
    (hfree : s.heap mem = none) (hend : mem.toNat + size.toNat < 2 ^ 64) (hM : M ≤ size) :
    (s.malloc mem size).store M mem ⟨r, s.head⟩ = some
      { s with heap := Function.update s.heap mem (some ⟨size, some ⟨r, s.head⟩⟩) } ∧
    ∃ entries', Bookkeeping M
      { s with heap := Function.update s.heap mem (some ⟨size, some ⟨r, s.head⟩⟩),
               head := mem, totalMemoryRequested := s.totalMemoryRequested + r.requestSize }
      (live.allocate (mem + M) r) entries' := by
  have hpayload : mem + M ≠ 0 := by
    bv_omega
  constructor
  · rw [State.store_eq (Function.update_self ..) hM, State.malloc, Function.update_idem]
  · exact ⟨_, h.push hmem hfree hpayload hM rfl rfl rfl rfl⟩

/-- The request of one allocation is replaced. -/
theorem replace {l l' : List (Addr × Request)} {r₀ : Request} {size₀ size : Size} {next : Addr}
    (h : Bookkeeping M s live (l ++ (p - M, r₀) :: l'))
    (hold : s.heap (p - M) = some ⟨size₀, some ⟨r₀, next⟩⟩)
    (hheap : s'.heap = Function.update s.heap (p - M) (some ⟨size, some ⟨r, next⟩⟩))
    (hM : M ≤ size) (hhead : s'.head = s.head)
    (htotal : s'.totalMemoryRequested - s'.totalMemoryFreed =
      s.totalMemoryRequested - s.totalMemoryFreed + (r.requestSize - r₀.requestSize)) :
    Bookkeeping M s' (Function.update live p (some r)) (l ++ (p - M, r) :: l') := by
  have hnot := h.notMem_rest
  have hnew : s'.heap (p - M) = some ⟨size, some ⟨r, next⟩⟩ := by
    rw [hheap, Function.update_self]
  have hother : ∀ a ≠ p - M, s'.heap a = s.heap a := fun a ha ↦ by
    rw [hheap, Function.update_of_ne ha]
  have hcases : ∀ e ∈ l ++ (p - M, r) :: l', e = (p - M, r) ∨ e ∈ l ++ l' := fun e he ↦ by
    simpa [or_left_comm] using he
  have hkept : ∀ e ∈ l ++ l', e ∈ l ++ (p - M, r₀) :: l' := fun e he ↦ by
    rcases List.mem_append.mp he with he | he <;> simp [he]
  refine ⟨?_, fun e he ↦ ?_, fun q r' ↦ ?_, fun e he ↦ ?_, ?_⟩
  · have hlinked := h.linked
    rw [hhead]
    rw [List.map_append, List.map_cons] at hlinked ⊢
    refine hlinked.congr fun a _ ↦ ?_
    rcases eq_or_ne a (p - M) with rfl | ha
    · simp [State.next, State.load, hnew, hold]
    · exact State.next_congr (hother a ha)
  · rcases hcases e he with rfl | he
    · exact ⟨size, next, hnew, hM⟩
    · refine (h.stores e (hkept e he)).congr (hother e.1 fun heq ↦ hnot ?_)
      exact List.mem_map.mpr ⟨e, he, heq⟩
  · rcases eq_or_ne q p with rfl | hne
    · have hrest : (q - M, r') ∉ l ++ l' := fun hmem ↦ hnot (List.mem_map.mpr ⟨_, hmem, rfl⟩)
      rw [List.mem_append, not_or] at hrest
      simp [hrest, eq_comm]
    · have hsub : q - M ≠ p - M := by
        intro heq
        rw [← BitVec.sub_add_cancel q M, heq, BitVec.sub_add_cancel] at hne
        exact hne rfl
      rw [Function.update_of_ne hne, h.live_iff]
      simp [hsub]
  · rcases hcases e he with rfl | he
    · exact h.payload_ne (p - M, r₀) (by simp)
    · exact h.payload_ne e (hkept e he)
  · have hsum := h.total
    simp only [List.map_append, List.map_cons, List.sum_append, List.sum_cons] at hsum ⊢
    rw [htotal, hsum]
    ring

end Bookkeeping

/-! ## The condition -/

/-- The size of a block with metadata. -/
def NoWrap (M n : Size) : Prop := n.toNat + M.toNat < 2 ^ 64

instance (M n : Size) : Decidable (NoWrap M n) := inferInstanceAs (Decidable (_ < _))

theorem le_add_iff {n : Size} : M ≤ n + M ↔ NoWrap M n := by
  rw [NoWrap]
  bv_omega

/-- The list contains `a`. -/
def State.Lists (s : State) (a : Addr) : Prop :=
  a ≠ 0 ∧ ∃ previous, s.search a State.searchFuel 0 s.head = some (previous, a)

/-- A live payload stays where it is.  A call of `realloc` with size 0 does not count as a
failure. -/
def Stays (M : Size) (payload : Addr) (request : Request) : Option Addr → Prop
  | none => request.requestSize + M ≠ 0
  | some new => NoWrap M request.requestSize ∧ new = payload - M

/-- The metadata fits into the block, and no allocation moves. -/
def Fits (M : Size) (s : State) (answer : Option Addr) : Call → Prop
  | .malloc request => request.requestSize ≠ 0 → answer ≠ none → NoWrap M request.requestSize
  | .calloc numElements elementSize _ _ => numElements ≠ 0 → elementSize ≠ 0 → answer ≠ none →
      NoWrap M (numElements * elementSize)
  | .realloc payload request => request.requestSize ≠ 0 →
      if payload = 0 then answer ≠ none → NoWrap M request.requestSize
      else s.Lists (payload - M) → Stays M payload request answer
  | .free _ => True

namespace Bookkeeping

theorem lists_iff (h : Bookkeeping M s live entries) : s.Lists (p - M) ↔ live p ≠ none := by
  constructor
  · rintro ⟨hne, previous, hsearch⟩ hp
    obtain ⟨previous', hsearch'⟩ := h.search_of_not_live hp 0
    rw [hsearch, Option.some.injEq, Prod.mk.injEq] at hsearch'
    exact hne hsearch'.2
  · intro hp
    obtain ⟨r, hr⟩ := Option.ne_none_iff_exists'.mp hp
    obtain ⟨l, l', -, hne, hsearch⟩ := h.split hr
    exact ⟨hne, _, hsearch 0⟩

/-- The outcome of a call that leaves the counter of invalid addresses alone. -/
def Updates (M : Size) (s : State) (live : Live) (s' : State) : Prop :=
  (∃ entries, Bookkeeping M s' live entries) ∧ s'.invalidAddresses = s.invalidAddresses

theorem updates_self (h : Bookkeeping M s live entries) : Updates M s live s :=
  ⟨⟨entries, h⟩, rfl⟩

/-- A call has a result under the condition `F` and no other, and the result meets `P`. -/
structure Exactly (x : Option (State × Addr)) (F : Prop) (P : State → Addr → Prop) : Prop where
  defined : F → ∃ s' reply, x = some (s', reply) ∧ P s' reply
  undefined : ¬ F → x = none

namespace Exactly

variable {x : Option (State × Addr)} {F : Prop} {P : State → Addr → Prop} {reply : Addr}

theorem of_eq (s' : State) (reply : Addr) (hF : F) (hx : x = some (s', reply)) (hP : P s' reply) :
    Exactly x F P where
  defined _ := ⟨s', reply, hx, hP⟩
  undefined hnot := absurd hF hnot

theorem condition (h : Exactly x F P) (hx : x = some (s', reply)) : F := by
  by_contra hnot
  rw [h.undefined hnot] at hx
  cases hx

theorem result (h : Exactly x F P) (hx : x = some (s', reply)) : P s' reply := by
  obtain ⟨s₁, reply₁, hx₁, hP⟩ := h.defined (h.condition hx)
  rw [hx, Option.some.injEq, Prod.mk.injEq] at hx₁
  obtain ⟨rfl, rfl⟩ := hx₁
  exact hP

theorem iff (h : Exactly x F P) : F ↔ ∃ s' reply, x = some (s', reply) ∧ P s' reply := by
  refine ⟨h.defined, ?_⟩
  rintro ⟨s', reply, hx, -⟩
  exact h.condition hx

end Exactly

theorem miniMalloc_exactly {answer : Option Addr} (h : Bookkeeping M s live entries)
    (hanswer : ∀ mem, answer = some mem → mem ≠ 0 ∧
      mem.toNat + (r.requestSize + M).toNat < 2 ^ 64 ∧ s.heap mem = none) :
    Exactly (s.miniMalloc M r answer)
      (r.requestSize ≠ 0 → answer ≠ none → NoWrap M r.requestSize)
      fun s' reply ↦ Updates M s (live.allocate reply r) s' := by
  by_cases hsize : r.requestSize = 0
  · refine Exactly.of_eq s 0 (fun hne ↦ absurd hsize hne) ?_ h.updates_self
    simp only [State.miniMalloc, if_pos hsize]
  cases answer with
  | none =>
    refine Exactly.of_eq s 0 (fun _ hne ↦ absurd rfl hne) ?_ h.updates_self
    simp only [State.miniMalloc, if_neg hsize]
  | some mem =>
    obtain ⟨hmem, hend, hfree⟩ := hanswer mem rfl
    constructor
    · intro hfits
      have hM := le_add_iff.mpr (hfits hsize (by simp))
      obtain ⟨hstore, hpush⟩ := h.allocate hmem hfree hend hM (r := r)
      refine ⟨_, mem + M, ?_, hpush, rfl⟩
      simp only [State.miniMalloc, if_neg hsize, hstore, Option.bind_eq_bind, Option.bind_some]
      rfl
    · intro hnot
      have hM : ¬ M ≤ r.requestSize + M := fun hM ↦ hnot fun _ _ ↦ le_add_iff.mp hM
      simp only [State.miniMalloc, if_neg hsize, State.store, State.malloc, Function.update_self,
        Option.bind_eq_bind, Option.bind_some, if_neg hM, Option.bind_none]

theorem miniCalloc_exactly {numElements elementSize : Size} {filename instruction : Addr}
    {answer : Option Addr} (h : Bookkeeping M s live entries)
    (hanswer : ∀ mem, answer = some mem → mem ≠ 0 ∧
      mem.toNat + (numElements * elementSize + M).toNat < 2 ^ 64 ∧ s.heap mem = none) :
    Exactly (s.miniCalloc M numElements elementSize filename instruction answer)
      (numElements ≠ 0 → elementSize ≠ 0 → answer ≠ none →
        NoWrap M (numElements * elementSize))
      fun s' reply ↦ Updates M s
        (live.allocate reply ⟨numElements * elementSize, filename, instruction⟩) s' := by
  by_cases hsize : numElements = 0 ∨ elementSize = 0
  · refine Exactly.of_eq s 0 (fun hne hne' ↦ absurd hsize (not_or.mpr ⟨hne, hne'⟩)) ?_
      h.updates_self
    simp only [State.miniCalloc, if_pos hsize]
  cases answer with
  | none =>
    refine Exactly.of_eq s 0 (fun _ _ hne ↦ absurd rfl hne) ?_ h.updates_self
    simp only [State.miniCalloc, if_neg hsize]
  | some mem =>
    obtain ⟨hmem, hend, hfree⟩ := hanswer mem rfl
    constructor
    · intro hfits
      obtain ⟨hnum, helt⟩ := not_or.mp hsize
      have hwrap := hfits hnum helt (by simp)
      obtain ⟨hstore, hpush⟩ := h.allocate hmem hfree hend (le_add_iff.mpr hwrap)
        (r := ⟨numElements * elementSize, filename, instruction⟩)
      have hmemset : M.toNat + (numElements * elementSize).toNat ≤
          (numElements * elementSize + M).toNat := by
        rw [NoWrap] at hwrap
        rw [BitVec.toNat_add, Nat.mod_eq_of_lt hwrap]
        omega
      refine ⟨_, mem + M, ?_, hpush, rfl⟩
      simp only [State.miniCalloc, if_neg hsize, hstore, Option.bind_eq_bind, Option.bind_some,
        if_pos hmemset]
    · intro hnot
      have hM : ¬ M ≤ numElements * elementSize + M :=
        fun hM ↦ hnot fun _ _ _ ↦ le_add_iff.mp hM
      simp only [State.miniCalloc, if_neg hsize, State.store, State.malloc, Function.update_self,
        Option.bind_eq_bind, Option.bind_some, if_neg hM, Option.bind_none]

/-- A reallocation of a live payload. -/
theorem miniRealloc_exactly {r₀ : Request} (h : Bookkeeping M s live entries)
    (hp : live p = some r₀) (hsize : r.requestSize ≠ 0) (answer : Option Addr) :
    Exactly (s.miniRealloc M p r answer) (Stays M p r answer)
      fun s' reply ↦ Updates M s (live.after (.realloc p r) reply) s' := by
  have hp0 := h.payload_ne_zero hp
  obtain ⟨l, l', rfl, hcur, hsearch⟩ := h.split hp
  obtain ⟨size₀, next, hheap, hM₀⟩ := h.stores (p - M, r₀) (by simp)
  have hfailed : live.after (.realloc p r) 0 = live := by
    simp only [Live.after, if_neg hsize, if_neg hp0, or_true, if_true]
  have hstays : live.after (.realloc p r) p = Function.update live p (some r) := by
    simp only [Live.after, if_neg hsize, if_neg hp0, hp, Option.isNone_some, Bool.false_eq_true,
      false_or, Live.allocate, Live.release, Function.update_idem]
  have hnot : ¬ (p = 0 ∧ r.requestSize = 0) := fun hand ↦ hp0 hand.1
  cases answer with
  | none =>
    by_cases hzero : r.requestSize + M = 0
    · refine ⟨fun hne ↦ absurd hzero hne, fun _ ↦ ?_⟩
      simp only [State.miniRealloc, if_neg hnot, if_neg hsize, if_neg hp0, hsearch,
        Option.bind_eq_bind, Option.bind_some, if_neg hcur, if_pos hzero]
    · refine Exactly.of_eq s 0 hzero ?_ ?_
      · simp only [State.miniRealloc, if_neg hnot, if_neg hsize, if_neg hp0, hsearch,
          Option.bind_eq_bind, Option.bind_some, if_neg hcur, if_neg hzero]
      · rw [hfailed]
        exact h.updates_self
  | some new =>
    constructor
    · rintro ⟨hwrap, rfl⟩
      have hM := le_add_iff.mpr hwrap
      let resized : Addr → Option Block :=
        Function.update s.heap (p - M) (some ⟨r.requestSize + M, some ⟨r, next⟩⟩)
      let counted : State := if r₀.requestSize ≤ r.requestSize then
          { s with totalMemoryRequested :=
            s.totalMemoryRequested + (r.requestSize - r₀.requestSize) }
        else { s with totalMemoryFreed := s.totalMemoryFreed + (r₀.requestSize - r.requestSize) }
      have hexec : s.miniRealloc M p r (some (p - M)) = some ({ counted with heap := resized }, p) := by
        simp only [State.miniRealloc, if_neg hnot, if_neg hsize, if_neg hp0, hsearch,
          Option.bind_eq_bind, Option.bind_some, if_neg hcur, State.realloc, hheap, Option.map_some,
          State.load, Function.update_self, if_pos hM, Function.update_idem]
        by_cases hle : r₀.requestSize ≤ r.requestSize <;>
          simp [hle, State.store, hM, counted, resized]
      have htotal : counted.totalMemoryRequested - counted.totalMemoryFreed =
          s.totalMemoryRequested - s.totalMemoryFreed + (r.requestSize - r₀.requestSize) := by
        by_cases hle : r₀.requestSize ≤ r.requestSize
        · simp only [counted, if_pos hle]
          ring
        · simp only [counted, if_neg hle]
          ring
      have hsame : counted.head = s.head ∧ counted.invalidAddresses = s.invalidAddresses := by
        simp only [counted]
        split <;> exact ⟨rfl, rfl⟩
      refine ⟨_, p, hexec, ?_⟩
      rw [hstays]
      exact ⟨⟨_, h.replace hheap rfl hM hsame.1 htotal⟩, hsame.2⟩
    · intro hfits
      refine Option.eq_none_iff_forall_not_mem.mpr fun o hexec ↦ ?_
      simp only [Option.mem_def, State.miniRealloc, if_neg hnot, if_neg hsize, if_neg hp0, hsearch,
        Option.bind_eq_bind, Option.bind_some, if_neg hcur, State.realloc, hheap,
        Option.map_some] at hexec
      obtain ⟨preSize, hload, -⟩ := Option.bind_eq_some_iff.mp hexec
      rcases eq_or_ne new (p - M) with rfl | hne
      · have hM : ¬ M ≤ r.requestSize + M := fun hM ↦ hfits ⟨le_add_iff.mp hM, rfl⟩
        simp [State.load, hM] at hload
      · simp [State.load, Function.update_of_ne hne.symm] at hload

end Bookkeeping

/-! ## Runs -/

/-- The pointer that `mini_free` or `mini_realloc` is called with. -/
def Call.pointer : Call → Addr
  | .malloc _ => 0
  | .calloc .. => 0
  | .realloc payload _ => payload
  | .free payload => payload

/-- A pointer other than null that is not live only counts as invalid. -/
def Counts (s : State) (live : Live) (p : Addr) (s' : State) : Prop :=
  if p ≠ 0 ∧ live p = none then s' = { s with invalidAddresses := s.invalidAddresses + 1 }
  else s'.invalidAddresses = s.invalidAddresses

/-- One call of the wrapper. -/
def Correct (M : Size) (s : State) (live : Live) (call : Call) (s' : State) (reply : Addr) :
    Prop :=
  (∃ entries, Bookkeeping M s' (live.after call reply) entries) ∧ Counts s live call.pointer s'

namespace Bookkeeping

theorem miniFree_correct (h : Bookkeeping M s live entries) (p : Addr) :
    ∃ s', s.miniFree M p = some s' ∧ (∃ entries', Bookkeeping M s' (live.release p) entries') ∧
      Counts s live p s' := by
  rcases eq_or_ne p 0 with rfl | hp0
  · have hrelease : live.release 0 = live := by
      rw [Live.release, Function.update_eq_self_iff, h.live_null]
    refine ⟨s, ?_, ⟨entries, hrelease.symm ▸ h⟩, ?_⟩
    · rw [State.miniFree, if_pos rfl]
    · rw [Counts, if_neg fun hand ↦ hand.1 rfl]
  cases hp : live p with
  | none =>
    have hrelease : live.release p = live := by
      rw [Live.release, Function.update_eq_self_iff, hp]
    refine ⟨_, h.miniFree_of_not_live hp0 hp, ⟨entries, ?_⟩, ?_⟩
    · rw [hrelease]
      exact h.congr rfl rfl rfl rfl
    · rw [Counts, if_pos ⟨hp0, hp⟩]
  | some r =>
    obtain ⟨s', entries', hfree, hkeeps, hsame⟩ := h.miniFree_of_live hp
    refine ⟨s', hfree, ⟨entries', hkeeps⟩, ?_⟩
    rw [Counts, if_neg (by simp [hp]), hsame]

theorem exec_exactly {answer : Option Addr} {call : Call}
    (h : Bookkeeping M s live entries) (hanswer : Answers M s call answer) :
    Exactly (s.exec M answer call) (Fits M s answer call)
      fun s' reply ↦ Correct M s live call s' reply := by
  have hcounts (s' : State) : Counts s live 0 s' ↔ s'.invalidAddresses = s.invalidAddresses := by
    simp [Counts]
  -- a call without a block of its own gets a new one
  have hfresh (hcall : ∀ p r, call = .realloc p r → p = 0) : ∀ mem, answer = some mem →
      mem ≠ 0 ∧ mem.toNat + (call.size M).toNat < 2 ^ 64 ∧ s.heap mem = none := by
    intro mem hmem
    obtain ⟨hne, hend, hnew | ⟨p, r, heq, hp, -⟩⟩ := hanswer mem hmem
    · exact ⟨hne, hend, hnew⟩
    · exact absurd (hcall p r heq) hp
  cases call with
  | malloc r =>
    simp only [Correct, Call.pointer, hcounts]
    exact h.miniMalloc_exactly (hfresh fun p r heq ↦ by cases heq)
  | calloc numElements elementSize filename instruction =>
    simp only [Correct, Call.pointer, hcounts]
    exact h.miniCalloc_exactly (hfresh fun p r heq ↦ by cases heq)
  | free p =>
    obtain ⟨s', hfree, hcorrect⟩ := h.miniFree_correct p
    refine Exactly.of_eq s' 0 trivial ?_ hcorrect
    rw [State.exec, hfree, Option.map_some]
  | realloc p r =>
    by_cases hsize : r.requestSize = 0
    · have hafter : live.after (.realloc p r) 0 = live.release p := by
        simp only [Live.after, if_pos hsize]
      obtain ⟨s', hfree, hcorrect⟩ := h.miniFree_correct p
      refine Exactly.of_eq s' 0 (fun hne ↦ absurd hsize hne) ?_ ?_
      · simp only [State.exec, State.miniRealloc, hsize, and_true, if_true]
        split
        · rename_i hp0
          rw [hp0, State.miniFree, if_pos rfl] at hfree
          rw [Option.some.inj hfree]
        · rw [hfree, Option.map_some]
      · rw [Correct, hafter]
        exact hcorrect
    rcases eq_or_ne p 0 with rfl | hp0
    · have hmalloc := h.miniMalloc_exactly (hfresh fun p r heq ↦ by cases heq; rfl)
      have hafter (reply : Addr) : live.after (.realloc 0 r) reply = live.allocate reply r := by
        simp only [Live.after, if_neg hsize, if_true]
      have hexec : s.exec M answer (.realloc 0 r) = s.miniMalloc M r answer := by
        simp only [State.exec, State.miniRealloc, hsize, and_false, if_false, if_true]
      simp only [Fits, if_true, hsize, ne_eq, not_false_iff, true_imp_iff, Correct, Call.pointer,
        hcounts, hafter, hexec] at hmalloc ⊢
      exact hmalloc
    have hfits : Fits M s answer (.realloc p r) ↔ (live p ≠ none → Stays M p r answer) := by
      rw [Fits, if_neg hp0, h.lists_iff]
      exact ⟨fun himp ↦ himp hsize, fun himp _ ↦ himp⟩
    cases hp : live p with
    | none =>
      have hafter : live.after (.realloc p r) 0 = live := by
        simp only [Live.after, if_neg hsize, if_neg hp0, or_true, if_true]
      obtain ⟨previous, hsearch⟩ := h.search_of_not_live hp 0
      have hexec : s.exec M answer (.realloc p r) =
          some ({ s with invalidAddresses := s.invalidAddresses + 1 }, 0) := by
        simp only [State.exec, State.miniRealloc, hsize, hp0, and_self, if_false, hsearch,
          Option.bind_eq_bind, Option.bind_some, if_true]
      refine Exactly.of_eq _ 0 (hfits.mpr fun hne ↦ absurd hp hne) hexec ⟨⟨entries, ?_⟩, ?_⟩
      · rw [hafter]
        exact h.congr rfl rfl rfl rfl
      · rw [Counts, if_pos ⟨hp0, hp⟩]
    | some r₀ =>
      have hrealloc := h.miniRealloc_exactly hp hsize answer
      have hcount (s' : State) : Counts s live p s' ↔
          s'.invalidAddresses = s.invalidAddresses := by
        rw [Counts, if_neg (by simp [hp])]
      rw [hfits, hp]
      simp only [Correct, Call.pointer, hcount, ne_eq, not_false_iff, true_imp_iff,
        reduceCtorEq] at hrealloc ⊢
      exact hrealloc

end Bookkeeping

theorem liveAfter_snoc {events : List Event} {e : Event} :
    liveAfter (events ++ [e]) = (liveAfter events).after e.call e.reply := by
  rw [liveAfter, List.foldl_append]
  rfl

theorem exists_bookkeeping {events : List Event} (h : Run (Step M) State.init events s) :
    ∃ entries, Bookkeeping M s (liveAfter events) entries := by
  induction h with
  | nil => exact ⟨[], Bookkeeping.init⟩
  | snoc _ hstep ih =>
    obtain ⟨entries, hbefore⟩ := ih
    rw [liveAfter_snoc]
    exact ((hbefore.exec_exactly hstep.1).result hstep.2).1

/-- In every state of a run the list from `head` and the counters are right, and the next
call has a result, and a correct one, exactly when it fits. -/
theorem bookkeeping_iff_fits {events : List Event} (h : Run (Step M) State.init events s) :
    (∃ entries, Bookkeeping M s (liveAfter events) entries ∧
      (entries.map Prod.fst).Nodup) ∧
    ∀ call answer, Answers M s call answer → (Fits M s answer call ↔ ∃ s' reply,
      Step M s ⟨call, answer, reply⟩ s' ∧ Correct M s (liveAfter events) call s' reply) := by
  obtain ⟨entries, hkeeps⟩ := exists_bookkeeping h
  refine ⟨⟨entries, hkeeps, hkeeps.nodup⟩, fun call answer hanswer ↦ ?_⟩
  rw [(hkeeps.exec_exactly hanswer).iff]
  simp only [Step, hanswer, true_and]

/-- The only allocation of a program, of eight bytes behind 32 bytes of metadata. -/
def firstMalloc : Event := ⟨.malloc ⟨8, 0, 0⟩, some 0x1000, 0x1020⟩

theorem exists_run_firstMalloc : ∃ s, Run (Step 32) State.init [firstMalloc] s ∧
    s.heap 0x2000 = none := by
  have hexec : ∃ s, State.init.exec 32 (some 0x1000) (.malloc ⟨8, 0, 0⟩) = some (s, 0x1020) ∧
      s.heap 0x2000 = none := ⟨_, rfl, rfl⟩
  obtain ⟨s, hexec, hnone⟩ := hexec
  refine ⟨s, Run.single ⟨?_, hexec⟩, hnone⟩
  rintro mem ⟨⟩
  exact ⟨by decide, by decide, Or.inl rfl⟩

/-- The allocation shrinks in place. -/
theorem bookkeeping_iff_fits_shrink : ∃ s s' reply, Run (Step 32) State.init [firstMalloc] s ∧
    Step 32 s ⟨.realloc 0x1020 ⟨4, 0, 0⟩, some 0x1000, reply⟩ s' ∧
    Correct 32 s (liveAfter [firstMalloc]) (.realloc 0x1020 ⟨4, 0, 0⟩) s' reply := by
  obtain ⟨s, hrun, -⟩ := exists_run_firstMalloc
  have hanswer : Answers 32 s (.realloc 0x1020 ⟨4, 0, 0⟩) (some 0x1000) := by
    rintro mem ⟨⟩
    exact ⟨by decide, by decide, Or.inr ⟨_, _, rfl, by decide, by decide⟩⟩
  have hfits : Fits 32 s (some 0x1000) (.realloc 0x1020 ⟨4, 0, 0⟩) :=
    fun _ _ ↦ ⟨by decide, by decide⟩
  obtain ⟨s', reply, hstep⟩ := ((bookkeeping_iff_fits hrun).2 _ _ hanswer).mp hfits
  exact ⟨s, s', reply, hrun, hstep⟩

/-- The allocation at the head of the list moves when it grows. -/
theorem moved_head_has_no_result : ∃ s, Run (Step 32) State.init [firstMalloc] s ∧
    liveAfter [firstMalloc] 0x1020 = some ⟨8, 0, 0⟩ ∧
    Answers 32 s (.realloc 0x1020 ⟨1000, 0, 0⟩) (some 0x2000) ∧
    ¬ ∃ s' reply, Step 32 s ⟨.realloc 0x1020 ⟨1000, 0, 0⟩, some 0x2000, reply⟩ s' ∧
      Correct 32 s (liveAfter [firstMalloc]) (.realloc 0x1020 ⟨1000, 0, 0⟩) s' reply := by
  obtain ⟨s, hrun, hnone⟩ := exists_run_firstMalloc
  have hlive : liveAfter [firstMalloc] 0x1020 = some ⟨8, 0, 0⟩ := by decide
  have hanswer : Answers 32 s (.realloc 0x1020 ⟨1000, 0, 0⟩) (some 0x2000) := by
    rintro mem ⟨⟩
    exact ⟨by decide, by decide, Or.inl hnone⟩
  refine ⟨s, hrun, hlive, hanswer, ?_⟩
  rintro ⟨s', reply, hstep, -⟩
  obtain ⟨entries, hkeeps⟩ := exists_bookkeeping hrun
  have hfits := (hkeeps.exec_exactly hanswer).condition hstep.2
  have hlists : s.Lists (0x1020 - 32) := hkeeps.lists_iff.mpr (by rw [hlive]; simp)
  have hstays := hfits (by decide) hlists
  exact absurd hstays.2 (by decide)

end SystemProgramming.MiniMemcheck
