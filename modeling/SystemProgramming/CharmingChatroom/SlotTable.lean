import SystemProgramming.CharmingChatroom.Server

/-!
# The table of clients

The table, the counter and the threads agree as long as a connection that is admitted finds a
free slot.  The capacity test lets a ninth connection pass, which finds none.
-/

namespace SystemProgramming.CharmingChatroom

namespace Server

variable (s : Server)

def slotIndex (k : Fin MAX_CLIENTS) : ℤ := (k : ℕ)

/-- The slots that are not free. -/
def taken : Finset (Fin MAX_CLIENTS) := Finset.univ.filter fun k ↦ s.clients (slotIndex k) ≠ -1

/-- The slot of a connection that has been admitted and has not ended, and its descriptor. -/
def seat (n : ℕ) : Option (ℤ × ℤ) :=
  (s.threads n).bind fun t ↦ if t.pc = .gone then none else some (t.clientId, t.fd)

def Occupies (n : ℕ) (k : Fin MAX_CLIENTS) : Prop :=
  s.seat n = some (slotIndex k, s.clients (slotIndex k)) ∧ s.clients (slotIndex k) ≠ -1

/-- The counter counts the taken slots, no index is out of range, and the connections that have
been admitted and have not ended are one to one with the taken slots. -/
structure SlotTable (s : Server) : Prop where
  count_eq : s.clientsCount = s.taken.card
  count_le : s.clientsCount ≤ MAX_CLIENTS
  indices : ∀ i ∈ s.indices, 0 ≤ i ∧ i < MAX_CLIENTS
  occupies : ∀ n, s.seat n ≠ none → ∃! k, s.Occupies n k
  alone : ∀ k ∈ s.taken, ∃! n, s.Occupies n k

/-- A connection is admitted when `accept` has not failed and a slot is free. -/
def Admits (s : Server) : Event → Prop
  | .enroll => s.taken ≠ Finset.univ ∧ s.pending.map Prod.fst ≠ some (-1)
  | _ => True

instance (s : Server) : ∀ e, Decidable (s.Admits e)
  | .enroll => inferInstanceAs (Decidable (_ ∧ _))
  | .accept _ | .receive .. | .lock _ | .advance _ | .write .. | .leave _ | .close _ | .clear _ =>
      isTrue trivial

/-- The invariant of the table. -/
structure TableInv (s : Server) : Prop where
  count_eq : s.clientsCount = s.taken.card
  indices : ∀ i ∈ s.indices, 0 ≤ i ∧ i < MAX_CLIENTS
  seated : ∀ n i fd, s.seat n = some (i, fd) → (∃ k, i = slotIndex k) ∧ s.clients i = fd ∧ fd ≠ -1
  unique : ∀ n n' i fd fd', s.seat n = some (i, fd) → s.seat n' = some (i, fd') → n = n'
  owned : ∀ k ∈ s.taken, ∃ n fd, s.seat n = some (slotIndex k, fd)
  fresh : ∀ n, s.seat n ≠ none → n < s.accepted ∧ ∀ fd, s.pending ≠ some (fd, n)
  pending_lt : ∀ fd n, s.pending = some (fd, n) → n < s.accepted

variable {s} {s' : Server} {n : ℕ}

theorem slotIndex_inj {k k' : Fin MAX_CLIENTS} : slotIndex k = slotIndex k' ↔ k = k' := by
  rw [slotIndex, slotIndex, Nat.cast_inj, Fin.val_inj]

theorem mem_taken {k : Fin MAX_CLIENTS} : k ∈ s.taken ↔ s.clients (slotIndex k) ≠ -1 := by
  simp [taken]

theorem card_taken_le : s.taken.card ≤ MAX_CLIENTS :=
  (Finset.card_le_univ _).trans_eq (Fintype.card_fin _)

theorem TableInv.start : Server.start.TableInv := by
  constructor <;> simp [Server.start, taken, seat]

/-- The invariant gives what the table promises. -/
theorem TableInv.slotTable (h : s.TableInv) : s.SlotTable where
  count_eq := h.count_eq
  count_le := by
    rw [h.count_eq]
    exact_mod_cast card_taken_le
  indices := h.indices
  occupies := by
    intro n hn
    obtain ⟨⟨i, fd⟩, hseat⟩ := Option.ne_none_iff_exists'.mp hn
    obtain ⟨⟨k, rfl⟩, hfd, hne⟩ := h.seated n i fd hseat
    refine ⟨k, ⟨by rw [hseat, hfd], by rwa [hfd]⟩, ?_⟩
    rintro k' ⟨hseat', -⟩
    rw [hseat, Option.some.injEq, Prod.mk.injEq] at hseat'
    exact slotIndex_inj.mp hseat'.1.symm
  alone := by
    intro k hk
    obtain ⟨n, fd, hseat⟩ := h.owned k hk
    obtain ⟨-, hfd, -⟩ := h.seated n _ fd hseat
    refine ⟨n, ⟨by rw [hseat, hfd], mem_taken.mp hk⟩, ?_⟩
    rintro n' ⟨hseat', -⟩
    exact h.unique n' n _ _ _ hseat' hseat

/-! ## Steps that leave the table alone -/

structure SameTable (s s' : Server) : Prop where
  clients : s'.clients = s.clients
  clientsCount : s'.clientsCount = s.clientsCount
  indices : s'.indices = s.indices
  seat : s'.seat = s.seat
  pending : s'.pending = s.pending
  accepted : s'.accepted = s.accepted

theorem TableInv.congr (h : s.TableInv) (hsame : SameTable s s') : s'.TableInv := by
  have htaken : s'.taken = s.taken := by rw [taken, taken, hsame.clients]
  constructor
  · rw [hsame.clientsCount, htaken]
    exact h.count_eq
  · rw [hsame.indices]
    exact h.indices
  · rw [hsame.seat, hsame.clients]
    exact h.seated
  · rw [hsame.seat]
    exact h.unique
  · rw [hsame.seat, htaken]
    exact h.owned
  · rw [hsame.seat, hsame.accepted, hsame.pending]
    exact h.fresh
  · rw [hsame.accepted, hsame.pending]
    exact h.pending_lt

theorem seat_of_threads {t : Thread} (h : s.threads n = some t) (ht : t.pc ≠ .gone) :
    s.seat n = some (t.clientId, t.fd) := by
  simp [seat, h, ht]

/-- A thread that goes on keeps its seat. -/
theorem seat_setPc {t : Thread} {pc : Pc} (h : s.threads n = some t) (ht : t.pc ≠ .gone)
    (hpc : pc ≠ .gone) : (s.setPc n pc).seat = s.seat := by
  funext m
  rcases eq_or_ne m n with rfl | hne
  · simp [seat, setPc, h, ht, hpc]
  · simp [seat, setPc, hne]

theorem SameTable.setPc {t : Thread} {pc : Pc} (h : s.threads n = some t) (ht : t.pc ≠ .gone)
    (hpc : pc ≠ .gone) : SameTable s (s.setPc n pc) :=
  ⟨rfl, rfl, rfl, seat_setPc h ht hpc, rfl, rfl⟩

/-- A call of `write` changes a wire. -/
theorem writeCall_snd (b : ℕ) (fd : ℤ) (left : List Byte) (reply : Reply) :
    ∃ wire, (s.writeCall b fd left reply).2 = { s with wire := wire } := by
  cases reply with
  | interrupted => exact ⟨s.wire, rfl⟩
  | failed => exact ⟨s.wire, rfl⟩
  | upTo more =>
      rw [writeCall]
      split
      · exact ⟨s.wire, rfl⟩
      · exact ⟨_, rfl⟩

theorem SameTable.write {b : ℕ} {fd : ℤ} {left : List Byte} {reply : Reply} {t : Thread} {pc : Pc}
    (h : s.threads n = some t) (ht : t.pc ≠ .gone) (hpc : pc ≠ .gone) :
    SameTable s ((s.writeCall b fd left reply).2.setPc n pc) := by
  obtain ⟨wire, hwire⟩ := s.writeCall_snd b fd left reply
  rw [hwire]
  exact ⟨rfl, rfl, rfl, seat_setPc h ht hpc, rfl, rfl⟩

theorem afterHeader_ne_gone (b : ℕ) (message : Message) (i : ℕ) (fd : ℤ)
    (left : Option (List Byte)) : s.afterHeader b message i fd left ≠ .gone := by
  unfold afterHeader
  split <;> exact Pc.noConfusion

theorem afterBody_ne_gone (b : ℕ) (message : Message) (i : ℕ) (fd : ℤ)
    (left : Option (List Byte)) : afterBody b message i fd left ≠ .gone := by
  unfold afterBody
  split <;> exact Pc.noConfusion

/-- Only `run_server` and the end of a thread change the table. -/
theorem sameTable_of_step {e : Event} (h : s.step e = some s') :
    SameTable s s' ∨ (∃ fd, e = .accept fd) ∨ e = .enroll ∨ ∃ n, e = .clear n := by
  cases e with
  | accept fd => exact Or.inr (Or.inl ⟨fd, rfl⟩)
  | enroll => exact Or.inr (Or.inr (Or.inl rfl))
  | clear n => exact Or.inr (Or.inr (Or.inr ⟨n, rfl⟩))
  | receive n message size =>
      obtain ⟨clientId, fd, hthread, -, -, rfl⟩ := receive_cases h
      exact Or.inl ⟨rfl, rfl, rfl, seat_setPc hthread (by simp) (by simp), rfl, rfl⟩
  | lock n =>
      obtain ⟨-, clientId, fd, message, hthread, rfl⟩ := lock_cases h
      exact Or.inl ⟨rfl, rfl, rfl, seat_setPc hthread (by simp) (by simp), rfl, rfl⟩
  | advance n =>
      obtain ⟨clientId, fd, b, message, i, hthread, hcases⟩ := advance_cases h
      rcases hcases with ⟨-, -, rfl⟩ | ⟨-, -, rfl⟩ | ⟨-, rfl⟩
      · exact Or.inl (SameTable.setPc hthread (by simp) (by simp))
      · exact Or.inl (SameTable.setPc hthread (by simp) (by simp))
      · exact Or.inl ⟨rfl, rfl, rfl, seat_setPc hthread (by simp) (by simp), rfl, rfl⟩
  | write n reply =>
      obtain ⟨clientId, fd, b, message, i, out, left, ⟨hthread, rfl⟩ | ⟨hthread, rfl⟩⟩ :=
        write_cases h
      · exact Or.inl (SameTable.write hthread (by simp) (afterHeader_ne_gone _ _ _ _ _))
      · exact Or.inl (SameTable.write hthread (by simp) (afterBody_ne_gone _ _ _ _ _))
  | leave n =>
      obtain ⟨clientId, fd, hthread, rfl⟩ := leave_cases h
      exact Or.inl (SameTable.setPc hthread (by simp) (by simp))
  | close n =>
      obtain ⟨clientId, fd, hthread, rfl⟩ := close_cases h
      exact Or.inl ⟨rfl, rfl, rfl, seat_setPc hthread (by simp) (by simp), rfl, rfl⟩

/-! ## Arrivals and departures -/

theorem TableInv.accept {fd : Option ℕ} (h : s.TableInv) (haccept : s.accept fd = some s') :
    s'.TableInv := by
  have hfresh : ∀ n, s.seat n ≠ none → n < s.accepted + 1 ∧ s.accepted ≠ n := by
    intro n hn
    have hlt := (h.fresh n hn).1
    omega
  obtain ⟨-, ⟨-, rfl⟩ | ⟨number, -, -, rfl⟩⟩ := accept_cases haccept
  · refine ⟨h.count_eq, h.indices, h.seated, h.unique, h.owned, ?_, ?_⟩
    · exact fun n hn ↦ ⟨(hfresh n hn).1, by simp [(hfresh n hn).2]⟩
    · simp
  · refine ⟨h.count_eq, h.indices, h.seated, h.unique, h.owned, ?_, ?_⟩
    · exact fun n hn ↦ ⟨(hfresh n hn).1, by simp [(hfresh n hn).2]⟩
    · simp

/-- The search finds a free slot, if there is one. -/
theorem findFreeClient_spec (hfull : s.taken ≠ Finset.univ) :
    ∃ k, findFreeClient s.clients = slotIndex k ∧ k ∉ s.taken := by
  unfold findFreeClient
  cases hfind : (List.range MAX_CLIENTS).find? fun i : ℕ ↦ s.clients i = -1 with
  | none =>
      refine absurd (Finset.eq_univ_of_forall fun k ↦ mem_taken.mpr ?_) hfull
      have hall := List.find?_eq_none.mp hfind k (List.mem_range.mpr k.isLt)
      simpa [slotIndex] using hall
  | some i =>
      have hlt := List.mem_range.mp (List.mem_of_find?_eq_some hfind)
      have hfree := List.find?_some hfind
      refine ⟨⟨i, hlt⟩, rfl, ?_⟩
      rw [mem_taken, not_not]
      simpa [slotIndex] using hfree

theorem findFreeClient_of_full (hfull : s.taken = Finset.univ) :
    findFreeClient s.clients = -1 := by
  have hnone : ((List.range MAX_CLIENTS).find? fun i : ℕ ↦ s.clients i = -1) = none := by
    refine List.find?_eq_none.mpr fun i hi ↦ ?_
    have hmem : (⟨i, List.mem_range.mp hi⟩ : Fin MAX_CLIENTS) ∈ s.taken := by simp [hfull]
    simpa [slotIndex] using mem_taken.mp hmem
  rw [findFreeClient, hnone]

/-- The table with another descriptor in a slot. -/
theorem taken_update (k : Fin MAX_CLIENTS) (fd : ℤ) :
    ({ s with clients := Function.update s.clients (slotIndex k) fd }).taken =
      if fd = -1 then s.taken.erase k else insert k s.taken := by
  ext j
  rcases eq_or_ne j k with rfl | hne
  · split <;> simp_all [mem_taken]
  · have hindex : slotIndex j ≠ slotIndex k := fun heq ↦ hne (slotIndex_inj.mp heq)
    split <;> simp [mem_taken, hindex, hne]

/-- A free slot is given to a connection without one. -/
theorem TableInv.sit (h : s.TableInv) {k : Fin MAX_CLIENTS} {fd : ℤ} (hfree : k ∉ s.taken)
    (hfd : fd ≠ -1) {m : ℕ} (hm : s.seat m = none) (hpending : ∃ fd, s.pending = some (fd, m))
    (hclients : s'.clients = Function.update s.clients (slotIndex k) fd)
    (hcount : s'.clientsCount = s.clientsCount + 1)
    (hindices : s'.indices = slotIndex k :: s.indices)
    (hseat : s'.seat = Function.update s.seat m (some (slotIndex k, fd)))
    (hnone : s'.pending = none) (haccepted : s'.accepted = s.accepted) : s'.TableInv := by
  have htaken : s'.taken = insert k s.taken := by
    rw [taken, hclients]
    exact (taken_update k fd).trans (if_neg hfd)
  have hold : ∀ n i fd', s.seat n = some (i, fd') → n ≠ m ∧ i ≠ slotIndex k := by
    intro n i fd' hn
    refine ⟨?_, ?_⟩
    · rintro rfl
      rw [hm] at hn
      cases hn
    · rintro rfl
      obtain ⟨-, rfl, hne⟩ := h.seated n _ _ hn
      exact hfree (mem_taken.mpr hne)
  constructor
  case count_eq =>
    rw [hcount, htaken, Finset.card_insert_of_notMem hfree, h.count_eq]
    push_cast
    rfl
  case indices =>
    rw [hindices]
    refine List.forall_mem_cons.mpr ⟨⟨Int.natCast_nonneg _, ?_⟩, h.indices⟩
    exact Int.ofNat_lt.mpr k.isLt
  case seated =>
    intro n i fd' hn
    rw [hclients]
    rw [hseat] at hn
    rcases eq_or_ne n m with rfl | hne
    · rw [Function.update_self, Option.some.injEq, Prod.mk.injEq] at hn
      obtain ⟨rfl, rfl⟩ := hn
      exact ⟨⟨k, rfl⟩, Function.update_self .., hfd⟩
    · rw [Function.update_of_ne hne] at hn
      rw [Function.update_of_ne (hold n i fd' hn).2]
      exact h.seated n i fd' hn
  case unique =>
    intro n n' i fd' fd'' hn hn'
    rw [hseat] at hn hn'
    by_cases hne : n = m <;> by_cases hne' : n' = m
    · rw [hne, hne']
    · rw [hne, Function.update_self, Option.some.injEq, Prod.mk.injEq] at hn
      rw [Function.update_of_ne hne'] at hn'
      exact absurd hn.1.symm (hold n' i fd'' hn').2
    · rw [hne', Function.update_self, Option.some.injEq, Prod.mk.injEq] at hn'
      rw [Function.update_of_ne hne] at hn
      exact absurd hn'.1.symm (hold n i fd' hn).2
    · rw [Function.update_of_ne hne] at hn
      rw [Function.update_of_ne hne'] at hn'
      exact h.unique n n' i fd' fd'' hn hn'
  case owned =>
    intro j hj
    rw [hseat]
    rw [htaken] at hj
    rcases Finset.mem_insert.mp hj with rfl | hj
    · exact ⟨m, fd, Function.update_self ..⟩
    · obtain ⟨n, fd', hn⟩ := h.owned j hj
      exact ⟨n, fd', by rwa [Function.update_of_ne (hold n _ _ hn).1]⟩
  case fresh =>
    intro n hn
    rw [haccepted, hnone]
    refine ⟨?_, by simp⟩
    rcases eq_or_ne n m with rfl | hne
    · obtain ⟨fd', hfd'⟩ := hpending
      exact h.pending_lt fd' n hfd'
    · rw [hseat, Function.update_of_ne hne] at hn
      exact (h.fresh n hn).1
  case pending_lt => simp [hnone]

theorem TableInv.enroll (h : s.TableInv) (hok : s.Admits .enroll) (henroll : s.enroll = some s') :
    s'.TableInv := by
  obtain ⟨-, fd, m, hpending, hcases⟩ := enroll_cases henroll
  have hfd : fd ≠ -1 := by
    rintro rfl
    exact hok.2 (by rw [hpending, Option.map_some])
  have hm : s.seat m = none := by
    by_contra hne
    exact (h.fresh m hne).2 fd hpending
  obtain ⟨k, hk, hfree⟩ := findFreeClient_spec hok.1
  rcases hcases with ⟨hmany, -⟩ | ⟨-, rfl⟩
  · rw [h.count_eq] at hmany
    exact absurd hmany (not_lt.mpr (by exact_mod_cast card_taken_le))
  rw [hk]
  refine h.sit hfree hfd hm ⟨fd, hpending⟩ rfl rfl rfl ?_ rfl rfl
  funext n
  rcases eq_or_ne n m with rfl | hne
  · simp [seat]
  · simp [seat, hne]

/-- The last section of a thread gives its slot back. -/
theorem TableInv.clear (h : s.TableInv) (hclear : s.clear n = some s') : s'.TableInv := by
  obtain ⟨-, clientId, fd, hthread, rfl⟩ := clear_cases hclear
  have hn : s.seat n = some (clientId, fd) := seat_of_threads hthread (by simp)
  obtain ⟨⟨k, rfl⟩, hclients, hfd⟩ := h.seated n clientId fd hn
  have hk : k ∈ s.taken := mem_taken.mpr (by rwa [hclients])
  set s' : Server := { s.setPc n .gone with
    clients := Function.update s.clients (slotIndex k) (-1)
    clientsCount := s.clientsCount - 1
    indices := slotIndex k :: s.indices } with hs'
  have htaken : s'.taken = s.taken.erase k := (taken_update k (-1)).trans (if_pos rfl)
  have hseat : s'.seat = Function.update s.seat n none := by
    funext m
    rcases eq_or_ne m n with rfl | hne
    · simp [seat, hs', setPc, hthread]
    · simp [seat, hs', setPc, hne]
  have hothers : ∀ m i fd', s'.seat m = some (i, fd') →
      m ≠ n ∧ i ≠ slotIndex k ∧ s.seat m = some (i, fd') := by
    intro m i fd' hm
    rw [hseat] at hm
    rcases eq_or_ne m n with rfl | hne
    · rw [Function.update_self] at hm
      cases hm
    · rw [Function.update_of_ne hne] at hm
      refine ⟨hne, ?_, hm⟩
      rintro rfl
      exact hne (h.unique m n _ _ _ hm hn)
  constructor
  case count_eq =>
    have hpos := Finset.card_pos.mpr ⟨k, hk⟩
    have hcount := h.count_eq
    rw [htaken, Finset.card_erase_of_mem hk]
    change s.clientsCount - 1 = _
    omega
  case indices =>
    refine List.forall_mem_cons.mpr ⟨⟨Int.natCast_nonneg _, ?_⟩, h.indices⟩
    exact Int.ofNat_lt.mpr k.isLt
  case seated =>
    intro m i fd' hm
    obtain ⟨-, hne, hold⟩ := hothers m i fd' hm
    have hsame : s'.clients i = s.clients i := Function.update_of_ne hne _ _
    rw [hsame]
    exact h.seated m i fd' hold
  case unique =>
    intro m m' i fd' fd'' hm hm'
    exact h.unique m m' i fd' fd'' (hothers m i fd' hm).2.2 (hothers m' i fd'' hm').2.2
  case owned =>
    intro j hj
    rw [htaken] at hj
    obtain ⟨hne, hj⟩ := Finset.mem_erase.mp hj
    obtain ⟨m, fd', hm⟩ := h.owned j hj
    refine ⟨m, fd', ?_⟩
    rw [hseat, Function.update_of_ne, hm]
    rintro rfl
    rw [hn, Option.some.injEq, Prod.mk.injEq] at hm
    exact hne (slotIndex_inj.mp hm.1.symm)
  case fresh =>
    intro m hm
    obtain ⟨⟨i, fd'⟩, hm⟩ := Option.ne_none_iff_exists'.mp hm
    exact h.fresh m (by simp [(hothers m i fd' hm).2.2])
  case pending_lt => exact h.pending_lt

/-! ## Runs -/

theorem TableInv.step {e : Event} (h : s.TableInv) (hok : s.Admits e)
    (hstep : s.step e = some s') : s'.TableInv := by
  rcases sameTable_of_step hstep with hsame | ⟨fd, rfl⟩ | rfl | ⟨n, rfl⟩
  · exact h.congr hsame
  · exact h.accept hstep
  · exact h.enroll hok hstep
  · exact h.clear hstep

/-- Without a free slot the search fails, and its result is used as an index.  A connection that
does not exist is counted in a slot that stays free. -/
theorem TableInv.not_slotTable_of_step {e : Event} (h : s.TableInv) (hbad : ¬ s.Admits e)
    (hstep : s.step e = some s') : ¬ s'.SlotTable := by
  intro htable
  obtain rfl : e = .enroll := by
    cases e with
    | enroll => rfl
    | _ => exact absurd trivial hbad
  obtain ⟨-, fd, m, hpending, hcases⟩ := enroll_cases hstep
  rcases hcases with ⟨hmany, -⟩ | ⟨-, rfl⟩
  · rw [h.count_eq] at hmany
    exact absurd hmany (not_lt.mpr (by exact_mod_cast card_taken_le))
  by_cases hfull : s.taken = Finset.univ
  · have hindex := htable.indices (findFreeClient s.clients) List.mem_cons_self
    rw [findFreeClient_of_full hfull] at hindex
    omega
  · have hfd : fd = -1 := by
      by_contra hne
      refine hbad ⟨hfull, fun heq ↦ ?_⟩
      rw [hpending, Option.map_some, Option.some.injEq] at heq
      exact hne heq
    obtain ⟨k, hk, hfree⟩ := findFreeClient_spec hfull
    have hcount := htable.count_eq
    rw [taken, hk] at hcount
    have htaken := (taken_update (s := s) k fd).trans (if_pos hfd)
    rw [taken] at htaken
    rw [htaken, Finset.erase_eq_of_notMem hfree] at hcount
    have hold := h.count_eq
    simp only at hcount
    omega

/-- A connection that arrives when all slots are taken is closed, and the table is unchanged. -/
def Refuses (s s' : Server) : Prop :=
  s.taken = Finset.univ → s'.clients = s.clients ∧
    ∀ fd n, s.pending = some (fd, n) → s'.connection fd = none

/-- In every run: the table, the counter and the connections agree after every step and a
connection that arrives when all slots are taken is refused, if and only if every connection
that is admitted is one and finds a free slot. -/
theorem slotTable_iff_admits (events : List Event) (t : Server)
    (hrun : Run (StepOf Server.step) Server.start events t) :
    ((∀ pre post u, events = pre ++ post → Run (StepOf Server.step) Server.start pre u →
        u.SlotTable) ∧
      ∀ pre post u v, events = pre ++ .enroll :: post →
        Run (StepOf Server.step) Server.start pre u → u.step .enroll = some v → u.Refuses v) ↔
    Run (Guarded (StepOf Server.step) Admits) Server.start events t := by
  have htable := Run.forall_visited_iff_guarded (I := TableInv) (P := SlotTable)
    (fun _ h ↦ h.slotTable) (fun _ _ _ h hok hstep ↦ h.step hok hstep)
    (fun _ _ _ h hbad hstep ↦ h.not_slotTable_of_step hbad hstep) TableInv.start hrun
  constructor
  · exact fun h ↦ htable.mp h.1
  · intro hguarded
    refine ⟨htable.mpr hguarded, ?_⟩
    rintro pre post u v rfl hu - hfull
    -- a guarded run does not admit a connection here
    obtain ⟨w, hpre, hrest⟩ := Run.append_iff.mp hguarded
    obtain ⟨_, hstep, -⟩ := Run.cons_iff.mp hrest
    obtain rfl := hu.unique hpre.of_guarded
    exact absurd hfull hstep.1.1

/-- The second client gets the descriptor of the first one, which has not left its slot yet. -/
theorem slotTable_iff_admits_two : ∃ t : Server, t.SlotTable ∧
    (t.clientsCount, t.clients 0, t.clients 1) = (1, -1, 5) := by
  let events : List Event := [.accept (some 5), .enroll, .leave 0, .close 0, .accept (some 5),
    .enroll, .clear 0]
  have hfields : (execute (guarded Server.step Admits) Server.start events).map
      (fun t ↦ (t.clientsCount, t.clients 0, t.clients 1)) = some (1, -1, 5) := by decide
  obtain ⟨t, hexec, hfields⟩ := Option.map_eq_some_iff.mp hfields
  have hguarded := Run.execute_guarded_eq_some_iff.mp hexec
  have htable := ((slotTable_iff_admits events t hguarded.of_guarded).mpr hguarded).1 events [] t
    (List.append_nil events).symm hguarded.of_guarded
  exact ⟨t, htable, hfields⟩

/-- Nine clients connect, and none of them leaves. -/
theorem ninth_client : ∃ t : Server, Run (StepOf Server.step) Server.start
      ((List.range 9).flatMap fun fd ↦ [.accept (some (fd + 4)), .enroll]) t ∧
    (t.clientsCount, t.indices.head?, t.clients (-1), t.connection 12) =
      (9, some (-1), 12, some 8) ∧ ¬ t.SlotTable := by
  have hfields : (execute Server.step Server.start
      ((List.range 9).flatMap fun fd ↦ [.accept (some (fd + 4)), .enroll])).map
        (fun t ↦ (t.clientsCount, t.indices.head?, t.clients (-1), t.connection 12)) =
      some (9, some (-1), 12, some 8) := by decide
  obtain ⟨t, hexec, hfields⟩ := Option.map_eq_some_iff.mp hfields
  refine ⟨t, Run.execute_eq_some_iff.mp hexec, hfields, fun htable ↦ ?_⟩
  have hindex : t.indices.head? = some (-1) := congrArg (fun f ↦ f.2.1) hfields
  have hrange := htable.indices (-1) (List.mem_of_mem_head? hindex)
  omega

end Server

end SystemProgramming.CharmingChatroom
