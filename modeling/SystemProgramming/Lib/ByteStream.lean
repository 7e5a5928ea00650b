import Mathlib

/-!
# Streams that are moved in pieces

A system call moves a nonempty part of what it is asked for, is interrupted, or fails.  A
transfer repeats the call until everything asked for has been moved, or nothing is left.
Numbers of a fixed width travel with their most significant byte first.
-/

namespace SystemProgramming

/-! ## Transfers -/

/-- What becomes of one call.  A call that moves something moves at least one item. -/
inductive Reply
  | interrupted
  | failed
  | upTo (more : ℕ)
  deriving DecidableEq

/-- How many calls of a schedule move something if there is something to move. -/
def progress : List Reply → ℕ
  | [] => 0
  | .upTo _ :: schedule => progress schedule + 1
  | _ :: schedule => progress schedule

theorem progress_le_length (schedule : List Reply) : progress schedule ≤ schedule.length := by
  induction schedule with
  | nil => exact le_rfl
  | cons reply schedule ih =>
      cases reply with
      | upTo more => exact Nat.succ_le_succ ih
      | interrupted => exact ih.trans (Nat.le_succ _)
      | failed => exact ih.trans (Nat.le_succ _)

/-- A transfer that is over. -/
structure Transfer (α : Type*) where
  moved : List α
  failed : Bool
  left : List α
  schedule : List Reply

variable {α : Type*}

/-- The calls of `schedule` move up to `count` items from the front of `source`.  Without a
result the transfer still waits for a call. -/
def transferAll : List Reply → List α → ℕ → List α → Option (Transfer α)
  | [], _, _, _ => none
  | .interrupted :: schedule, source, count, moved => transferAll schedule source count moved
  | .failed :: schedule, source, _, moved => some ⟨moved, true, source, schedule⟩
  | .upTo more :: schedule, source, count, moved =>
      let piece := source.take (min (more + 1) count)
      if piece = [] then some ⟨moved, false, source, schedule⟩
      else if count ≤ piece.length then
        some ⟨moved ++ piece, false, source.drop piece.length, schedule⟩
      else transferAll schedule (source.drop piece.length) (count - piece.length) (moved ++ piece)

/-- Without a failure a transfer moves what it is asked for, or all that there is.  It needs a
call for each item at most, and one that finds nothing left. -/
theorem transferAll_spec {schedule : List Reply} (source : List α) {count : ℕ}
    (hfail : .failed ∉ schedule) (hcount : 0 < count)
    (hprogress : min count (source.length + 1) ≤ progress schedule) (moved : List α) :
    ∃ rest, transferAll schedule source count moved =
        some ⟨moved ++ source.take count, false, source.drop count, rest⟩ ∧
      .failed ∉ rest ∧ progress schedule ≤ progress rest + min count (source.length + 1) := by
  induction schedule generalizing source count moved with
  | nil =>
      simp only [progress] at hprogress
      omega
  | cons reply schedule ih =>
      have hfail' : .failed ∉ schedule := fun hmem ↦ hfail (List.mem_cons_of_mem _ hmem)
      cases reply with
      | interrupted => exact ih source hfail' hcount hprogress moved
      | failed => exact absurd List.mem_cons_self hfail
      | upTo more =>
          simp only [progress] at hprogress
          set piece := source.take (min (more + 1) count) with hpiece
          have hlength : piece.length = min (min (more + 1) count) source.length := by
            rw [hpiece, List.length_take]
          have htake : piece = source.take piece.length := by
            rw [hlength, hpiece, ← List.take_eq_take_min]
          rw [transferAll, ← hpiece]
          by_cases hempty : piece = []
          · have hsource : source = [] := by
              rw [← List.length_eq_zero_iff]
              rw [hempty, List.length_nil] at hlength
              omega
            refine ⟨schedule, ?_, hfail', ?_⟩
            · simp [hempty, hsource]
            · simp only [progress, hsource, List.length_nil]
              omega
          have hpos := List.length_pos_iff.mpr hempty
          rw [if_neg hempty]
          by_cases hdone : count ≤ piece.length
          · have hall : piece.length = count := by omega
            refine ⟨schedule, ?_, hfail', ?_⟩
            · rw [if_pos hdone, hall, htake, hall]
            · simp only [progress]
              omega
          · have hsplit : count = piece.length + (count - piece.length) := by omega
            have hpos' : 0 < count - piece.length := by omega
            have hprogress' : min (count - piece.length) ((source.drop piece.length).length + 1) ≤
                progress schedule := by
              rw [List.length_drop]
              omega
            obtain ⟨rest, heq, hrest, hleft⟩ :=
              ih (source.drop piece.length) hfail' hpos' hprogress' (moved ++ piece)
            refine ⟨rest, ?_, hrest, ?_⟩
            · have hmoved : piece ++ (source.drop piece.length).take (count - piece.length) =
                  source.take count := by
                conv_rhs => rw [hsplit, List.take_add, ← htake]
              rw [if_neg hdone, heq, List.append_assoc, hmoved, List.drop_drop, ← hsplit]
            · simp only [progress]
              rw [List.length_drop] at hleft
              omega

/-- A transfer of nothing needs a call as well. -/
theorem transferAll_zero {schedule : List Reply} (source : List α) (hfail : .failed ∉ schedule)
    (hprogress : 0 < progress schedule) (moved : List α) :
    ∃ rest, transferAll schedule source 0 moved = some ⟨moved, false, source, rest⟩ ∧
      .failed ∉ rest ∧ progress schedule ≤ progress rest + 1 := by
  induction schedule with
  | nil => exact absurd hprogress (lt_irrefl 0)
  | cons reply schedule ih =>
      have hfail' : .failed ∉ schedule := fun hmem ↦ hfail (List.mem_cons_of_mem _ hmem)
      cases reply with
      | interrupted => exact ih hfail' hprogress
      | failed => exact absurd List.mem_cons_self hfail
      | upTo more => exact ⟨schedule, by simp [transferAll], hfail', le_rfl⟩

/-- A transfer that is over has moved items from the front of the source, and unless one of its
calls has failed these are what it was asked for, or all that there is. -/
theorem transferAll_moved {schedule : List Reply} {source : List α} {count : ℕ} {moved : List α}
    {tr : Transfer α} (h : transferAll schedule source count moved = some tr) :
    ∃ n ≤ min count source.length,
      tr.moved = moved ++ source.take n ∧ tr.left = source.drop n ∧
      (tr.failed = false → n = min count source.length) ∧
      ∃ used, schedule = used ++ tr.schedule ∧ (tr.failed = true ↔ .failed ∈ used) := by
  induction schedule generalizing source count moved with
  | nil => cases h
  | cons reply schedule ih =>
      cases reply with
      | interrupted =>
          obtain ⟨n, hn, hmoved, hleft, hall, used, hused, hfail⟩ := ih h
          refine ⟨n, hn, hmoved, hleft, hall, .interrupted :: used, ?_, ?_⟩
          · rw [hused, List.cons_append]
          · simpa using hfail
      | failed =>
          cases h
          exact ⟨0, Nat.zero_le _, by simp, by simp, by simp, [.failed], by simp, by simp⟩
      | upTo more =>
          set piece := source.take (min (more + 1) count) with hpiece
          have hlength : piece.length = min (min (more + 1) count) source.length := by
            rw [hpiece, List.length_take]
          have htake : piece = source.take piece.length := by
            rw [hlength, hpiece, ← List.take_eq_take_min]
          rw [transferAll, ← hpiece] at h
          by_cases hempty : piece = []
          · rw [if_pos hempty] at h
            cases h
            rw [hempty, List.length_nil] at hlength
            refine ⟨0, Nat.zero_le _, by simp, by simp, fun _ ↦ by omega, [.upTo more], by simp, ?_⟩
            simp
          have hpos := List.length_pos_iff.mpr hempty
          rw [if_neg hempty] at h
          by_cases hdone : count ≤ piece.length
          · rw [if_pos hdone] at h
            cases h
            refine ⟨piece.length, by omega, by rw [← htake], rfl, fun _ ↦ by omega, [.upTo more],
              by simp, ?_⟩
            simp
          · rw [if_neg hdone] at h
            obtain ⟨n, hn, hmoved, hleft, hall, used, hused, hfail⟩ := ih h
            rw [List.length_drop] at hn hall
            refine ⟨piece.length + n, by omega, ?_, ?_, fun hok ↦ ?_, .upTo more :: used, ?_, ?_⟩
            · rw [hmoved, List.take_add, ← htake, List.append_assoc]
            · rw [hleft, List.drop_drop]
            · have hrest := hall hok
              omega
            · rw [hused, List.cons_append]
            · simpa using hfail

theorem transferAll_eq_some {schedule : List Reply} {source : List α} {count : ℕ}
    {moved : List α} {tr : Transfer α} (hfail : .failed ∉ schedule)
    (h : transferAll schedule source count moved = some tr) :
    tr.moved = moved ++ source.take count ∧ tr.failed = false ∧ tr.left = source.drop count ∧
      .failed ∉ tr.schedule := by
  obtain ⟨n, -, hmoved, hleft, hall, used, hused, hiff⟩ := transferAll_moved h
  rw [hused, List.mem_append, not_or] at hfail
  have hok : tr.failed = false := by simpa using mt hiff.mp hfail.1
  have hn := hall hok
  refine ⟨?_, hok, ?_, hfail.2⟩
  · rw [hmoved, hn, ← List.take_eq_take_min]
  · rw [hleft, hn, ← List.drop_eq_drop_min]

/-- Every call that is not interrupted moves something, or is the last one. -/
theorem exists_transferAll {schedule : List Reply} {source : List α} {count : ℕ}
    (h : min count source.length < schedule.countP (· ≠ .interrupted)) (moved : List α) :
    ∃ tr, transferAll schedule source count moved = some tr := by
  induction schedule generalizing source count moved with
  | nil =>
      rw [List.countP_nil] at h
      omega
  | cons reply schedule ih =>
      cases reply with
      | interrupted => exact ih (by simpa using h) moved
      | failed => exact ⟨_, rfl⟩
      | upTo more =>
          rw [List.countP_cons_of_pos (by simp)] at h
          rw [transferAll]
          split
          · exact ⟨_, rfl⟩
          next hempty =>
          split
          · exact ⟨_, rfl⟩
          next hmore =>
          apply ih
          have hpos := List.length_pos_iff.mpr hempty
          have hlength : (source.take (min (more + 1) count)).length =
              min (min (more + 1) count) source.length := List.length_take
          rw [List.length_drop]
          omega

/-- A transfer comes to its end if its calls are interrupted finitely often. -/
theorem exists_transferAll_of_finite {results : ℕ → Reply}
    (h : {k | results k = .interrupted}.Finite) (source : List α) (count : ℕ) (moved : List α) :
    ∃ n tr, transferAll ((List.range n).map results) source count moved = some tr := by
  obtain ⟨bound, hbound⟩ := h.bddAbove
  refine ⟨bound + 1 + (min count source.length + 1), exists_transferAll ?_ moved⟩
  have hlater : ∀ k, results (bound + 1 + k) ≠ .interrupted := by
    intro k hk
    have hle := hbound hk
    omega
  have hcount : ((List.range (min count source.length + 1)).map fun k ↦
      results (bound + 1 + k)).countP (· ≠ .interrupted) = min count source.length + 1 := by
    rw [List.countP_eq_length.mpr]
    · simp
    · intro reply hreply
      obtain ⟨k, -, rfl⟩ := List.mem_map.mp hreply
      simpa using hlater k
  rw [List.range_add, List.map_append, List.map_map, List.countP_append]
  exact Nat.lt_of_lt_of_le (Nat.lt_succ_self _) (hcount.ge.trans (Nat.le_add_left _ _))

/-! ## Numbers -/

def bigEndian : ℕ → ℕ → List UInt8
  | 0, _ => []
  | width + 1, n => bigEndian width (n / 256) ++ [UInt8.ofNat n]

def ofBigEndian (bytes : List UInt8) : ℕ := bytes.foldl (fun n b ↦ 256 * n + b.toNat) 0

@[simp] theorem length_bigEndian (width n : ℕ) : (bigEndian width n).length = width := by
  induction width generalizing n with
  | zero => rfl
  | succ width ih => simp [bigEndian, ih]

theorem ofBigEndian_bigEndian {width n : ℕ} (h : n < 256 ^ width) :
    ofBigEndian (bigEndian width n) = n := by
  induction width generalizing n with
  | zero =>
      rw [pow_zero] at h
      simpa [bigEndian, ofBigEndian] using (Nat.lt_one_iff.mp h).symm
  | succ width ih =>
      have hdiv : n / 256 < 256 ^ width := by
        rw [Nat.div_lt_iff_lt_mul (by norm_num), ← pow_succ]
        exact h
      have hhigh := ih hdiv
      rw [ofBigEndian] at hhigh
      rw [ofBigEndian, bigEndian, List.foldl_append, hhigh, List.foldl_cons, List.foldl_nil,
        UInt8.toNat_ofNat']
      exact Nat.div_add_mod n 256

end SystemProgramming
