import Comex.Buddy.Canonical
import Comex.Buddy.Serve

/-!
# Allocation is exact and complete

The free blocks of a reachable state are merged as far as they go, so an aligned
run of free pages never hides in pieces smaller than itself: it lies in one
listed block, and the search of `COMEX_rmqueue_smallest` finds it.  The reply to
a `PAGE_RQST` is then the largest run there is.

## Main definitions

* `FreeRun s k p` — the `2 ^ k` pages from the aligned page `p` on are all free.
* `Taken s k p s'` — these pages, and no others, have left the free blocks.

## Main results

* `reach_rmqueueSmallest` — `COMEX_rmqueue_smallest` fails only when no run is free.
* `reach_exact` — **the allocation and the reply to a peer, at every reachable state.**
-/

namespace Comex
namespace Buddy

open Aligned

/-- An aligned run of free pages inside the array. -/
structure FreeRun (s : Buddy) (order p : ℕ) : Prop where
  aligned : 2 ^ order ∣ p
  in_range : p + 2 ^ order ≤ s.totalPages
  free : ∀ q, p ≤ q → q < p + 2 ^ order → s.InFreeBlock q

/-- The run at `p` is allocated, and no other page has changed its status. -/
structure Taken (s : Buddy) (order p : ℕ) (s' : Buddy) : Prop where
  free : FreeRun s order p
  taken : ∀ q, p ≤ q → q < p + 2 ^ order → ¬ s'.InFreeBlock q ∧ (s'.page q).cmxCntr = 1
  others : ∀ q < s.totalPages, (q < p ∨ p + 2 ^ order ≤ q) →
    (s'.InFreeBlock q ↔ s.InFreeBlock q) ∧ (s'.page q).cmxCntr = (s.page q).cmxCntr

section Runs

variable {s s' : Buddy} {order p : ℕ}

/-- A run is free when its block lies in the free pages. -/
theorem Inv.freeRun_iff (h : Inv s) :
    FreeRun s order p ↔ 2 ^ order ∣ p ∧ ∀ q ∈ Block.around order p, q ∈ s.freePages := by
  constructor
  · intro hr
    refine ⟨hr.aligned, fun q hq => ?_⟩
    obtain ⟨h1, h2⟩ := (mem_around_iff hr.aligned).mp hq
    exact h.links.inFreeBlock_iff.mp (hr.free q h1 h2)
  · rintro ⟨hd, hfree⟩
    have hpos := Nat.two_pow_pos order
    -- the last page of the run is a page
    have hlast := h.links.lt_of_free
      (hfree (p + 2 ^ order - 1) ((mem_around_iff hd).mpr (by omega)))
    exact ⟨hd, by omega, fun q h1 h2 =>
      h.links.inFreeBlock_iff.mpr (hfree q ((mem_around_iff hd).mpr ⟨h1, h2⟩))⟩

/-- **Completeness**: a free run of an order lies in a listed block of that order or above. -/
theorem Inv.exists_block (h : Inv s) (ho : order < maxOrder) (hr : FreeRun s order p) :
    ∃ b ∈ s.freeBlocks, order ≤ b.order := by
  obtain ⟨b, hb, hle, -⟩ := h.coalesced.exists_above order (by omega) (Block.around order p) rfl
    (h.freeRun_iff.mp hr).2
  exact ⟨b, hb, hle⟩

/-- The first pages of a larger run are a run. -/
theorem FreeRun.mono {j : ℕ} (hr : FreeRun s order p) (hj : j ≤ order) : FreeRun s j p where
  aligned := dvd_trans (pow_dvd_pow 2 hj) hr.aligned
  in_range := by
    have := Nat.pow_le_pow_right (n := 2) (by decide) hj
    have := hr.in_range
    omega
  free := by
    intro q h1 h2
    have := Nat.pow_le_pow_right (n := 2) (by decide) hj
    exact hr.free q h1 (by omega)

/-- What an allocation does, on the lists and the counters. -/
theorem Allocated.taken (ha : Allocated s order p s') (h : Inv s) : Taken s order p s' := by
  have hd := ha.aligned
  have hrun : FreeRun s order p := h.freeRun_iff.mpr ⟨hd, ha.was_free⟩
  refine ⟨hrun, fun q h1 h2 => ?_, fun q hq hout => ?_⟩
  · have hin := (mem_around_iff hd).mpr ⟨h1, h2⟩
    have hlt : q < s'.totalPages := by
      have := hrun.in_range
      rw [ha.totalPages]
      omega
    have hused : q ∉ s'.freePages := fun hf => ((ha.freePages q).mp hf).2 hin
    refine ⟨fun hf => hused (ha.inv.links.inFreeBlock_iff.mp hf), ?_⟩
    exact (ha.inv.ctr_eq q hlt).resolve_left fun h0 => hused ((ha.inv.free_iff q hlt).mp h0)
  · have hnot : q ∉ Block.around order p := fun hin => by
      have := (mem_around_iff hd).mp hin
      omega
    have hsame : q ∈ s'.freePages ↔ q ∈ s.freePages := by
      rw [ha.freePages]
      exact and_iff_left hnot
    have hlt : q < s'.totalPages := by rwa [ha.totalPages]
    refine ⟨?_, ha.inv.ctr_congr h hlt hq ?_⟩
    · rw [ha.inv.links.inFreeBlock_iff, h.links.inFreeBlock_iff, hsame]
    · rw [ha.inv.free_iff q hlt, h.free_iff q hq, hsame]

end Runs

/-- What `COMEX_rmqueue_smallest` answers, as a function of the free runs. -/
theorem Inv.rmqueueSmallest_iff {s : Buddy} (h : Inv s) {order : ℕ} (ho : order < maxOrder) :
    (s.rmqueueSmallest order = (none, s) ∧ ∀ p, ¬ FreeRun s order p) ∨
      ∃ p, (s.rmqueueSmallest order).1 = some p ∧
        Taken s order p (s.rmqueueSmallest order).2 := by
  rcases h.rmqueueSmallest ho with ⟨hnone, hlow⟩ | ⟨p, hp, ha⟩
  · refine Or.inl ⟨hnone, fun p hr => ?_⟩
    obtain ⟨b, hb, hle⟩ := h.exists_block ho hr
    have := hlow b hb
    omega
  · exact Or.inr ⟨p, hp, ha.taken h⟩

/-- **No allocation fails while a run of its order is free.** -/
theorem reach_rmqueueSmallest {n : ℕ} {s : Buddy} (h : Reach n s) {order : ℕ}
    (ho : order < maxOrder) :
    ((s.rmqueueSmallest order).1 = none ↔ ∀ p, ¬ FreeRun s order p) ∧
      ((s.rmqueueSmallest order).1 = none → (s.rmqueueSmallest order).2 = s) ∧
      ∀ p, (s.rmqueueSmallest order).1 = some p → Taken s order p (s.rmqueueSmallest order).2 := by
  rcases (reach_inv h).1.rmqueueSmallest_iff ho with ⟨heq, hno⟩ | ⟨p, hp, ht⟩
  · rw [heq]
    exact ⟨iff_of_true rfl hno, fun _ => rfl, by simp⟩
  · rw [hp]
    refine ⟨iff_of_false (by simp) fun hno => hno p ht.free, by simp, ?_⟩
    intro q hq
    obtain rfl := Option.some.inj hq
    exact ht

/-! ### Replies -/

/-- The search of `COMEX_pages_request` from order `i` down: the first order that
has a free run is taken. -/
theorem Inv.requestLoop_largest {s : Buddy} (h : Inv s) : ∀ i, 5 ≤ i → i < maxOrder →
    ((Buddy.requestLoop i s).1.1 = none ∧ (Buddy.requestLoop i s).2 = s ∧ ∀ p, ¬ FreeRun s 5 p) ∨
      ∃ p k, (Buddy.requestLoop i s).1 = (some p, k) ∧ 5 ≤ k ∧ k ≤ i ∧
        Taken s k p (Buddy.requestLoop i s).2 ∧ ∀ j, k < j → j ≤ i → ∀ q, ¬ FreeRun s j q := by
  intro i
  induction i with
  | zero =>
    intro h5
    omega
  | succ i ih =>
    intro h5 hlt
    unfold Buddy.requestLoop
    rcases h.rmqueueSmallest_iff hlt with ⟨heq, hno⟩ | ⟨p, hp, ht⟩
    · simp only [heq, true_and]
      by_cases hi : i + 1 > 5
      · rw [if_pos hi]
        -- nothing of this order is free: what the lower orders find is the largest
        rcases ih (by omega) (by omega) with hnone | ⟨p, k, hr, hk5, hki, ht, hmax⟩
        · exact Or.inl hnone
        · refine Or.inr ⟨p, k, hr, hk5, by omega, ht, fun j hkj hji q => ?_⟩
          rcases Nat.lt_or_ge i j with hij | hij
          · obtain rfl : j = i + 1 := by omega
            exact hno q
          · exact hmax j hkj hij q
      · rw [if_neg hi]
        obtain rfl : i = 4 := by omega
        exact Or.inl ⟨rfl, rfl, hno⟩
    · simp only [hp, reduceCtorEq, false_and, if_false]
      exact Or.inr ⟨p, i + 1, rfl, h5, le_rfl, ht, fun j h1 h2 => absurd h1 (by omega)⟩

/-- What a memory node may answer to a `PAGE_RQST`. -/
inductive Reply (s : Buddy) (refill : ℕ) : (ℤ × ℕ) × Buddy → Prop
  /-- No aligned run of 32 pages is free, and nothing changes. -/
  | none (page_no : ℤ) (size : ℕ) (hneg : page_no < 0) (hno : ∀ p, ¬ FreeRun s 5 p) :
    Reply s refill ((page_no, size), s)
  /-- The run has the largest order there is up to `COMEX_refill`. -/
  | page (p k : ℕ) (s' : Buddy) (h5 : 5 ≤ k) (hk : k ≤ refill) (ht : Taken s k p s')
    (hmax : ∀ j, k < j → j ≤ refill → ∀ q, ¬ FreeRun s j q) : Reply s refill ((↑p, k), s')

theorem Inv.reply {s : Buddy} (h : Inv s) {refill : ℕ} (h5 : 5 ≤ refill) (hlt : refill < maxOrder) :
    Reply s refill (s.pagesRequest refill) := by
  unfold Buddy.pagesRequest
  rcases h.requestLoop_largest refill h5 hlt with ⟨hnone, hs, hno⟩ | ⟨p, k, hr, hk5, hk, ht, hmax⟩
  · simp only [hnone, hs]
    exact .none _ _ (by decide) hno
  · simp only [hr]
    exact .page p k _ hk5 hk ht hmax

/-- **Allocation is exact and complete**: at every reachable state an order is
refused exactly when none of its runs is free, a run that is handed out was free
and nothing else changes, and a peer is sent the largest run there is. -/
theorem reach_exact {n : ℕ} {s : Buddy} (h : Reach n s) :
    (∀ order < maxOrder,
      ((s.rmqueueSmallest order).1 = none ↔ ∀ p, ¬ FreeRun s order p) ∧
        ((s.rmqueueSmallest order).1 = none → (s.rmqueueSmallest order).2 = s) ∧
        ∀ p, (s.rmqueueSmallest order).1 = some p →
          Taken s order p (s.rmqueueSmallest order).2) ∧
      ∀ refill, 5 ≤ refill → refill ≤ 10 → Reply s refill (s.pagesRequest refill) :=
  ⟨fun _ ho => reach_rmqueueSmallest h ho, fun _ h5 h10 =>
    (reach_inv h).1.reply h5 (Nat.lt_succ_of_le h10)⟩

/-- Two halves of 32 pages freed apart, asked for in one piece. -/
theorem reach_exact_halves :
    let s := [Call.freePage 16 4, .freePage 0 4].foldl call (initEmpty 40)
    ((s.rmqueueSmallest 5).1 = none ↔ ∀ p, ¬ FreeRun s 5 p) ∧
      Reply s 10 (s.pagesRequest 10) :=
  have h := reach_exact (n := 40) (reach_foldl [.freePage 16 4, .freePage 0 4]
    (.start (s := initEmpty 40) rfl) (by decide))
  ⟨(h.1 5 (by decide)).1, h.2 10 (by decide) (by decide)⟩

end Buddy
end Comex
