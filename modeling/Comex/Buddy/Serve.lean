import Comex.Buddy.Invariant
import Comex.Remote.FreeGroup

/-!
# Serving the peers of a memory node

A memory node answers a `PAGE_RQST` with the largest block it can allocate, and
takes back the ranges of a `PAGE_FREE` in aligned blocks: `COMEX_pages_request`
of `comex_remote.h` and the loops of `COMEX_do_work` in `COMEX_module_lib.h`.

## Main results

* `Inv.pagesRequest` — the reply is a block that was free, or no page.
* `Inv.freeBatch` — **the ranges of a batch become free, whatever blocks they split into.**
-/

namespace Comex
namespace Buddy

open Aligned
open Ledger (span mem_span)

/-! ### Requests -/

/-- The orders `COMEX_pages_request` tries, from `i` down to 5. -/
def requestLoop : ℕ → Buddy → (Option ℕ × ℕ) × Buddy
  | 0, s =>
    let r := s.rmqueueSmallest 0
    ((r.1, 0), r.2)
  | i + 1, s =>
    let r := s.rmqueueSmallest (i + 1)
    if r.1 = none ∧ i + 1 > 5 then requestLoop i r.2 else ((r.1, i + 1), r.2)

/-- `COMEX_pages_request`: `page_no` and `size` of the reply. -/
def pagesRequest (s : Buddy) (refill : ℕ) : (ℤ × ℕ) × Buddy :=
  let r := requestLoop refill s
  ((r.1.1.elim (-1) (↑·), r.1.2), r.2)

/-! ### Batches -/

/-- The search of `COMEX_do_work` for a block at `pageNO`, from order `pow` down. -/
def blockOrder (pageNO count : ℤ) : ℕ → ℕ
  | 0 => 0
  | pow + 1 =>
    let pageIdx := pageNO % 2 ^ (maxOrder - 1)
    if 2 ^ (pow + 1) > count ∨ pageIdx % 2 ^ (pow + 1) ≠ 0 then blockOrder pageNO count pow
    else pow + 1

/-- The rounds of `COMEX_do_work` on one range; every round frees at least one page. -/
def freeRange : ℕ → ℤ → ℤ → Buddy → Buddy
  | 0, _, _, s => s
  | n + 1, pageNO, count, s =>
    if 0 < count then
      let pow := blockOrder pageNO count (maxOrder - 1)
      freeRange n (pageNO + 2 ^ pow) (count - 2 ^ pow) (s.freePage pageNO.toNat pow)
    else s

/-- The `PAGE_FREE` branch of `COMEX_do_work`. -/
def freeBatch (s : Buddy) (f : FreeStruct) : Buddy :=
  f.foldl (fun s x => freeRange x.2.toNat x.1 x.2 s) s

/-- What freeing a set of pages does. -/
structure Returned (s : Buddy) (pages : Set ℕ) (s' : Buddy) : Prop where
  inv : Inv s'
  freePages : ∀ q, q ∈ s'.freePages ↔ q ∈ s.freePages ∨ q ∈ pages
  totalPages : s'.totalPages = s.totalPages
  failed : s'.failed = s.failed

theorem blockOrder_spec (pageNO count : ℤ) (h : 0 < count) (n : ℕ) (hn : n < maxOrder) :
    blockOrder pageNO count n ≤ n ∧ 2 ^ blockOrder pageNO count n ≤ count ∧
      (2 : ℤ) ^ blockOrder pageNO count n ∣ pageNO := by
  induction n with
  | zero => exact ⟨le_rfl, by simp [blockOrder]; omega, by simp [blockOrder]⟩
  | succ n ih =>
    unfold blockOrder
    simp only
    split
    · obtain ⟨h1, h2, h3⟩ := ih (by omega)
      exact ⟨by omega, h2, h3⟩
    · next hok =>
      push Not at hok
      refine ⟨le_rfl, hok.1, ?_⟩
      -- the mask keeps the bits below the largest order
      have hdvd : (2 : ℤ) ^ (n + 1) ∣ 2 ^ (maxOrder - 1) := pow_dvd_pow 2 (by omega)
      rw [Int.emod_emod_of_dvd _ hdvd] at hok
      exact Int.dvd_of_emod_eq_zero hok.2

/-- The loop over one range frees its pages block by block.  The induction is on a bound of
`count`; the invariant says that what is left of the range is allocated. -/
theorem Inv.freeRange {n : ℕ} : ∀ {s : Buddy} {pageNO count : ℤ}, Inv s → 0 ≤ pageNO →
    count ≤ n → pageNO + count ≤ s.totalPages →
    (∀ q : ℕ, pageNO ≤ q → (q : ℤ) < pageNO + count → q ∉ s.freePages) →
    Returned s {q | pageNO ≤ q ∧ (q : ℤ) < pageNO + count} (freeRange n pageNO count s) := by
  induction n with
  | zero =>
    intro s pageNO count h h0 hn _ _
    refine ⟨h, fun q => ?_, rfl, rfl⟩
    simp only [Set.mem_ofPred_eq]
    constructor
    · exact Or.inl
    · rintro (hq | hq)
      · exact hq
      · omega
  | succ n ih =>
    intro s pageNO count h h0 hn hrange hused
    rw [Buddy.freeRange]
    by_cases hcount : 0 < count
    swap
    · rw [if_neg hcount]
      refine ⟨h, fun q => ?_, rfl, rfl⟩
      simp only [Set.mem_ofPred_eq]
      constructor
      · exact Or.inl
      · rintro (hq | hq)
        · exact hq
        · omega
    rw [if_pos hcount]
    obtain ⟨hle, hfit, hdvd⟩ := blockOrder_spec pageNO count hcount (maxOrder - 1) (by decide)
    simp only
    generalize blockOrder pageNO count (maxOrder - 1) = pow at *
    obtain ⟨p, rfl⟩ := Int.eq_ofNat_of_zero_le h0
    have hcast : ((2 ^ pow : ℕ) : ℤ) = 2 ^ pow := by push_cast; rfl
    have hpow := Nat.two_pow_pos pow
    have hp : 2 ^ pow ∣ p := by
      rw [← hcast] at hdvd
      exact Int.natCast_dvd_natCast.mp hdvd
    -- the block lies inside the range, whose pages are counted as allocated
    have hcan : CanFree s p pow := by
      refine ⟨?_, hp, by omega, fun i hi => ?_⟩
      · have hmax : maxOrder = 11 := rfl
        omega
      · have hlt : p + i < s.totalPages := by omega
        apply (h.ctr_eq _ hlt).resolve_left
        intro hc
        exact hused (p + i) (by omega) (by omega) ((h.free_iff _ hlt).mp hc)
    have hf := h.freePage hcan
    have hnext := @ih _ ((p : ℤ) + 2 ^ pow) (count - 2 ^ pow) hf.inv
      (by omega) (by omega) (by rw [hf.totalPages]; omega) fun q hq hq' hfree => by
        rcases (hf.freePages q).mp hfree with hfree | hin
        · exact hused q (by omega) (by omega) hfree
        · have := (mem_around_iff hp).mp hin
          omega
    rw [Int.toNat_natCast]
    refine ⟨hnext.inv, fun q => ?_, hnext.totalPages.trans hf.totalPages,
      hnext.failed.trans hf.failed⟩
    rw [hnext.freePages, hf.freePages, mem_around_iff hp]
    simp only [Set.mem_ofPred_eq]
    constructor
    · rintro ((hq | hq) | hq)
      · exact Or.inl hq
      · exact Or.inr (by omega)
      · exact Or.inr (by omega)
    · rintro (hq | hq)
      · exact Or.inl (Or.inl hq)
      · by_cases hin : q < p + 2 ^ pow
        · exact Or.inl (Or.inr (by omega))
        · exact Or.inr (by omega)

theorem Returned.refl {s : Buddy} (h : Inv s) {pages : Set ℕ} (hnone : ∀ q, q ∉ pages) :
    Returned s pages s :=
  ⟨h, fun q => ⟨Or.inl, fun hq => hq.resolve_right (hnone q)⟩, rfl, rfl⟩

/-- **Freeing a batch**: pages that are in no free block become free, whatever blocks
the ranges split into. -/
theorem Inv.freeBatch {f : FreeStruct} : ∀ {s : Buddy}, Inv s → f.Ok → f.pages.Nodup →
    (∀ q ∈ f.pages, q < s.totalPages ∧ q.toNat ∉ s.freePages) →
    Returned s {q | (q : ℤ) ∈ f.pages} (freeBatch s f) := by
  induction f with
  | nil =>
    intro s h _ _ _
    exact Returned.refl h fun q hq => by simp [FreeStruct.pages] at hq
  | cons x rest ih =>
    intro s h hok hnodup hused
    obtain ⟨p, count⟩ := x
    rw [FreeStruct.pages_cons] at hnodup hused
    obtain ⟨-, hrest, hdisj⟩ := List.nodup_append.mp hnodup
    have hmem : ∀ q : ℤ, q ∈ span p count.toNat ↔ p ≤ q ∧ q < p + count.toNat := fun q => mem_span
    -- the range of the first entry
    have hfirst : Returned s {q | (q : ℤ) ∈ span p count.toNat}
        (Buddy.freeRange count.toNat p count s) := by
      rcases hok (p, count) (List.mem_cons_self ..) with hclear | ⟨h0, h1⟩
      · obtain ⟨rfl, rfl⟩ := Prod.mk.inj hclear
        exact Returned.refl h fun q hq => by simp [Ledger.span_zero] at hq
      · have hcount : (count.toNat : ℤ) = count := by
          simp only at h1
          omega
        have hset : {q : ℕ | (q : ℤ) ∈ span p count.toNat} =
            {q : ℕ | p ≤ q ∧ (q : ℤ) < p + count} := by
          ext q
          simp only [Set.mem_ofPred_eq, hmem, hcount]
        rw [hset]
        simp only at h0 h1
        refine h.freeRange h0 (by omega) ?_ fun q hq hq' => ?_
        · have := (hused (p + count - 1) (List.mem_append_left _
            ((hmem _).mpr ⟨by omega, by omega⟩))).1
          omega
        · have := (hused q (List.mem_append_left _ ((hmem _).mpr ⟨hq, by omega⟩))).2
          rwa [Int.toNat_natCast] at this
    have hok' : FreeStruct.Ok rest := fun y hy => hok y (List.mem_cons_of_mem _ hy)
    have hnext := ih hfirst.inv hok' hrest fun q hq => by
      obtain ⟨hlt, hout⟩ := hused q (List.mem_append_right _ hq)
      refine ⟨by rw [hfirst.totalPages]; exact hlt, fun hfree => ?_⟩
      rcases (hfirst.freePages _).mp hfree with hfree | hin
      · exact hout hfree
      · have h0 : 0 ≤ q := by
          obtain ⟨y, hy, hqy⟩ := List.mem_flatMap.mp hq
          have hyok := hok' y hy
          have hspan := mem_span.mp hqy
          rcases hyok with rfl | hyok
          · simp only at hspan
            omega
          · omega
        rw [Set.mem_ofPred_eq, Int.toNat_of_nonneg h0] at hin
        exact hdisj q hin q hq rfl
    refine ⟨hnext.inv, fun q => ?_, hnext.totalPages.trans hfirst.totalPages,
      hnext.failed.trans hfirst.failed⟩
    change q ∈ (Buddy.freeBatch (Buddy.freeRange count.toNat p count s) rest).freePages ↔ _
    rw [hnext.freePages, hfirst.freePages]
    simp only [Set.mem_ofPred_eq, FreeStruct.pages_cons, List.mem_append]
    exact or_assoc

/-- No order at or above `COMEX_MAX_ORDER` is ever found. -/
theorem rmqueueSmallest_none {s : Buddy} {order : ℕ} (h : maxOrder ≤ order) :
    s.rmqueueSmallest order = (none, s) := by
  rw [Buddy.rmqueueSmallest, Nat.sub_eq_zero_of_le h]
  rfl

/-- The search of `COMEX_pages_request` finds nothing, or takes a block of the order it
reports. -/
theorem Inv.requestLoop {i : ℕ} : ∀ {s : Buddy}, Inv s →
    (requestLoop i s).1.1 = none ∧ (requestLoop i s).2 = s ∨
      ∃ p, (requestLoop i s).1.1 = some p ∧
        Allocated s (requestLoop i s).1.2 p (requestLoop i s).2 := by
  have hcases : ∀ {s : Buddy} (order : ℕ), Inv s → s.rmqueueSmallest order = (none, s) ∨
      ∃ p, (s.rmqueueSmallest order).1 = some p ∧
        Allocated s order p (s.rmqueueSmallest order).2 := by
    intro s order h
    rcases Nat.lt_or_ge order maxOrder with ho | ho
    · exact (h.rmqueueSmallest ho).imp And.left id
    · exact Or.inl (rmqueueSmallest_none ho)
  induction i with
  | zero =>
    intro s h
    rcases hcases 0 h with hnone | ⟨p, hp, ha⟩
    · exact Or.inl ⟨congrArg Prod.fst hnone, congrArg Prod.snd hnone⟩
    · exact Or.inr ⟨p, hp, ha⟩
  | succ i ih =>
    intro s h
    unfold Buddy.requestLoop
    rcases hcases (i + 1) h with hnone | ⟨p, hp, ha⟩
    · simp only [hnone, true_and]
      split
      · exact ih h
      · exact Or.inl ⟨rfl, rfl⟩
    · simp only [hp, reduceCtorEq, false_and, if_false]
      exact Or.inr ⟨p, rfl, ha⟩

/-- **What a memory node answers**: no page and nothing changed, or a block it had free. -/
theorem Inv.pagesRequest {s : Buddy} (h : Inv s) (refill : ℕ) :
    (s.pagesRequest refill).1.1 = -1 ∧ (s.pagesRequest refill).2 = s ∨
      ∃ p : ℕ, (s.pagesRequest refill).1.1 = p ∧
        Allocated s (s.pagesRequest refill).1.2 p (s.pagesRequest refill).2 := by
  unfold Buddy.pagesRequest
  rcases h.requestLoop (i := refill) with ⟨hnone, hs⟩ | ⟨p, hp, ha⟩
  · exact Or.inl ⟨by simp only [hnone]; rfl, hs⟩
  · exact Or.inr ⟨p, by simp only [hp]; rfl, ha⟩

end Buddy
end Comex
