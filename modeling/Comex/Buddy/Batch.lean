import Comex.Buddy.Canonical
import Comex.Buddy.Serve
import Comex.Remote.WriteOut

/-!
# Batches against single pages

`COMEX_do_work` frees a range in aligned blocks where it once freed page by page;
the loop it replaces is still there, commented out.  Both free the pages of the
message one after the other, only in different portions, and the allocator they
leave depends on the pages alone.

## Main definitions

* `Search`, `RangeLoop`, `BatchLoop` — the three nested loops as they run, with the
  blocks they pass to `COMEX_free_page`.
* `referenceBatch` — the loop that is commented out.
* `FreeStruct.Frees s f` — the ranges of the message are allocated and disjoint.

## Main results

* `reach_freeBlocks` — freeing disjoint blocks is a run of legal calls.
* `reach_freeBatch` — **the loops end, partition the message and agree with the reference.**
-/

namespace Comex
namespace Buddy

open Aligned
open Ledger (span mem_span)

/-! ### The loops -/

/-- The condition of the innermost loop: order `pow` is too large for the range. -/
def TooLarge (pageNO count : ℤ) (pow : ℕ) : Prop :=
  2 ^ pow > count ∨ pageNO % 2 ^ (maxOrder - 1) % 2 ^ pow ≠ 0

/-- The innermost loop, from `pow` to the order it stops at.  There is no round at
order 0, where the shift count would become negative. -/
inductive Search (pageNO count : ℤ) : ℕ → ℕ → Prop
  | stop {pow : ℕ} (h : ¬ TooLarge pageNO count pow) : Search pageNO count pow pow
  | next {pow r : ℕ} (h : TooLarge pageNO count (pow + 1)) (hr : Search pageNO count pow r) :
    Search pageNO count (pow + 1) r

/-- The loop on one range, with the calls of `COMEX_free_page` it makes. -/
inductive RangeLoop : ℤ → ℤ → Buddy → List (ℤ × ℕ) → Buddy → Prop
  | stop {pageNO count : ℤ} {s : Buddy} (h : ¬ 0 < count) : RangeLoop pageNO count s [] s
  | next {pageNO count : ℤ} {s s' : Buddy} {pow : ℕ} {calls : List (ℤ × ℕ)} (h : 0 < count)
    (hpow : Search pageNO count (maxOrder - 1) pow)
    (hrest : RangeLoop (pageNO + 2 ^ pow) (toShort (count - 2 ^ pow))
      (s.freePage pageNO.toNat pow) calls s') :
    RangeLoop pageNO count s ((pageNO, pow) :: calls) s'

/-- The loop over the entries of the message. -/
inductive BatchLoop : FreeStruct → Buddy → List (ℤ × ℕ) → Buddy → Prop
  | nil {s : Buddy} : BatchLoop [] s [] s
  | cons {pageNO count : ℤ} {rest : FreeStruct} {s s' s'' : Buddy} {calls calls' : List (ℤ × ℕ)}
    (hrange : RangeLoop pageNO count s calls s') (hrest : BatchLoop rest s' calls' s'') :
    BatchLoop ((pageNO, count) :: rest) s (calls ++ calls') s''

/-- The rounds of the commented-out loop on one range. -/
def referenceRange : ℕ → ℤ → ℤ → Buddy → Buddy
  | 0, _, _, s => s
  | n + 1, pageNO, count, s =>
    if 0 < count then referenceRange n (pageNO + 1) (count - 1) (s.freePage pageNO.toNat 0) else s

/-- The commented-out loop of `COMEX_do_work`: every page on its own. -/
def referenceBatch (s : Buddy) (f : FreeStruct) : Buddy :=
  f.foldl (fun s x => referenceRange x.2.toNat x.1 x.2 s) s

/-- The pages of a list of blocks, in the order they are freed. -/
def blockPages (bs : List (ℤ × ℕ)) : List ℤ := bs.flatMap fun b => span b.1 (2 ^ b.2)

/-- The calls of `COMEX_free_page` one after the other. -/
def freeBlockList (s : Buddy) (bs : List (ℤ × ℕ)) : Buddy :=
  bs.foldl (fun s b => s.freePage b.1.toNat b.2) s

section Fields

variable (b : ℤ × ℕ) (bs bs' : List (ℤ × ℕ)) (s : Buddy)

@[simp] theorem blockPages_nil : blockPages [] = [] := rfl

@[simp] theorem blockPages_cons :
    blockPages (b :: bs) = span b.1 (2 ^ b.2) ++ blockPages bs := rfl

@[simp] theorem blockPages_append :
    blockPages (bs ++ bs') = blockPages bs ++ blockPages bs' := List.flatMap_append

@[simp] theorem freeBlockList_cons :
    s.freeBlockList (b :: bs) = (s.freePage b.1.toNat b.2).freeBlockList bs := rfl

@[simp] theorem freeBlockList_append :
    s.freeBlockList (bs ++ bs') = (s.freeBlockList bs).freeBlockList bs' := List.foldl_append

end Fields

/-! ### The blocks of the loops -/

/-- The innermost loop stops, at the order `blockOrder` computes. -/
theorem search_blockOrder {pageNO count : ℤ} (h : 0 < count) (pow : ℕ) :
    Search pageNO count pow (blockOrder pageNO count pow) := by
  induction pow with
  | zero =>
    refine .stop fun hlarge => ?_
    rcases hlarge with hlarge | hlarge
    · simp only [pow_zero] at hlarge
      omega
    · simp at hlarge
  | succ pow ih =>
    unfold blockOrder
    simp only
    split
    · next hlarge => exact .next hlarge ih
    · next hfits => exact .stop hfits

/-- **The loop on one range ends**, and its blocks are the range cut into aligned pieces.  The
induction is on a bound of what is left of the range: every round frees one block at its start,
and `count`, a C short, stays in its range. -/
theorem rangeLoop_freeRange (n : ℕ) : ∀ {pageNO count : ℤ} {s : Buddy}, 0 ≤ count →
    count ≤ 16383 → count ≤ n → ∃ calls,
      RangeLoop pageNO count s calls (freeRange n pageNO count s) ∧
      s.freeBlockList calls = freeRange n pageNO count s ∧
      blockPages calls = span pageNO count.toNat ∧
      ∀ b ∈ calls, b.2 < maxOrder ∧ (2 : ℤ) ^ b.2 ∣ b.1 := by
  induction n with
  | zero =>
    intro pageNO count s h0 _ hn
    obtain rfl : count = 0 := by omega
    exact ⟨[], .stop (by decide), rfl, rfl, by simp⟩
  | succ n ih =>
    intro pageNO count s h0 h1 hn
    rw [Buddy.freeRange]
    by_cases hpos : 0 < count
    · rw [if_pos hpos]
      -- the largest order that fits and that the first page is aligned to
      have hsearch : Search pageNO count _ _ := search_blockOrder hpos (maxOrder - 1)
      obtain ⟨hle, hfit, hdvd⟩ := blockOrder_spec pageNO count hpos (maxOrder - 1) (by decide)
      simp only
      generalize blockOrder pageNO count (maxOrder - 1) = pow at *
      have hpow : (0 : ℤ) < 2 ^ pow := by exact_mod_cast Nat.two_pow_pos pow
      have hcast : ((2 ^ pow : ℕ) : ℤ) = 2 ^ pow := by push_cast; rfl
      obtain ⟨calls, hrun, hfold, hpages, hall⟩ := @ih (pageNO + 2 ^ pow) (count - 2 ^ pow)
        (s.freePage pageNO.toNat pow) (by omega) (by omega) (by omega)
      have hshort := toShort_eq (x := count - 2 ^ pow) (by omega) (by omega)
      refine ⟨(pageNO, pow) :: calls, .next hpos hsearch (by rw [hshort]; exact hrun), hfold,
        ?_, ?_⟩
      · -- the first block and what is left of the range
        have hsplit : count.toNat = 2 ^ pow + (count - 2 ^ pow).toNat := by omega
        rw [blockPages_cons, hpages, hsplit, Ledger.span_add, hcast]
      · intro b hb
        rcases List.mem_cons.mp hb with rfl | hb
        · exact ⟨Nat.lt_of_le_of_lt hle (by decide), hdvd⟩
        · exact hall b hb
    · rw [if_neg hpos]
      obtain rfl : count = 0 := by omega
      exact ⟨[], .stop hpos, rfl, rfl, by simp⟩

/-- The loop over the message ends, and its blocks are the ranges cut into aligned pieces. -/
theorem batchLoop_freeBatch {f : FreeStruct} : ∀ {s : Buddy},
    (∀ x ∈ f, 0 ≤ x.2 ∧ x.2 ≤ 16383) → ∃ calls, BatchLoop f s calls (s.freeBatch f) ∧
      s.freeBlockList calls = s.freeBatch f ∧ blockPages calls = f.pages ∧
      ∀ b ∈ calls, b.2 < maxOrder ∧ (2 : ℤ) ^ b.2 ∣ b.1 := by
  induction f with
  | nil => exact fun _ => ⟨[], .nil, rfl, rfl, by simp⟩
  | cons x rest ih =>
    intro s hcount
    obtain ⟨pageNO, count⟩ := x
    obtain ⟨h0, h1⟩ := hcount _ (List.mem_cons_self ..)
    obtain ⟨calls, hrun, hfold, hpages, hall⟩ :=
      @rangeLoop_freeRange count.toNat pageNO count s h0 h1 (by omega)
    obtain ⟨calls', hrun', hfold', hpages', hall'⟩ :=
      @ih (Buddy.freeRange count.toNat pageNO count s)
        fun x hx => hcount x (List.mem_cons_of_mem _ hx)
    refine ⟨calls ++ calls', .cons hrun hrun', ?_, ?_, fun b hb => ?_⟩
    · rw [freeBlockList_append, hfold]
      exact hfold'
    · rw [blockPages_append, hpages, hpages', FreeStruct.pages_cons]
    · rcases List.mem_append.mp hb with hb | hb
      · exact hall b hb
      · exact hall' b hb

/-- The commented-out loop frees the pages of a range one by one. -/
theorem referenceRange_eq (n : ℕ) : ∀ {pageNO count : ℤ} {s : Buddy}, count = n →
    referenceRange n pageNO count s = s.freeBlockList ((span pageNO n).map (·, 0)) := by
  induction n with
  | zero => exact fun _ => rfl
  | succ n ih =>
    intro pageNO count s hn
    rw [referenceRange, if_pos (by omega), ih (by omega), Ledger.span_cons, List.map_cons,
      freeBlockList_cons]

theorem referenceBatch_eq {f : FreeStruct} : ∀ {s : Buddy}, (∀ x ∈ f, 0 ≤ x.2) →
    s.referenceBatch f = s.freeBlockList (f.pages.map (·, 0)) := by
  induction f with
  | nil => exact fun _ => rfl
  | cons x rest ih =>
    intro s hcount
    have hx := hcount x (List.mem_cons_self ..)
    rw [FreeStruct.pages_cons, List.map_append, freeBlockList_append,
      ← referenceRange_eq x.2.toNat (show x.2 = _ by omega)]
    exact ih fun y hy => hcount y (List.mem_cons_of_mem _ hy)

/-! ### Freeing blocks -/

/-- The counters after a legal free. -/
theorem Inv.freePage_cmxCntr {s : Buddy} (h : Inv s) {p k : ℕ} (hf : CanFree s p k) {q : ℕ}
    (hq : q < s.totalPages) : ((s.freePage p k).page q).cmxCntr = 0 ↔
      (s.page q).cmxCntr = 0 ∨ p ≤ q ∧ q < p + 2 ^ k := by
  have hfreed := h.freePage hf
  rw [hfreed.inv.free_iff q (by rw [hfreed.totalPages]; exact hq), hfreed.freePages,
    h.free_iff q hq, mem_around_iff hf.aligned]

/-- **Disjoint blocks of allocated pages can be freed one after the other**, and only
their pages become free. -/
theorem reach_freeBlocks {n : ℕ} : ∀ {bs : List (ℤ × ℕ)} {s : Buddy}, Reach n s →
    (∀ b ∈ bs, b.2 < maxOrder ∧ (2 : ℤ) ^ b.2 ∣ b.1) → (blockPages bs).Nodup →
    (∀ q ∈ blockPages bs, 0 ≤ q ∧ q < n ∧ (s.page q.toNat).cmxCntr = 1) →
    Reach n (s.freeBlockList bs) ∧ ∀ q < n, (((s.freeBlockList bs).page q).cmxCntr = 0 ↔
      (s.page q).cmxCntr = 0 ∨ (q : ℤ) ∈ blockPages bs) := by
  intro bs
  induction bs with
  | nil => exact fun h _ _ _ => ⟨h, fun q _ => by simp [freeBlockList]⟩
  | cons b rest ih =>
    intro s h hblock hnodup hused
    obtain ⟨hinv, htot, -⟩ := reach_inv h
    obtain ⟨pageNO, k⟩ := b
    obtain ⟨hk, hdvd⟩ := hblock (pageNO, k) (List.mem_cons_self ..)
    simp only at hk hdvd
    rw [blockPages_cons] at hnodup hused
    obtain ⟨-, hrest, hdisj⟩ := List.nodup_append.mp hnodup
    have hcast : ((2 ^ k : ℕ) : ℤ) = 2 ^ k := by push_cast; rfl
    have hpos := Nat.two_pow_pos k
    -- the first block is a legal one
    have hmem : ∀ q : ℤ, q ∈ span pageNO (2 ^ k) ↔ pageNO ≤ q ∧ q < pageNO + (2 ^ k : ℕ) :=
      fun q => mem_span
    have h0 : 0 ≤ pageNO :=
      (hused pageNO (List.mem_append_left _ ((hmem _).mpr (by omega)))).1
    obtain ⟨p, rfl⟩ := Int.eq_ofNat_of_zero_le h0
    have hp : 2 ^ k ∣ p := by
      rw [← hcast] at hdvd
      exact Int.natCast_dvd_natCast.mp hdvd
    have hcan : CanFree s p k := by
      refine ⟨hk, hp, ?_, fun i hi => ?_⟩
      · have := (hused ((p : ℤ) + (2 ^ k : ℕ) - 1)
          (List.mem_append_left _ ((hmem _).mpr (by omega)))).2.1
        omega
      · exact (hused ((p + i : ℕ) : ℤ) (List.mem_append_left _ ((hmem _).mpr (by omega)))).2.2
    have hctr : ∀ q < n, (((s.freePage p k).page q).cmxCntr = 0 ↔
        (s.page q).cmxCntr = 0 ∨ (q : ℤ) ∈ span p (2 ^ k)) := by
      intro q hq
      rw [hinv.freePage_cmxCntr hcan (by omega), hmem]
      exact or_congr_right (by omega)
    have hnext : Reach n (s.freePage p k) := h.next (a := .freePage p k) hcan rfl
    -- the pages of the other blocks are still allocated
    obtain ⟨hr, hall⟩ := ih hnext (fun b hb => hblock b (List.mem_cons_of_mem _ hb)) hrest
      fun q hq => by
        obtain ⟨hq0, hqn, hq1⟩ := hused q (List.mem_append_right _ hq)
        refine ⟨hq0, hqn, ?_⟩
        obtain ⟨hinv', htot', -⟩ := reach_inv hnext
        apply (hinv'.ctr_eq q.toNat (by omega)).resolve_left
        intro hc
        rcases (hctr q.toNat (by omega)).mp hc with hc | hin
        · rw [hq1] at hc
          exact absurd hc (by decide)
        · rw [Int.toNat_of_nonneg hq0] at hin
          exact hdisj q hin q hq rfl
    rw [freeBlockList_cons, Int.toNat_natCast]
    refine ⟨hr, fun q hq => ?_⟩
    rw [hall q hq, hctr q hq, blockPages_cons, List.mem_append, or_assoc]

/-! ### The two ways agree -/

/-- A message `COMEX_do_work` may get: disjoint ranges of allocated pages. -/
structure Frees (s : Buddy) (f : FreeStruct) : Prop where
  count : ∀ x ∈ f, 0 ≤ x.2 ∧ x.2 ≤ 16383
  disjoint : f.pages.Nodup
  allocated : ∀ q ∈ f.pages, 0 ≤ q ∧ q < s.totalPages ∧ (s.page q.toNat).cmxCntr = 1

instance (s : Buddy) (f : FreeStruct) : Decidable (Frees s f) :=
  decidable_of_iff ((∀ x ∈ f, 0 ≤ x.2 ∧ x.2 ≤ 16383) ∧ f.pages.Nodup ∧
      ∀ q ∈ f.pages, 0 ≤ q ∧ q < s.totalPages ∧ (s.page q.toNat).cmxCntr = 1)
    ⟨fun ⟨h1, h2, h3⟩ => ⟨h1, h2, h3⟩, fun ⟨h1, h2, h3⟩ => ⟨h1, h2, h3⟩⟩

/-- The same free blocks, counts and descriptors; a free list may differ in its order. -/
structure SameAllocator (s t : Buddy) : Prop where
  blocks : ∀ k p, p ∈ (s.area k).freeList ↔ p ∈ (t.area k).freeList
  nrFree : ∀ k, (s.area k).nrFree = (t.area k).nrFree
  page : ∀ p < s.totalPages, (s.page p).cmxCntr = (t.page p).cmxCntr ∧
    (s.page p).mapcount = (t.page p).mapcount ∧ (s.page p).priv = (t.page p).priv

/-- Blocks whose pages are all different do not overlap. -/
theorem pairwise_apart {bs : List (ℤ × ℕ)} (h : (blockPages bs).Nodup) :
    bs.Pairwise fun a b => a.1 + 2 ^ a.2 ≤ b.1 ∨ b.1 + 2 ^ b.2 ≤ a.1 := by
  refine (List.nodup_flatMap.mp h).2.imp fun {a b} hab => ?_
  have hcast : ∀ k : ℕ, ((2 ^ k : ℕ) : ℤ) = 2 ^ k := fun k => by push_cast; rfl
  have ha := Nat.two_pow_pos a.2
  have hb := Nat.two_pow_pos b.2
  have hcasta := hcast a.2
  have hcastb := hcast b.2
  by_contra hcross
  -- the larger of the two heads would be in both
  refine hab (a := max a.1 b.1) (mem_span.mpr ?_) (mem_span.mpr ?_)
  · omega
  · omega

/-- **Freeing a batch is freeing its pages one by one**: the loops of `COMEX_do_work`
end, the blocks they free are aligned, of an order the allocator has, and together
are the ranges of the message, and what they leave is what the commented-out loop
leaves. -/
theorem reach_freeBatch {n : ℕ} {s : Buddy} (h : Reach n s) {f : FreeStruct} (hf : Frees s f) :
    ∃ calls, BatchLoop f s calls (s.freeBatch f) ∧
      (∀ b ∈ calls, b.2 ≤ 10 ∧ (2 : ℤ) ^ b.2 ∣ b.1) ∧
      (calls.Pairwise fun a b => a.1 + 2 ^ a.2 ≤ b.1 ∨ b.1 + 2 ^ b.2 ≤ a.1) ∧
      blockPages calls = f.pages ∧
      SameAllocator (s.freeBatch f) (s.referenceBatch f) := by
  obtain ⟨-, htot, -⟩ := reach_inv h
  have hused : ∀ q ∈ f.pages, 0 ≤ q ∧ q < n ∧ (s.page q.toNat).cmxCntr = 1 := by
    rw [← htot]
    exact hf.allocated
  obtain ⟨calls, hrun, hfold, hpages, hall⟩ := batchLoop_freeBatch hf.count
  have hnodup : (blockPages calls).Nodup := hpages ▸ hf.disjoint
  -- block by block
  obtain ⟨hr, hctr⟩ := reach_freeBlocks h hall hnodup (by rw [hpages]; exact hused)
  -- page by page
  have hsingle : blockPages (f.pages.map (·, 0)) = f.pages := by
    simp [blockPages, List.flatMap_map, Ledger.span_one]
  obtain ⟨hr', hctr'⟩ := @reach_freeBlocks n (f.pages.map (·, 0)) s h
    (fun b hb => by
      obtain ⟨q, -, rfl⟩ := List.mem_map.mp hb
      exact ⟨Nat.succ_pos _, by simp⟩)
    (hsingle.symm ▸ hf.disjoint) (by rw [hsingle]; exact hused)
  rw [hfold] at hr hctr
  rw [← referenceBatch_eq fun x hx => (hf.count x hx).1] at hr' hctr'
  obtain ⟨hblocks, hnr, hpage⟩ := reach_canonical hr hr' fun q hq => by
    rw [hctr q hq, hctr' q hq, hpages, hsingle]
  refine ⟨calls, hrun, fun b hb => ⟨Nat.le_of_lt_succ (hall b hb).1, (hall b hb).2⟩,
    pairwise_apart hnodup, hpages, hblocks, hnr, ?_⟩
  rw [(reach_inv hr).2.1]
  exact hpage

/-- A message with a range from an odd page and a range that ends a block. -/
theorem reach_freeBatch_ranges :
    let s := initEmpty 9
    let f : FreeStruct := [(1, 5), (-1, 0), (7, 1)]
    ∃ calls, BatchLoop f s calls (s.freeBatch f) ∧ blockPages calls = f.pages ∧
      SameAllocator (s.freeBatch f) (s.referenceBatch f) :=
  have h := reach_freeBatch (n := 9) (f := [(1, 5), (-1, 0), (7, 1)])
    (.start (s := initEmpty 9) rfl) (by decide)
  have ⟨calls, hrun, _, _, hpages, hsame⟩ := h
  ⟨calls, hrun, hpages, hsame⟩

end Buddy
end Comex
