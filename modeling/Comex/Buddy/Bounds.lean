import Comex.Buddy.Startup
import Mathlib.Data.Nat.Factorization.Basic

/-!
# The merging loop and the end of the descriptor array

`COMEX_free_page` finds the buddy of a block by flipping a bit of its masked
index and moving the descriptor pointer by the difference.  It does not compare
the result with `COMEX_total_pages`, and `COMEX_init_ENV` does not ask for a
multiple of the largest block.  The loop leaves the array from one block alone:
the last one, of the order of the lowest bit of `COMEX_total_pages`.  Its buddy
starts where the array ends, so as soon as that block is free it is looked for.

## Main definitions

* `mergeTraced`, `freeTrace` — the loop with the indices it forms.
* `CompletesTail` — the freed block is all that the last block still lacks.

## Main results

* `mergeTraced_snd` — the loop with its indices is the loop.
* `freeTrace_inRange_iff` — **a legal free stays in the array unless it completes the
  last block**, and every free does exactly when 1024 divides `COMEX_total_pages`.
-/

namespace Comex
namespace Buddy

open Aligned

/-- The merging rounds of `COMEX_free_page`, with the indices into `COMEX_Buddy_page`
they form: the buddy each round looks at, the head a merge moves to. -/
def mergeTraced : ℕ → ℕ → ℕ → ℕ → Buddy → List ℤ × Buddy × ℕ × ℕ
  | 0, page, _, order, s => ([], s, page, order)
  | n + 1, page, pageIdx, order, s =>
    let buddyIdx := pageIdx ^^^ (1 <<< order)
    let buddy : ℤ := page + ((buddyIdx : ℤ) - pageIdx)
    if s.pageIsBuddy buddy.toNat order then
      let s := s.listDel buddy.toNat
      let s := s.rmvPageOrder buddy.toNat
      let s := s.rmvPageOrder page
      let s := s.addNrFree order (-1)
      let combinedIdx := pageIdx &&& (idxMask ^^^ (1 <<< order))
      let head : ℤ := page + ((combinedIdx : ℤ) - pageIdx)
      let r := mergeTraced n head.toNat combinedIdx (order + 1) s
      (buddy :: head :: r.1, r.2)
    else ([buddy], s, page, order)

/-- The indices `COMEX_free_page` forms. -/
def freeTrace (s : Buddy) (inPageNO order : ℕ) : List ℤ :=
  let r := s.checkCtr inPageNO order (-1)
  if r.1 then
    (mergeTraced (maxOrder - 1 - order) inPageNO ((r.2.page inPageNO).pageNO &&& idxMask)
      order r.2).1
  else []

/-- A pointer moved by the difference of two indices. -/
theorem toNat_move (page i j : ℕ) : ((page : ℤ) + ((i : ℤ) - j)).toNat = page + i - j := by
  omega

/-- **Recording the indices changes nothing else.** -/
theorem mergeTraced_snd (n : ℕ) : ∀ (page pageIdx order : ℕ) (s : Buddy),
    (mergeTraced n page pageIdx order s).2 = mergeLoop n page pageIdx order s := by
  induction n with
  | zero => exact fun _ _ _ _ => rfl
  | succ n ih =>
    intro page pageIdx order s
    rw [mergeTraced, mergeLoop]
    simp only [toNat_move]
    split
    · exact ih _ _ _ _
    · rfl

/-- Every index is one of a descriptor. -/
def InRange (s : Buddy) (l : List ℤ) : Prop := ∀ i ∈ l, 0 ≤ i ∧ i < s.totalPages

instance (s : Buddy) (l : List ℤ) : Decidable (InRange s l) :=
  inferInstanceAs (Decidable (∀ i ∈ l, 0 ≤ i ∧ i < s.totalPages))

/-- Freeing `[p, p + 2 ^ k)` completes the last block: the array ends in a block of order
`j` below the top with no buddy behind it, which holds the freed one and is free otherwise. -/
def CompletesTail (s : Buddy) (p k : ℕ) : Prop :=
  ∃ j < maxOrder - 1, 2 ^ j ∣ s.totalPages ∧ ¬ 2 ^ (j + 1) ∣ s.totalPages ∧
    s.totalPages - 2 ^ j ≤ p ∧
    ∀ q, s.totalPages - 2 ^ j ≤ q → q < s.totalPages →
      (s.page q).cmxCntr = 0 ∨ p ≤ q ∧ q < p + 2 ^ k

/-! ### The last block -/

/-- The loose block lies in the last block, of order `j`, which is free otherwise. -/
structure TailAt (s : Buddy) (b : Block) (j : ℕ) : Prop where
  lt : j < maxOrder - 1
  dvd : 2 ^ j ∣ s.totalPages
  odd : ¬ 2 ^ (j + 1) ∣ s.totalPages
  le_head : s.totalPages - 2 ^ j ≤ b.head
  free : ∀ q, s.totalPages - 2 ^ j ≤ q → q < s.totalPages → q ∈ s.freePages ∨ q ∈ b

section Tail

variable {s : Buddy} {b : Block} {j : ℕ}

theorem TailAt.le_total (h : TailAt s b j) : 2 ^ j ≤ s.totalPages := by
  have hpos : 0 < s.totalPages := Nat.pos_of_ne_zero fun h0 => h.odd (by simp [h0])
  exact Nat.le_of_dvd hpos h.dvd

/-- The last block is no smaller than a block inside it. -/
theorem TailAt.order_le (h : TailAt s b j) (hb : Loose s b) : b.order ≤ j := by
  have hend := hb.in_range
  have hle := h.le_head
  by_contra hlt
  have hpow : 2 ^ j < 2 ^ b.order := Nat.pow_lt_pow_right (by decide) (by omega)
  omega

/-- **The buddy lies past the end exactly when the block is itself the last one**: the block is
the left half of its parent, and the array ends between the halves. -/
theorem Loose.tailAt_self (hb : Loose s b) (hlt : b.order < maxOrder - 1) :
    TailAt s b b.order ↔ s.totalPages ≤ b.buddy.head := by
  have hend := hb.in_range
  have hpos := Nat.two_pow_pos b.order
  have hnext : b.head + 2 ^ b.order = (b.idx + 1) * 2 ^ b.order := by
    rw [Block.head, Nat.add_mul, Nat.one_mul]
  constructor
  · -- the array ends where the block does, so its index is even
    intro h
    have htot : s.totalPages = (b.idx + 1) * 2 ^ b.order := by
      have := h.le_head
      have := h.le_total
      omega
    have heven : b.idx % 2 = 0 := by
      by_contra hodd
      apply h.odd
      rw [htot, Nat.pow_succ']
      exact Nat.mul_dvd_mul_right (by omega) _
    rw [Block.head, Block.buddy, if_pos heven, htot]
  · -- a right half has its buddy before it, inside the array
    intro hge
    have heven : b.idx % 2 = 0 := by
      by_contra hodd
      have hdown : b.buddy.head ≤ b.head := by
        rw [Block.head, Block.head, Block.buddy, if_neg hodd]
        exact Nat.mul_le_mul_right _ (Nat.sub_le _ _)
      omega
    have hup : b.buddy.head = (b.idx + 1) * 2 ^ b.order := by
      rw [Block.head, Block.buddy, if_pos heven]
    have htot : s.totalPages = (b.idx + 1) * 2 ^ b.order := by omega
    refine ⟨hlt, ?_, ?_, by omega, fun q h1 h2 => Or.inr ?_⟩
    · rw [htot]
      exact Nat.dvd_mul_left _ _
    · rw [htot, Nat.pow_succ']
      intro hd
      have := (Nat.mul_dvd_mul_iff_right hpos).mp hd
      omega
    · exact Block.mem_iff_range.mpr ⟨by omega, by omega⟩

/-- Inside a larger last block lies the parent too. -/
theorem TailAt.parent_bounds (h : TailAt s b j) (hb : Loose s b) (hlt : b.order < j) :
    s.totalPages - 2 ^ j ≤ b.parent.head ∧
      b.parent.head + 2 ^ b.parent.order ≤ s.totalPages := by
  have hdvd : 2 ^ (b.order + 1) ∣ 2 ^ j := pow_dvd_pow 2 hlt
  obtain ⟨t, ht⟩ := dvd_trans hdvd h.dvd
  obtain ⟨m, hm⟩ := Nat.dvd_sub (dvd_trans hdvd h.dvd) hdvd
  have hpar : b.parent.head = 2 ^ (b.order + 1) * (b.head / 2 ^ (b.order + 1)) := by
    rw [Block.head, Block.parent, Nat.mul_comm, Block.head, Nat.pow_succ,
      ← Nat.mul_comm 2, Nat.mul_comm 2, Nat.mul_comm b.idx, Nat.mul_div_mul_left _ _
        (Nat.two_pow_pos _)]
  have hpos := Nat.two_pow_pos (b.order + 1)
  rw [Block.parent_order, hpar]
  constructor
  · rw [hm]
    refine Nat.mul_le_mul_left _ ((Nat.le_div_iff_mul_le hpos).mpr ?_)
    rw [Nat.mul_comm, ← hm]
    exact h.le_head
  · have hq : b.head / 2 ^ (b.order + 1) < t := by
      rw [Nat.div_lt_iff_lt_mul hpos, Nat.mul_comm, ← ht]
      exact hb.head_lt
    rw [ht, ← Nat.mul_succ]
    exact Nat.mul_le_mul_left _ hq

/-- Inside a larger last block the buddy is listed, so the loop merges. -/
theorem TailAt.buddy_mem (h : TailAt s b j) (hb : Loose s b) (hlt : b.order < j) :
    b.buddy ∈ s.freeBlocks := by
  obtain ⟨hlow, hhigh⟩ := h.parent_bounds hb hlt
  have hmem : ∀ q ∈ b.buddy, q ∈ s.freePages := by
    intro q hq
    obtain ⟨h1, h2⟩ := Block.mem_iff_range.mp (Block.mem_parent_iff.mpr (Or.inr hq))
    apply (h.free q (by omega) (by omega)).resolve_right
    intro hqb
    exact Block.disjoint_buddy hqb hq
  obtain ⟨c, hc, hle, hsub⟩ := hb.coalesced.exists_above b.order
    (by have := hb.order_lt; omega) b.buddy rfl hmem
  rcases hle.eq_or_lt with heq | hlt'
  · rwa [← Block.eq_of_mem (hsub _ b.buddy.head_mem) b.buddy.head_mem heq.symm]
  · -- a larger block would hold the loose one as well
    refine absurd ⟨c, hc, ?_⟩ (hb.out b.head b.head_mem)
    have hpar : b.buddy.head ∈ b.parent := Block.mem_parent_iff.mpr (Or.inr b.buddy.head_mem)
    exact Block.mem_of_le hpar (hsub _ b.buddy.head_mem) hlt'
      (Block.mem_parent_of_mem b.head_mem)

/-- A merge below the order of the last block leads to the same last block. -/
theorem TailAt.merge_iff {s' : Buddy} (hb : Loose s b) (htot : s'.totalPages = s.totalPages)
    (hcov : ∀ q, q ∈ s'.freePages ∨ q ∈ b.parent ↔ q ∈ s.freePages ∨ q ∈ b)
    (hlt : b.order < j) : TailAt s' b.parent j ↔ TailAt s b j := by
  constructor
  · intro h
    refine ⟨h.lt, htot ▸ h.dvd, htot ▸ h.odd, ?_, fun q h1 h2 => (hcov q).mp ?_⟩
    · have hpar := (Block.mem_iff_range.mp (Block.mem_parent_of_mem b.head_mem)).1
      exact htot ▸ h.le_head.trans hpar
    · exact h.free q (htot ▸ h1) (htot ▸ h2)
  · intro h
    refine ⟨h.lt, htot ▸ h.dvd, htot ▸ h.odd, ?_, fun q h1 h2 => (hcov q).mpr ?_⟩
    · exact htot ▸ (h.parent_bounds hb hlt).1
    · exact h.free q (htot ▸ h1) (htot ▸ h2)

/-- **The rounds stay in the array unless the loose block ends up as the last one.**
Induction on the rounds left: a merge keeps the last block, the round that merges no more
has looked past the end just when its block is the last. -/
theorem Loose.mergeTraced_inRange_iff {n : ℕ} : ∀ {s : Buddy} {b : Block}, Loose s b →
    n + b.order = maxOrder - 1 →
    (InRange s (mergeTraced n b.head (b.head % 2 ^ maxOrder) b.order s).1 ↔
      ¬ ∃ j, TailAt s b j) := by
  induction n with
  | zero =>
    intro s b hb hn
    refine ⟨fun _ => ?_, fun _ i hi => absurd hi List.not_mem_nil⟩
    rintro ⟨j, h⟩
    have := h.order_le hb
    have := h.lt
    omega
  | succ n ih =>
    intro s b hb hn
    have hlt : b.order < maxOrder - 1 := by omega
    have hmask : idxMask = 1 <<< maxOrder - 1 := rfl
    have hbuddy : (b.head : ℤ) + (((b.head % 2 ^ maxOrder ^^^ 1 <<< b.order : ℕ) : ℤ) -
        (b.head % 2 ^ maxOrder : ℕ)) = b.buddy.head := by
      have heq := b.head_buddy_eq (T := maxOrder) (by omega)
      have := Nat.mod_le b.head (2 ^ maxOrder)
      omega
    have hparent : (b.head : ℤ) + (((b.head % 2 ^ maxOrder &&&
        (idxMask ^^^ 1 <<< b.order) : ℕ) : ℤ) - (b.head % 2 ^ maxOrder : ℕ)) = b.parent.head := by
      have heq := b.head_parent_eq (T := maxOrder) (by omega)
      have := Nat.mod_le b.head (2 ^ maxOrder)
      rw [hmask]
      omega
    rw [mergeTraced]
    simp only [hbuddy, hparent, Int.toNat_natCast]
    rw [hmask, b.clear_eq_mod (T := maxOrder) (by omega)]
    by_cases hp : s.pageIsBuddy b.buddy.head b.order = true
    · have hfree : b.buddy ∈ s.freeBlocks := hb.links.pageIsBuddy_iff.mp hp
      obtain ⟨hround, hcov⟩ := hb.merge_round hlt hfree
      have htail : (∃ j, TailAt (s.takeOff b.buddy.head b.order) b.parent j) ↔
          ∃ j, TailAt s b j := by
        apply exists_congr
        intro j
        constructor
        · intro h
          have hle := h.order_le hround
          rw [Block.parent_order] at hle
          exact (TailAt.merge_iff hb (takeOff_totalPages s _ _) hcov (by omega)).mp h
        · intro h
          refine (TailAt.merge_iff hb (takeOff_totalPages s _ _) hcov
            ((h.order_le hb).lt_of_ne ?_)).mpr h
          -- the buddy of the last block is no descriptor
          rintro rfl
          have := (hb.tailAt_self hlt).mp h
          have := hb.links.lt_total hfree
          omega
      rw [if_pos hp, hb.merge_statements hlt hfree, ← htail,
        ← ih hround (by rw [Block.parent_order]; omega)]
      simp only [InRange, List.forall_mem_cons, takeOff_totalPages]
      have hbud : b.buddy.head < s.totalPages := hb.links.lt_total hfree
      have hpar : b.parent.head < s.totalPages := hround.head_lt
      exact ⟨fun h => h.2.2, fun h => ⟨⟨by omega, by omega⟩, ⟨by omega, by omega⟩, h⟩⟩
    · have hno : b.buddy ∉ s.freeBlocks := fun h => hp (hb.links.pageIsBuddy_iff.mpr h)
      have htail : (∃ j, TailAt s b j) ↔ s.totalPages ≤ b.buddy.head := by
        rw [← hb.tailAt_self hlt]
        refine ⟨?_, fun h => ⟨_, h⟩⟩
        rintro ⟨j, h⟩
        rcases (h.order_le hb).eq_or_lt with rfl | hj
        · exact h
        · exact absurd (h.buddy_mem hb hj) hno
      rw [if_neg hp, htail]
      simp only [InRange, List.forall_mem_singleton]
      omega

end Tail

/-! ### Frees of a run -/

section Frees

variable {T p k : ℕ} {s : Buddy}

/-- The last block, before the freed block's counters are cleared and after. -/
theorem Inv.exists_tailAt_iff (h : Inv s) (hf : CanFree s p k) :
    (∃ j, TailAt (s.setCtr p (2 ^ k) 0) (Block.around k p) j) ↔ CompletesTail s p k := by
  have hfree : ∀ q, q < s.totalPages → (q ∈ s.freePages ∨ q ∈ Block.around k p ↔
      (s.page q).cmxCntr = 0 ∨ p ≤ q ∧ q < p + 2 ^ k) := fun q hq =>
    or_congr (h.free_iff q hq).symm (mem_around_iff hf.aligned)
  have hhead := Block.head_around hf.aligned
  constructor
  · rintro ⟨j, htail⟩
    refine ⟨j, htail.lt, htail.dvd, htail.odd, hhead ▸ htail.le_head, fun q h1 h2 => ?_⟩
    exact (hfree q h2).mp (htail.free q h1 h2)
  · rintro ⟨j, hlt, hdvd, hodd, hle, hall⟩
    exact ⟨j, hlt, hdvd, hodd, hhead.symm ▸ hle, fun q h1 h2 => (hfree q h2).mpr (hall q h1 h2)⟩

/-- A legal free stays in the array unless it completes the last block. -/
theorem Inv.freeTrace_inRange (h : Inv s) (hf : CanFree s p k) :
    InRange s (freeTrace s p k) ↔ ¬ CompletesTail s p k := by
  have hctr : s.checkCtr p k (-1) = (true, s.setCtr p (2 ^ k) 0) :=
    checkCtr_eq (Or.inr rfl) hf.aligned hf.ctr_eq
  have hno : ((s.setCtr p (2 ^ k) 0).page p).pageNO = p := by
    rw [setCtr_pageNO]
    have := hf.in_range
    have := Nat.two_pow_pos k
    exact h.links.pageNO p (by omega)
  have hloop := (h.loose_of_canFree hf).mergeTraced_inRange_iff (n := maxOrder - 1 - k)
    (by have := hf.order_lt; simp only [Block.around]; omega)
  rw [Block.head_around hf.aligned, ← and_idxMask, h.exists_tailAt_iff hf] at hloop
  rw [← hloop, freeTrace]
  simp only [hctr, if_true, hno]
  rfl

/-- The pages freed in index order, all but the last: the last then completes the last block. -/
theorem exists_completesTail (h : ¬ 1024 ∣ T) :
    ∃ s p, Reach T s ∧ CanFree s p 0 ∧ CompletesTail s p 0 := by
  have hpos : 0 < T := Nat.pos_of_ne_zero fun h0 => h (by simp [h0])
  obtain ⟨hr, hfree⟩ := @reach_freeEach T (fun _ => true) (T - 1) 0 _ (.start rfl)
    (by omega) fun p _ => not_mem_freePages_initEmpty T p
  obtain ⟨hinv, htot, -⟩ := reach_inv hr
  generalize freeEach (fun _ => true) (T - 1) 0 (initEmpty T) = s at hr hfree hinv htot
  have hctr : ∀ q, q < T → ((s.page q).cmxCntr = 0 ↔ q < T - 1) := by
    intro q hq
    rw [hinv.free_iff q (by omega), hfree]
    simp [not_mem_freePages_initEmpty]
  refine ⟨s, T - 1, hr, ⟨by decide, by simp, by rw [htot, pow_zero]; omega, fun i hi => ?_⟩, ?_⟩
  · obtain rfl : i = 0 := by simpa using hi
    apply (hinv.ctr_eq (T - 1) (by omega)).resolve_left
    intro h0
    have := (hctr (T - 1) (by omega)).mp h0
    omega
  · -- the order of the lowest set bit of `T`
    obtain ⟨j, m, hm, hT⟩ := Nat.exists_eq_two_pow_mul_odd hpos.ne'
    have hj : 2 ^ j ∣ T := Dvd.intro _ hT.symm
    have hodd : ¬ 2 ^ (j + 1) ∣ T := by
      intro hd
      rw [hT, Nat.pow_succ] at hd
      have := (Nat.mul_dvd_mul_iff_left (Nat.two_pow_pos j)).mp hd
      have := Nat.odd_iff.mp hm
      omega
    have hlt : j < maxOrder - 1 := by
      by_contra hge
      exact h (dvd_trans (pow_dvd_pow 2 (show 10 ≤ j from not_lt.mp hge)) hj)
    have := Nat.two_pow_pos j
    refine ⟨j, hlt, htot ▸ hj, htot ▸ hodd, by omega, fun q h1 h2 => ?_⟩
    rw [hctr q (by omega), pow_zero]
    omega

/-- A multiple of 1024 pages ends with a block that has no buddy to look for. -/
theorem not_completesTail (h : 1024 ∣ s.totalPages) : ¬ CompletesTail s p k := by
  rintro ⟨j, hj, -, hodd, -⟩
  exact hodd (dvd_trans (pow_dvd_pow 2 (show j + 1 ≤ 10 from hj)) h)

end Frees

/-- **When the merging loop stays in the array**: on each legal free that does not complete
the last block, and throughout all runs just when 1024 divides the number of pages. -/
theorem freeTrace_inRange_iff (T : ℕ) :
    (∀ s, Reach T s → ∀ p k, CanFree s p k →
      (InRange s (freeTrace s p k) ↔ ¬ CompletesTail s p k)) ∧
    ((∀ s, Reach T s → ∀ p k, CanFree s p k → InRange s (freeTrace s p k)) ↔ 1024 ∣ T) := by
  have hfree : ∀ s, Reach T s → ∀ p k, CanFree s p k →
      (InRange s (freeTrace s p k) ↔ ¬ CompletesTail s p k) :=
    fun _ hr _ _ hf => (reach_inv hr).1.freeTrace_inRange hf
  refine ⟨hfree, fun hall => ?_, fun hd s hr p k hf => ?_⟩
  · by_contra hd
    obtain ⟨s, p, hr, hf, htail⟩ := exists_completesTail hd
    exact (hfree s hr p 0 hf).mp (hall s hr p 0 hf) htail
  · rw [hfree s hr p k hf]
    exact not_completesTail ((reach_inv hr).2.1.symm ▸ hd)

/-- Six pages: page 2 looks at its buddy, page 3, and at nothing else. -/
theorem freeTrace_inRange_six :
    freeTrace (initEmpty 6) 2 0 = [3] ∧ ¬ CompletesTail (initEmpty 6) 2 0 :=
  ⟨by decide, ((freeTrace_inRange_iff 6).1 _ (.start rfl) 2 0 (by decide)).mp (by decide)⟩

/-- **The only page of a one-page array is freed by looking at descriptor 1.** -/
theorem freeTrace_out_of_range : freeTrace (initEmpty 1) 0 0 = [1] ∧
    ¬ ∀ T ≥ 1, ∀ s, Reach T s → ∀ p k, CanFree s p k → InRange s (freeTrace s p k) := by
  refine ⟨by decide, fun h => ?_⟩
  have hin := h 1 le_rfl (initEmpty 1) (.start rfl) 0 0 (by decide) 1 (by decide)
  exact absurd hin.2 (by decide)

end Buddy
end Comex
