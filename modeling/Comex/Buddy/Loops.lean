import Comex.Buddy.Links

/-!
# The splitting, merging and counting loops

While a block is being split or merged it is on no list: `Loose s b` says that
the lists and descriptors of `s` agree, that what they list is coalesced, and
that `b` lies in range outside it.  Each round of `expandLoop` lists the upper
half of the loose block, each round of `mergeLoop` takes the buddy off its list
and joins it, and the free pages together with the loose block never change.

## Main results

* `Loose.expandLoop` — splitting ends with the loose block at the order asked for.
* `Loose.mergeLoop` — merging ends with a loose block that has no free buddy.
* `checkCtr_eq` — a block whose counters are as expected is recounted.
-/

namespace Comex
namespace Buddy

open Aligned

/-- The pages of the listed blocks. -/
def freePages (s : Buddy) : Set ℕ := cover s.freeBlocks

/-- Block `b` is in range and on no list, and what is listed is in order. -/
structure Loose (s : Buddy) (b : Block) : Prop where
  links : Links s
  coalesced : Coalesced (maxOrder - 1) s.freeBlocks
  order_lt : b.order < maxOrder
  in_range : b.head + 2 ^ b.order ≤ s.totalPages
  out : ∀ p ∈ b, p ∉ s.freePages

/-- What a loop leaves alone: everything but the lists and the descriptors' orders. -/
structure SameCtr (s s' : Buddy) : Prop where
  totalPages : s'.totalPages = s.totalPages
  failed : s'.failed = s.failed
  cmxCntr : ∀ p, (s'.page p).cmxCntr = (s.page p).cmxCntr

theorem SameCtr.refl (s : Buddy) : SameCtr s s := ⟨rfl, rfl, fun _ => rfl⟩

theorem SameCtr.trans {s t u : Buddy} (h : SameCtr s t) (h' : SameCtr t u) : SameCtr s u :=
  ⟨h'.totalPages.trans h.totalPages, h'.failed.trans h.failed,
    fun p => (h'.cmxCntr p).trans (h.cmxCntr p)⟩

theorem sameCtr_putFirst (s : Buddy) (p k : ℕ) : SameCtr s (s.putFirst p k) :=
  ⟨rfl, rfl, fun q => putFirst_cmxCntr s p q k⟩

theorem sameCtr_takeOff (s : Buddy) (p k : ℕ) : SameCtr s (s.takeOff p k) :=
  ⟨rfl, rfl, fun q => takeOff_cmxCntr s p q k⟩

namespace Loose

variable {s : Buddy} {b : Block}

/-- A loose block's head is on no list. -/
theorem head_not_listed (h : Loose s b) (k : ℕ) : b.head ∉ (s.area k).freeList := fun hk =>
  h.out _ b.head_mem ⟨_, (h.links.mem_list_iff.mp hk).2, Block.mem_around k _⟩

theorem head_lt (h : Loose s b) : b.head < s.totalPages := by
  have := h.in_range
  have := Nat.two_pow_pos b.order
  omega

/-- A listed block becomes loose when it is taken off. -/
theorem of_takeOff {p k : ℕ} (hl : Links s) (hc : Coalesced (maxOrder - 1) s.freeBlocks)
    (hp : p ∈ (s.area k).freeList) :
    Loose (s.takeOff p k) (Block.around k p) ∧
      ∀ q, q ∈ (s.takeOff p k).freePages ↔ q ∈ s.freePages ∧ q ∉ Block.around k p := by
  obtain ⟨hd, hb⟩ := hl.mem_list_iff.mp hp
  have hblocks := hl.freeBlocks_takeOff hp
  have hpages : ∀ q, q ∈ (s.takeOff p k).freePages ↔
      q ∈ s.freePages ∧ q ∉ Block.around k p := by
    intro q
    rw [freePages, hblocks]
    exact hc.mem_cover_erase hb
  refine ⟨⟨hl.takeOff hp, ?_, (hl.aligned k p hp).1, ?_, ?_⟩, hpages⟩
  · rw [hblocks]
    exact hc.erase _
  · rw [Block.head_around hd]
    exact (hl.aligned k p hp).2.2
  · intro q hq hfree
    exact ((hpages q).mp hfree).2 hq

/-- One round of `COMEX_expand`: the upper half is listed, the lower stays loose. -/
theorem expand_round (h : Loose s b) (hpos : 0 < b.order) :
    Loose (s.putFirst b.high.head (b.order - 1)) b.low ∧
      ∀ q, q ∈ (s.putFirst b.high.head (b.order - 1)).freePages ∨ q ∈ b.low ↔
        q ∈ s.freePages ∨ q ∈ b := by
  have hsub := fun q => Block.mem_iff_low_or_high hpos (p := q)
  have hlt := h.order_lt
  have hpow : 2 ^ b.order = 2 ^ (b.order - 1) + 2 ^ (b.order - 1) := by
    rw [← Nat.mul_two, ← Nat.pow_succ, Nat.succ_eq_add_one, Nat.sub_add_cancel hpos]
  have hrange := h.in_range
  have hhead := Block.head_high hpos
  have haround : Block.around (b.order - 1) b.high.head = b.high := b.high.around_head
  have hhigh : ∀ q ∈ b.high, q ∉ s.freePages := fun q hq => h.out q ((hsub q).mpr (Or.inr hq))
  have hlist : ∀ j, b.high.head ∉ (s.area j).freeList := fun j hj =>
    hhigh _ b.high.head_mem ⟨_, (h.links.mem_list_iff.mp hj).2, Block.mem_around j _⟩
  have hblocks : (s.putFirst b.high.head (b.order - 1)).freeBlocks
      = insert b.high s.freeBlocks := by
    rw [freeBlocks_putFirst (k := b.order - 1) b.high.dvd_head, haround]
  have hpages : ∀ q, q ∈ (s.putFirst b.high.head (b.order - 1)).freePages ↔
      q ∈ b.high ∨ q ∈ s.freePages := by
    intro q
    rw [freePages, hblocks, mem_cover_insert]
    rfl
  refine ⟨⟨?_, ?_, ?_, ?_, ?_⟩, fun q => ?_⟩
  · exact h.links.putFirst (by omega) b.high.dvd_head (by rw [hhead]; omega) hlist
  · rw [hblocks]
    apply h.coalesced.insert (by simp only [Block.high_order]; omega) hhigh
    intro _ hmem
    -- the lower half is the buddy, and it lies in the loose block
    rw [Block.buddy_high] at hmem
    exact h.out _ ((hsub _).mpr (Or.inl b.low.head_mem)) ⟨_, hmem, b.low.head_mem⟩
  · simp only [Block.low_order]
    omega
  · have := Nat.two_pow_pos (b.order - 1)
    rw [Block.head_low hpos, Block.low_order, putFirst_totalPages]
    omega
  · intro q hq hfree
    rcases (hpages q).mp hfree with hqh | hqf
    · rw [← Block.buddy_high] at hq
      exact Block.disjoint_buddy hqh hq
    · exact h.out q ((hsub q).mpr (Or.inl hq)) hqf
  · rw [hpages, hsub]
    grind

/-- **Splitting**: the loop ends with the block of order `low` at the same head loose.  Each
round lists the right half and goes on with the left one, which has the same head; no counter
moves, and the pages that are listed or loose stay the same. -/
theorem expandLoop {low : ℕ} : ∀ {high : ℕ} {s : Buddy} {b : Block}, Loose s b →
    b.order = high → low ≤ high →
    let s' := expandLoop b.head low high (1 <<< high) high s
    Loose s' (Block.around low b.head) ∧ SameCtr s s' ∧
      ∀ q, q ∈ s'.freePages ∨ q ∈ Block.around low b.head ↔ q ∈ s.freePages ∨ q ∈ b := by
  intro high
  induction high with
  | zero =>
    intro s b h hb hle
    obtain rfl : low = 0 := by omega
    have haround : Block.around 0 b.head = b := by rw [← hb, Block.around_head]
    rw [haround]
    exact ⟨h, SameCtr.refl s, fun _ => Iff.rfl⟩
  | succ high ih =>
    intro s b h hb hle
    rw [Buddy.expandLoop]
    by_cases hlt : low < high + 1
    · have hpos : 0 < b.order := by omega
      have hhead := Block.head_high hpos
      -- `size >>= 1` is the size of a half, and the page at it heads the right one
      have hsize : 1 <<< (high + 1) >>> 1 = 1 <<< high := by
        simp only [Nat.one_shiftLeft, Nat.shiftRight_one, Nat.pow_succ]
        omega
      have hhigh : b.high.head = b.head + 1 <<< high := by
        rw [hhead, hb, Nat.one_shiftLeft, Nat.add_sub_cancel]
      obtain ⟨hround, hcov⟩ := h.expand_round hpos
      rw [hb, Nat.add_sub_cancel, hhigh] at hround hcov
      obtain ⟨hloose, hsame, hpages⟩ := ih hround (by simp [hb]) (by omega)
      rw [Block.head_low hpos] at hloose hsame hpages
      simp only [if_pos hlt, hsize, Nat.add_sub_cancel]
      exact ⟨hloose, (sameCtr_putFirst s _ _).trans hsame,
        fun q => (hpages q).trans (hcov q)⟩
    · obtain rfl : low = high + 1 := by omega
      rw [if_neg hlt, ← hb, Block.around_head]
      exact ⟨h, SameCtr.refl s, fun _ => Iff.rfl⟩

/-- One round of the merge: the listed buddy joins the loose block. -/
theorem merge_round (h : Loose s b) (hlt : b.order < maxOrder - 1)
    (hbuddy : b.buddy ∈ s.freeBlocks) :
    Loose (s.takeOff b.buddy.head b.order) b.parent ∧
      ∀ q, q ∈ (s.takeOff b.buddy.head b.order).freePages ∨ q ∈ b.parent ↔
        q ∈ s.freePages ∨ q ∈ b := by
  have hlist : b.buddy.head ∈ (s.area b.order).freeList := hbuddy
  have haround : Block.around b.order b.buddy.head = b.buddy := b.buddy.around_head
  obtain ⟨hloose, hpages⟩ := of_takeOff h.links h.coalesced hlist
  rw [haround] at hloose hpages
  have hparent : ∀ q, q ∈ b.parent ↔ q ∈ b ∨ q ∈ b.buddy := fun q => Block.mem_parent_iff
  refine ⟨⟨hloose.links, hloose.coalesced, ?_, ?_, ?_⟩, fun q => ?_⟩
  · simp only [Block.parent_order]
    omega
  · -- the parent ends where the later of its halves ends
    have hlast : b.parent.head + 2 ^ b.parent.order - 1 ∈ b.parent := by
      have := Nat.two_pow_pos b.parent.order
      exact Block.mem_iff_range.mpr ⟨by omega, by omega⟩
    have h1 := h.in_range
    have h2 := hloose.in_range
    have := Nat.two_pow_pos b.parent.order
    rw [takeOff_totalPages] at h2 ⊢
    rcases (hparent _).mp hlast with hq | hq <;> have hq := (Block.mem_iff_range.mp hq).2
    · omega
    · simp only [Block.buddy_order] at hq h2
      omega
  · intro q hq hfree
    obtain ⟨hqf, hqb⟩ := (hpages q).mp hfree
    rcases (hparent q).mp hq with hq | hq
    · exact h.out q hq hqf
    · exact hqb hq
  · rw [hpages, hparent]
    have hbf : q ∈ b.buddy → q ∈ s.freePages := fun hq => ⟨_, hbuddy, hq⟩
    grind

/-- The statements of that round: the merged page heads no block, so clearing its order
changes nothing. -/
theorem merge_statements (h : Loose s b) (hlt : b.order < maxOrder - 1)
    (hbuddy : b.buddy ∈ s.freeBlocks) :
    (((s.listDel b.buddy.head).rmvPageOrder b.buddy.head).rmvPageOrder
      b.head).addNrFree b.order (-1) = s.takeOff b.buddy.head b.order := by
  obtain ⟨hround, -⟩ := h.merge_round hlt hbuddy
  have hin : b.head ∈ b.parent := Block.mem_parent_of_mem b.head_mem
  have hno : ∀ k, b.head ∉ ((s.takeOff b.buddy.head b.order).area k).freeList :=
    fun k hk => hround.out _ hin ⟨_, (hround.links.mem_list_iff.mp hk).2, Block.mem_around k _⟩
  have heq := hround.links.rmvPageOrder_eq (p := b.head) h.head_lt hno
  conv_rhs => rw [← heq]
  rfl

/-- **Merging**: the loop ends with a loose block that is of the top order or has
no free buddy. -/
theorem mergeLoop : ∀ {n : ℕ} {s : Buddy} {b : Block}, Loose s b →
    n + b.order = maxOrder - 1 →
    let m := mergeLoop n b.head (b.head % 2 ^ maxOrder) b.order s
    ∃ c : Block, m.2.1 = c.head ∧ m.2.2 = c.order ∧ Loose m.1 c ∧ SameCtr s m.1 ∧
      (c.order < maxOrder - 1 → c.buddy ∉ m.1.freeBlocks) ∧
      ∀ q, q ∈ m.1.freePages ∨ q ∈ c ↔ q ∈ s.freePages ∨ q ∈ b := by
  intro n
  induction n with
  | zero =>
    intro s b h hn
    exact ⟨b, rfl, rfl, h, SameCtr.refl s, fun hlt => absurd hlt (by omega), fun _ => Iff.rfl⟩
  | succ n ih =>
    intro s b h hn
    have hlt : b.order < maxOrder - 1 := by omega
    have hmask : idxMask = 1 <<< maxOrder - 1 := rfl
    rw [Buddy.mergeLoop]
    simp only [hmask, b.head_buddy_eq (T := maxOrder) (by omega),
      b.head_parent_eq (T := maxOrder) (by omega)]
    rw [b.clear_eq_mod (T := maxOrder) (by omega)]
    by_cases hb : s.pageIsBuddy b.buddy.head b.order = true
    · -- the buddy is listed: it comes off, and the parent is loose
      have hfree : b.buddy ∈ s.freeBlocks := h.links.pageIsBuddy_iff.mp hb
      obtain ⟨hround, hcov⟩ := h.merge_round hlt hfree
      have hclear := h.merge_statements hlt hfree
      obtain ⟨c, h1, h2, h3, h4, h5, h6⟩ := ih hround (by rw [Block.parent_order]; omega)
      rw [if_pos hb, hclear]
      exact ⟨c, h1, h2, h3, (sameCtr_takeOff s _ _).trans h4, h5,
        fun q => (h6 q).trans (hcov q)⟩
    · rw [if_neg hb]
      exact ⟨b, rfl, rfl, h, SameCtr.refl s,
        fun _ hmem => hb (h.links.pageIsBuddy_iff.mpr hmem), fun _ => Iff.rfl⟩

end Loose

/-! ### The page counters -/

/-- The counters of `n` pages from `i` on set to `c`. -/
def setCtr (s : Buddy) (i n : ℕ) (c : ℤ) : Buddy :=
  { s with page := fun q =>
      if i ≤ q ∧ q < i + n then { s.page q with cmxCntr := c } else s.page q }

/-- The value a counter has before `COMEX_checkCtr` moves it by `val`. -/
def ctrBefore (val : ℤ) : ℤ := if val = 1 then 0 else 1

/-- The loop of `COMEX_checkCtr` on counters that are all as they should be: it complains of
none, and sets every one of them. -/
theorem checkCtrLoop_eq {val : ℤ} (hval : val = 1 ∨ val = -1) : ∀ (n i : ℕ) (s : Buddy),
    (∀ q, i ≤ q → q < i + n → (s.page q).cmxCntr = ctrBefore val) →
    checkCtrLoop val n i s = (true, s.setCtr i n (ctrBefore val + val)) := by
  intro n
  induction n with
  | zero =>
    intro i s _
    have hid : s.setCtr i 0 (ctrBefore val + val) = s := by
      have hpage : ∀ q, ¬ (i ≤ q ∧ q < i + 0) := fun q => by omega
      simp only [setCtr, if_neg (hpage _)]
    rw [checkCtrLoop, hid]
  | succ n ih =>
    intro i s h
    have hi : (s.page i).cmxCntr = ctrBefore val := h i le_rfl (by omega)
    have hok : ¬ (val = 1 ∧ ctrBefore val + val ≠ 1 ∨ val = -1 ∧ ctrBefore val + val ≠ 0) := by
      rcases hval with rfl | rfl <;> simp [ctrBefore]
    simp only [checkCtrLoop, hi, if_neg hok]
    rw [ih]
    · simp only [setCtr, setPage, Prod.mk.injEq, true_and, Buddy.mk.injEq, and_true]
      funext q
      by_cases hq : q = i
      · subst hq
        rw [if_neg (by omega), Function.update_self, if_pos (by omega)]
      · rw [Function.update_of_ne hq]
        by_cases hin : i + 1 ≤ q ∧ q < i + 1 + n
        · rw [if_pos hin, if_pos (by omega)]
        · rw [if_neg hin, if_neg (by omega)]
    · intro q h1 h2
      rw [setPage_page, if_neg (by omega)]
      exact h q (by omega) (by omega)

/-- **A block whose counters are as expected is recounted without complaint.** -/
theorem checkCtr_eq {val : ℤ} (hval : val = 1 ∨ val = -1) {s : Buddy} {p k : ℕ} (hd : 2 ^ k ∣ p)
    (h : ∀ q ∈ Block.around k p, (s.page q).cmxCntr = ctrBefore val) :
    s.checkCtr p k val = (true, s.setCtr p (2 ^ k) (ctrBefore val + val)) := by
  rw [checkCtr, Nat.one_shiftLeft]
  refine checkCtrLoop_eq hval _ _ _ fun q h1 h2 => h q ?_
  rw [Block.mem_iff_range, Block.head_around hd]
  exact ⟨h1, h2⟩

section Fields

variable (s : Buddy) (i n : ℕ) (c : ℤ)

@[simp] theorem setCtr_area : (s.setCtr i n c).area = s.area := rfl

@[simp] theorem setCtr_totalPages : (s.setCtr i n c).totalPages = s.totalPages := rfl

@[simp] theorem setCtr_freePages : (s.setCtr i n c).freePages = s.freePages := rfl

theorem setCtr_cmxCntr (q : ℕ) : ((s.setCtr i n c).page q).cmxCntr =
    if i ≤ q ∧ q < i + n then c else (s.page q).cmxCntr := by
  simp only [setCtr]
  split <;> rfl

@[simp] theorem setCtr_pageNO (q : ℕ) : ((s.setCtr i n c).page q).pageNO = (s.page q).pageNO := by
  simp only [setCtr]
  split <;> rfl

@[simp] theorem setCtr_mapcount (q : ℕ) :
    ((s.setCtr i n c).page q).mapcount = (s.page q).mapcount := by
  simp only [setCtr]
  split <;> rfl

@[simp] theorem setCtr_priv (q : ℕ) : ((s.setCtr i n c).page q).priv = (s.page q).priv := by
  simp only [setCtr]
  split <;> rfl

end Fields

theorem Links.setCtr {s : Buddy} (h : Links s) (i n : ℕ) (c : ℤ) : Links (s.setCtr i n c) where
  pageNO := by simpa using h.pageNO
  aligned := h.aligned
  head_iff := by simpa using h.head_iff
  plain := by simpa using h.plain
  nodup := h.nodup
  count := h.count

end Buddy
end Comex
