import Comex.Buddy.Alloc
import Comex.Lib.Aligned

/-!
# The lists and descriptors agree

Between two calls a free block is recorded three times: its head is on the list
of its order, the head's descriptor carries the order, and `nr_free` counts it.
`Links` says that the three agree, and `freeBlocks` reads off the blocks.  Both
loops of the allocator only ever take one block off a list or put one on
(`takeOff`, `putFirst`, `putLast`), so the agreement is proved for these alone.

## Main results

* `Links.takeOff` — taking a listed block off.
* `Links.putFirst`, `Links.putLast` — listing a block that no list holds.
-/

namespace Comex
namespace Buddy

open Aligned

/-- Lists, descriptors and counts record the same free blocks. -/
structure Links (s : Buddy) : Prop where
  pageNO : ∀ p, p < s.totalPages → (s.page p).pageNO = p
  aligned : ∀ k p, p ∈ (s.area k).freeList →
    k < maxOrder ∧ 2 ^ k ∣ p ∧ p + 2 ^ k ≤ s.totalPages
  head_iff : ∀ p, p < s.totalPages → ∀ k,
    (s.page p).mapcount = -128 ∧ (s.page p).priv = k ↔ p ∈ (s.area k).freeList
  plain : ∀ p, p < s.totalPages → (s.page p).mapcount ≠ -128 →
    (s.page p).mapcount = -1 ∧ (s.page p).priv = 0
  nodup : ∀ k, (s.area k).freeList.Nodup
  count : ∀ k, (s.area k).nrFree = (s.area k).freeList.length

/-- The free blocks, as the lists record them. -/
def freeBlocks (s : Buddy) : Set Block := {b | b.head ∈ (s.area b.order).freeList}

theorem mem_freeBlocks {s : Buddy} {b : Block} :
    b ∈ s.freeBlocks ↔ b.head ∈ (s.area b.order).freeList := Iff.rfl

/-- A page is on a list exactly when it heads one of the free blocks. -/
theorem Links.mem_list_iff {s : Buddy} (h : Links s) {k p : ℕ} :
    p ∈ (s.area k).freeList ↔ 2 ^ k ∣ p ∧ Block.around k p ∈ s.freeBlocks := by
  constructor
  · intro hp
    have hd := (h.aligned k p hp).2.1
    refine ⟨hd, ?_⟩
    rw [mem_freeBlocks, Block.head_around hd]
    exact hp
  · rintro ⟨hd, hb⟩
    rwa [mem_freeBlocks, Block.head_around hd] at hb

theorem Links.lt_total {s : Buddy} (h : Links s) {k p : ℕ} (hp : p ∈ (s.area k).freeList) :
    p < s.totalPages := by
  have := (h.aligned k p hp).2.2
  have := Nat.two_pow_pos k
  omega

/-- A page heads at most one free block. -/
theorem Links.order_unique {s : Buddy} (h : Links s) {j k p : ℕ}
    (hj : p ∈ (s.area j).freeList) (hk : p ∈ (s.area k).freeList) : j = k := by
  have hp := h.lt_total hj
  rw [← ((h.head_iff p hp j).mpr hj).2, ((h.head_iff p hp k).mpr hk).2]

/-- The test of `COMEX_page_is_buddy` finds exactly the listed heads. -/
theorem Links.pageIsBuddy_iff {s : Buddy} (h : Links s) {p k : ℕ} :
    s.pageIsBuddy p k = true ↔ p ∈ (s.area k).freeList := by
  simp only [pageIsBuddy, Bool.and_eq_true, decide_eq_true_eq, beq_iff_eq]
  constructor
  · rintro ⟨⟨hp, hm⟩, hk⟩
    exact (h.head_iff p hp k).mp ⟨hm, hk⟩
  · intro hp
    have hlt := h.lt_total hp
    obtain ⟨hm, hk⟩ := (h.head_iff p hlt k).mpr hp
    exact ⟨⟨hlt, hm⟩, hk⟩

/-- Clearing the order of a page that heads no block changes nothing. -/
theorem Links.rmvPageOrder_eq {s : Buddy} (h : Links s) {p : ℕ} (hp : p < s.totalPages)
    (hout : ∀ k, p ∉ (s.area k).freeList) : s.rmvPageOrder p = s := by
  have hm : (s.page p).mapcount ≠ -128 := fun hm =>
    hout _ ((h.head_iff p hp _).mp ⟨hm, rfl⟩)
  obtain ⟨h1, h2⟩ := h.plain p hp hm
  have hd : ({ s.page p with priv := 0, mapcount := -1 } : Page) = s.page p := by
    rw [← h1, ← h2]
  simp only [rmvPageOrder, setPage, hd, Function.update_eq_self]

/-- A block leaves its list: the statements common to both loops. -/
def takeOff (s : Buddy) (p k : ℕ) : Buddy := ((s.listDel p).rmvPageOrder p).addNrFree k (-1)

/-- A block is listed first, as `COMEX_expand` does. -/
def putFirst (s : Buddy) (p k : ℕ) : Buddy := ((s.listAdd p k).addNrFree k 1).setPageOrder p k

/-- A block is listed last, as `COMEX_free_page` does. -/
def putLast (s : Buddy) (p k : ℕ) : Buddy := ((s.setPageOrder p k).listAddTail p k).addNrFree k 1

section Fields

variable (s : Buddy) (p q k j : ℕ)

@[simp] theorem takeOff_totalPages : (s.takeOff p k).totalPages = s.totalPages := rfl

@[simp] theorem putFirst_totalPages : (s.putFirst p k).totalPages = s.totalPages := rfl

@[simp] theorem takeOff_list :
    ((s.takeOff p k).area j).freeList = (s.area j).freeList.erase p := by
  simp only [takeOff, addNrFree, rmvPageOrder, setArea_area, setPage_area, listDel_area]
  split <;> simp_all

@[simp] theorem putFirst_list : ((s.putFirst p k).area j).freeList =
    if j = k then p :: (s.area k).freeList else (s.area j).freeList := by
  simp only [putFirst, addNrFree, setPageOrder, listAdd, setArea_area, setPage_area]
  split <;> simp

@[simp] theorem putLast_list : ((s.putLast p k).area j).freeList =
    if j = k then (s.area k).freeList ++ [p] else (s.area j).freeList := by
  simp only [putLast, addNrFree, setPageOrder, listAddTail, setArea_area, setPage_area]
  split <;> simp

theorem takeOff_page : (s.takeOff p k).page q =
    if q = p then { s.page p with priv := 0, mapcount := -1 } else s.page q := by
  simp [takeOff, addNrFree, rmvPageOrder]

theorem putFirst_page : (s.putFirst p k).page q =
    if q = p then { s.page p with priv := k, mapcount := -128 } else s.page q := by
  simp [putFirst, addNrFree, setPageOrder, listAdd]

theorem putLast_page : (s.putLast p k).page q =
    if q = p then { s.page p with priv := k, mapcount := -128 } else s.page q := by
  simp [putLast, addNrFree, setPageOrder, listAddTail]

@[simp] theorem takeOff_cmxCntr : ((s.takeOff p k).page q).cmxCntr = (s.page q).cmxCntr := by
  rw [takeOff_page]
  split <;> simp_all

@[simp] theorem putFirst_cmxCntr : ((s.putFirst p k).page q).cmxCntr = (s.page q).cmxCntr := by
  rw [putFirst_page]
  split <;> simp_all

@[simp] theorem putLast_cmxCntr : ((s.putLast p k).page q).cmxCntr = (s.page q).cmxCntr := by
  rw [putLast_page]
  split <;> simp_all

end Fields

theorem takeOff_nrFree (s : Buddy) (p k j : ℕ) : ((s.takeOff p k).area j).nrFree =
    if j = k then (s.area j).nrFree - 1 else (s.area j).nrFree := by
  simp only [takeOff, addNrFree, rmvPageOrder, setArea_area, setPage_area, listDel_area]
  split <;> simp_all [Int.sub_eq_add_neg]

theorem putFirst_nrFree (s : Buddy) (p k j : ℕ) : ((s.putFirst p k).area j).nrFree =
    if j = k then (s.area j).nrFree + 1 else (s.area j).nrFree := by
  simp only [putFirst, addNrFree, setPageOrder, listAdd, setArea_area, setPage_area]
  split <;> simp_all

theorem putLast_nrFree (s : Buddy) (p k j : ℕ) : ((s.putLast p k).area j).nrFree =
    if j = k then (s.area j).nrFree + 1 else (s.area j).nrFree := by
  simp only [putLast, addNrFree, setPageOrder, listAddTail, setArea_area, setPage_area]
  split <;> simp_all

/-- **Taking a listed block off keeps the records in agreement.**  The block is on one list
only, once: erasing it there and counting that list down leaves every other record right. -/
theorem Links.takeOff {s : Buddy} (h : Links s) {p k : ℕ} (hp : p ∈ (s.area k).freeList) :
    Links (s.takeOff p k) where
  pageNO := by
    intro q hq
    rw [takeOff_page]
    split
    · next hqp => rw [← hqp]; exact h.pageNO q hq
    · exact h.pageNO q hq
  aligned := by
    intro j q hq
    rw [takeOff_list] at hq
    exact h.aligned j q (List.mem_of_mem_erase hq)
  head_iff := by
    intro q hq j
    rw [takeOff_page, takeOff_list]
    by_cases hqp : q = p
    · subst hqp
      rw [if_pos rfl]
      constructor
      · rintro ⟨hm, -⟩
        simp at hm
      · intro hmem
        exact absurd hmem ((h.nodup j).not_mem_erase)
    · rw [if_neg hqp, h.head_iff q hq j, List.mem_erase_of_ne hqp]
  plain := by
    intro q hq hm
    rw [takeOff_page] at hm ⊢
    by_cases hqp : q = p
    · rw [if_pos hqp]
      exact ⟨rfl, rfl⟩
    · rw [if_neg hqp] at hm ⊢
      exact h.plain q hq hm
  nodup := by
    intro j
    rw [takeOff_list]
    exact (h.nodup j).erase p
  count := by
    intro j
    rw [takeOff_nrFree, takeOff_list, h.count]
    by_cases hjk : j = k
    · subst hjk
      have := List.length_pos_of_mem hp
      rw [if_pos rfl, List.length_erase_of_mem hp]
      omega
    · -- the erasing of the model runs over all lists, and finds the block on one
      have hpj : p ∉ (s.area j).freeList := fun hpj => hjk (h.order_unique hpj hp)
      rw [if_neg hjk, List.erase_of_not_mem hpj]

theorem Links.freeBlocks_takeOff {s : Buddy} (h : Links s) {p k : ℕ}
    (hp : p ∈ (s.area k).freeList) :
    (s.takeOff p k).freeBlocks = s.freeBlocks \ {Block.around k p} := by
  have hd := (h.aligned k p hp).2.1
  ext b
  simp only [mem_freeBlocks, takeOff_list, Set.mem_sdiff, Set.mem_singleton_iff]
  rw [(h.nodup _).mem_erase_iff, and_comm]
  refine and_congr_right fun hb => not_congr ⟨fun hbp => ?_, fun hbp => ?_⟩
  · rw [hbp] at hb
    rw [← hbp, ← h.order_unique hb hp, Block.around_head]
  · rw [hbp, Block.head_around hd]

/-- Listing a block, wherever in the list it goes: the new list is the old one and the block,
in some order. -/
private theorem Links.put {s s' : Buddy} (h : Links s) {p k : ℕ} (hk : k < maxOrder)
    (hd : 2 ^ k ∣ p) (hend : p + 2 ^ k ≤ s.totalPages) (hout : ∀ j, p ∉ (s.area j).freeList)
    (htot : s'.totalPages = s.totalPages)
    (hpage : ∀ q, s'.page q =
      if q = p then { s.page p with priv := k, mapcount := -128 } else s.page q)
    (hnr : ∀ j, (s'.area j).nrFree = if j = k then (s.area j).nrFree + 1 else (s.area j).nrFree)
    (hlist : ∀ j, j ≠ k → (s'.area j).freeList = (s.area j).freeList)
    (hperm : (s'.area k).freeList.Perm (p :: (s.area k).freeList)) : Links s' where
  pageNO := by
    intro q hq
    rw [htot] at hq
    rw [hpage]
    split
    · next hqp => rw [← hqp]; exact h.pageNO q hq
    · exact h.pageNO q hq
  aligned := by
    intro j q hq
    rw [htot]
    by_cases hjk : j = k
    · subst hjk
      rcases List.mem_cons.mp (hperm.mem_iff.mp hq) with rfl | hq
      · exact ⟨hk, hd, hend⟩
      · exact h.aligned _ q hq
    · rw [hlist j hjk] at hq
      exact h.aligned j q hq
  head_iff := by
    intro q hq j
    rw [htot] at hq
    rw [hpage]
    by_cases hqp : q = p
    · subst hqp
      rw [if_pos rfl]
      by_cases hjk : j = k
      · subst hjk
        simp [hperm.mem_iff]
      · rw [hlist j hjk]
        simp [Ne.symm hjk, hout j]
    · rw [if_neg hqp, h.head_iff q hq j]
      by_cases hjk : j = k
      · subst hjk
        simp [hperm.mem_iff, hqp]
      · rw [hlist j hjk]
  plain := by
    intro q hq hm
    rw [htot] at hq
    rw [hpage] at hm ⊢
    by_cases hqp : q = p
    · rw [if_pos hqp] at hm
      exact absurd rfl hm
    · rw [if_neg hqp] at hm ⊢
      exact h.plain q hq hm
  nodup := by
    intro j
    by_cases hjk : j = k
    · subst hjk
      rw [hperm.nodup_iff]
      exact List.nodup_cons.mpr ⟨hout _, h.nodup _⟩
    · rw [hlist j hjk]
      exact h.nodup j
  count := by
    intro j
    rw [hnr, h.count]
    by_cases hjk : j = k
    · subst hjk
      rw [if_pos rfl, hperm.length_eq, List.length_cons]
      norm_cast
    · rw [if_neg hjk, hlist j hjk]

variable {s : Buddy} {p k : ℕ}

/-- **Listing an unlisted block first keeps the records in agreement.** -/
theorem Links.putFirst (h : Links s) (hk : k < maxOrder) (hd : 2 ^ k ∣ p)
    (hend : p + 2 ^ k ≤ s.totalPages) (hout : ∀ j, p ∉ (s.area j).freeList) :
    Links (s.putFirst p k) :=
  h.put hk hd hend hout rfl (putFirst_page s p · k) (putFirst_nrFree s p k ·)
    (fun j hj => by rw [putFirst_list, if_neg hj]) (by rw [putFirst_list, if_pos rfl])

/-- **Listing an unlisted block last keeps the records in agreement.** -/
theorem Links.putLast (h : Links s) (hk : k < maxOrder) (hd : 2 ^ k ∣ p)
    (hend : p + 2 ^ k ≤ s.totalPages) (hout : ∀ j, p ∉ (s.area j).freeList) :
    Links (s.putLast p k) :=
  h.put hk hd hend hout rfl (putLast_page s p · k) (putLast_nrFree s p k ·)
    (fun j hj => by rw [putLast_list, if_neg hj])
    (by rw [putLast_list, if_pos rfl]; exact List.perm_append_singleton _ _)

/-- The blocks after one more is listed at aligned head `p`, first or last. -/
private theorem freeBlocks_put {s' : Buddy} (hd : 2 ^ k ∣ p)
    (hlist : ∀ j, j ≠ k → (s'.area j).freeList = (s.area j).freeList)
    (hmem : ∀ q, q ∈ (s'.area k).freeList ↔ q = p ∨ q ∈ (s.area k).freeList) :
    s'.freeBlocks = insert (Block.around k p) s.freeBlocks := by
  ext b
  rw [Set.mem_insert_iff, mem_freeBlocks, mem_freeBlocks]
  by_cases hbk : b.order = k
  · subst hbk
    rw [hmem]
    refine or_congr_left ⟨fun h => ?_, fun h => ?_⟩
    · rw [← h, Block.around_head]
    · rw [h, Block.order, Block.head_around hd]
  · rw [hlist _ hbk]
    refine ⟨Or.inr, fun h => h.resolve_left fun h => hbk ?_⟩
    rw [h]
    rfl

theorem freeBlocks_putFirst (hd : 2 ^ k ∣ p) :
    (s.putFirst p k).freeBlocks = insert (Block.around k p) s.freeBlocks :=
  freeBlocks_put hd (fun j hj => by rw [putFirst_list, if_neg hj])
    (fun q => by rw [putFirst_list, if_pos rfl, List.mem_cons])

theorem freeBlocks_putLast (hd : 2 ^ k ∣ p) :
    (s.putLast p k).freeBlocks = insert (Block.around k p) s.freeBlocks :=
  freeBlocks_put hd (fun j hj => by rw [putLast_list, if_neg hj])
    (fun q => by rw [putLast_list, if_pos rfl, List.mem_append, List.mem_singleton, or_comm])

end Buddy
end Comex
