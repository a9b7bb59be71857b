import Comex.Buddy.Startup
import Comex.Lib.CircularList

/-!
# The allocator on its linked lists

`comex_buddy.h` keeps a free list as a circular list of `lru` nodes inside the
descriptors.  `COMEX_list_del` is handed a node and unlinks it from its neighbours,
whatever list these belong to; the allocator decides by `_mapcount` and `private`
alone which node that is, and counts the removal against the order it is at.

Here the allocator works on the links.  It does what the allocator on sequences
does, so the list it unlinks a node from is always the one whose count it lowers.

## Main definitions

* `LinkedBuddy` with `rmqueueSmallest`, `freePage` — the allocator on its links.
* `LinkedBuddy.Rep` — the links spell the sequences of a state of `Buddy`.
* `LinkedBuddy.Unlink` — a `COMEX_list_del` of `COMEX_free_page`.

## Main results

* `Rep.rmqueueSmallest`, `Rep.freePage` — the two allocators take the same steps.
* `lists_exact` — **the list operations are those of sequences, and the allocator's use
  of them keeps links, descriptors and counts in agreement.**
-/

namespace Comex

open Circular (Memory Family IsList)
open Aligned

/-- A `struct COMEX_list_head`: the head of an area's list or the node of a descriptor. -/
inductive ListHead
  /-- `COMEX_free_area[order].free_list`. -/
  | freeList (order : ℕ)
  /-- `COMEX_Buddy_page[page].lru`. -/
  | lru (page : ℕ)
  deriving DecidableEq, Repr

/-- The allocator with its lists in memory. -/
structure LinkedBuddy where
  /-- Descriptors, counts and messages; what is on a list is not said here. -/
  desc : Buddy
  /-- Every `next` and `prev`. -/
  links : Memory ListHead

namespace LinkedBuddy

/-- A statement that works on descriptors and counts. -/
def onDesc (t : LinkedBuddy) (f : Buddy → Buddy) : LinkedBuddy := { t with desc := f t.desc }

/-- `COMEX__list_empty(&COMEX_free_area[order].free_list)`. -/
def listEmpty (t : LinkedBuddy) (order : ℕ) : Bool := t.links.isEmpty (.freeList order)

/-- `COMEX_list_add(&page->lru, &COMEX_free_area[order].free_list)`. -/
def listAdd (t : LinkedBuddy) (p order : ℕ) : LinkedBuddy :=
  { t with links := t.links.add (.lru p) (.freeList order) }

/-- `COMEX_list_add_tail(&page->lru, &COMEX_free_area[order].free_list)`. -/
def listAddTail (t : LinkedBuddy) (p order : ℕ) : LinkedBuddy :=
  { t with links := t.links.addTail (.lru p) (.freeList order) }

/-- `COMEX_list_del(&page->lru)`. -/
def listDel (t : LinkedBuddy) (p : ℕ) : LinkedBuddy :=
  { t with links := t.links.del (.lru p) }

/-- The rounds of `COMEX_expand`. -/
def expandLoop (page low : ℕ) : ℕ → ℕ → ℕ → LinkedBuddy → LinkedBuddy
  | 0, _, _, t => t
  | high + 1, size, area, t =>
    if low < high + 1 then
      let area := area - 1
      let size := size >>> 1
      let t := t.listAdd (page + size) area
      let t := t.onDesc (·.addNrFree area 1)
      let t := t.onDesc (·.setPageOrder (page + size) high)
      expandLoop page low high size area t
    else t

/-- `COMEX_expand`. -/
def expand (t : LinkedBuddy) (page low high area : ℕ) : LinkedBuddy :=
  expandLoop page low high (1 <<< high) area t

/-- The search of `COMEX_rmqueue_smallest` from `current_order` on. -/
def rmqueueLoop (order : ℕ) : ℕ → ℕ → LinkedBuddy → Option ℕ × LinkedBuddy
  | 0, _, t => (none, t)
  | n + 1, current, t =>
    if t.listEmpty current then rmqueueLoop order n (current + 1) t
    else
      match t.links.next (.freeList current) with
      -- `COMEX_list_entry` of a head is no descriptor
      | .freeList _ => (none, t)
      | .lru page =>
        let t := t.listDel page
        let t := t.onDesc (·.rmvPageOrder page)
        let t := t.onDesc (·.addNrFree current (-1))
        let t := t.expand page order current current
        let r := t.desc.checkCtr (t.desc.page page).pageNO order 1
        (if r.1 then some (r.2.page page).pageNO else none, { t with desc := r.2 })

/-- `COMEX_rmqueue_smallest`. -/
def rmqueueSmallest (t : LinkedBuddy) (order : ℕ) : Option ℕ × LinkedBuddy :=
  rmqueueLoop order (maxOrder - order) order t

/-- A `COMEX_list_del(&buddy->lru)` of the merging loop: the state before it, the buddy
and the order whose `nr_free` is lowered. -/
structure Unlink where
  state : LinkedBuddy
  page : ℕ
  order : ℕ

/-- The merging rounds of `COMEX_free_page`, with the nodes they unlink. -/
def mergeLoop : ℕ → ℕ → ℕ → ℕ → LinkedBuddy → List Unlink × LinkedBuddy × ℕ × ℕ
  | 0, page, _, order, t => ([], t, page, order)
  | n + 1, page, pageIdx, order, t =>
    let buddyIdx := pageIdx ^^^ (1 <<< order)
    let buddy := page + buddyIdx - pageIdx
    if t.desc.pageIsBuddy buddy order then
      let u : Unlink := ⟨t, buddy, order⟩
      let t := t.listDel buddy
      let t := t.onDesc (·.rmvPageOrder buddy)
      let t := t.onDesc (·.rmvPageOrder page)
      let t := t.onDesc (·.addNrFree order (-1))
      let combinedIdx := pageIdx &&& (Buddy.idxMask ^^^ (1 <<< order))
      let r := mergeLoop n (page + combinedIdx - pageIdx) combinedIdx (order + 1) t
      (u :: r.1, r.2)
    else ([], t, page, order)

/-- `COMEX_free_page`, with the nodes it unlinks. -/
def freePageTraced (t : LinkedBuddy) (inPageNO order : ℕ) : List Unlink × LinkedBuddy :=
  let r := t.desc.checkCtr inPageNO order (-1)
  let t := { t with desc := r.2 }
  if r.1 then
    let pageIdx := (t.desc.page inPageNO).pageNO &&& Buddy.idxMask
    let m := mergeLoop (maxOrder - 1 - order) inPageNO pageIdx order t
    let t := m.2.1.onDesc (·.setPageOrder m.2.2.1 m.2.2.2)
    let t := t.listAddTail m.2.2.1 m.2.2.2
    (m.1, t.onDesc (·.addNrFree m.2.2.2 1))
  else ([], t)

/-- `COMEX_free_page`. -/
def freePage (t : LinkedBuddy) (inPageNO order : ℕ) : LinkedBuddy :=
  (t.freePageTraced inPageNO order).2

/-- The allocator as `COMEX_init_ENV` sets it up: `INIT_LIST_COMEX` on every node. -/
def initEmpty (totalPages : ℕ) : LinkedBuddy where
  desc := Buddy.initEmpty totalPages
  links := ⟨id, id⟩

end LinkedBuddy

/-! ### Descriptors without lists -/

namespace Buddy

/-- The state with the lists left out. -/
def forget (s : Buddy) : Buddy :=
  { s with area := fun k => { s.area k with freeList := [] } }

section Fields

variable (s : Buddy) (p q k : ℕ) (d : ℤ)

@[simp] theorem forget_page : s.forget.page = s.page := rfl

@[simp] theorem forget_totalPages : s.forget.totalPages = s.totalPages := rfl

@[simp] theorem forget_nrFree : (s.forget.area k).nrFree = (s.area k).nrFree := rfl

theorem forget_setPageOrder : (s.setPageOrder p k).forget = s.forget.setPageOrder p k := rfl

theorem forget_rmvPageOrder : (s.rmvPageOrder p).forget = s.forget.rmvPageOrder p := rfl

theorem forget_listDel : (s.listDel p).forget = s.forget := rfl

theorem forget_pageIsBuddy : s.forget.pageIsBuddy p k = s.pageIsBuddy p k := rfl

theorem forget_setArea (a : FreeArea) : (s.setArea k a).forget =
    s.forget.setArea k { a with freeList := [] } := by
  simp only [forget, setArea, mk.injEq, true_and, and_true]
  funext j
  simp only [Function.update_apply]
  split <;> rfl

theorem forget_addNrFree : (s.addNrFree k d).forget = s.forget.addNrFree k d := by
  rw [addNrFree, forget_setArea]
  rfl

/-- A change of one list is none of the descriptors or counts. -/
theorem forget_setList (l : List ℕ) :
    (s.setArea k { s.area k with freeList := l }).forget = s.forget := by
  rw [forget_setArea]
  simp only [forget, setArea, mk.injEq, true_and, and_true]
  exact Function.update_eq_self k _

theorem forget_listAdd : (s.listAdd p k).forget = s.forget := forget_setList s k _

theorem forget_listAddTail : (s.listAddTail p k).forget = s.forget := forget_setList s k _

end Fields

theorem forget_checkCtrLoop (val : ℤ) (n : ℕ) : ∀ (i : ℕ) (s : Buddy),
    checkCtrLoop val n i s.forget =
      ((checkCtrLoop val n i s).1, (checkCtrLoop val n i s).2.forget) := by
  induction n with
  | zero => exact fun _ _ => rfl
  | succ n ih =>
    intro i s
    have hstep : ∀ s : Buddy, checkCtrLoop val (n + 1) i s =
        if val = 1 ∧ (s.page i).cmxCntr + val ≠ 1 ∨ val = -1 ∧ (s.page i).cmxCntr + val ≠ 0 then
          (false, { s.setPage i { s.page i with cmxCntr := (s.page i).cmxCntr + val } with
            failed := ⟨i, val, (s.page i).cmxCntr + val⟩ :: s.failed })
        else checkCtrLoop val n (i + 1)
          (s.setPage i { s.page i with cmxCntr := (s.page i).cmxCntr + val }) := fun _ => rfl
    by_cases hbad : val = 1 ∧ (s.page i).cmxCntr + val ≠ 1 ∨
        val = -1 ∧ (s.page i).cmxCntr + val ≠ 0
    · rw [hstep s, hstep s.forget, if_pos hbad, if_pos (by exact hbad)]
      rfl
    · rw [hstep s, hstep s.forget, if_neg hbad, if_neg (by exact hbad)]
      exact ih (i + 1) (s.setPage i _)

theorem forget_checkCtr (s : Buddy) (p k : ℕ) (val : ℤ) :
    s.forget.checkCtr p k val = ((s.checkCtr p k val).1, (s.checkCtr p k val).2.forget) :=
  forget_checkCtrLoop val _ p s

/-- Counting moves no list. -/
theorem checkCtrLoop_area (val : ℤ) (n : ℕ) : ∀ (i : ℕ) (s : Buddy),
    (checkCtrLoop val n i s).2.area = s.area := by
  induction n with
  | zero => exact fun _ _ => rfl
  | succ n ih =>
    intro i s
    rw [checkCtrLoop]
    split
    · rfl
    · exact ih (i + 1) (s.setPage i _)

end Buddy

/-! ### The two allocators in step -/

namespace LinkedBuddy

/-- The links of `t` spell the sequences of `s`, and all else is the same. -/
structure Rep (t : LinkedBuddy) (s : Buddy) : Prop where
  desc : t.desc = s.forget
  family : Family t.links ListHead.freeList fun k => (s.area k).freeList.map ListHead.lru

theorem lru_injective : Function.Injective ListHead.lru := fun _ _ h => ListHead.lru.inj h

theorem mem_map_lru {p : ℕ} {l : List ℕ} : ListHead.lru p ∈ l.map ListHead.lru ↔ p ∈ l :=
  List.mem_map_of_injective lru_injective

namespace Rep

variable {t : LinkedBuddy} {s : Buddy} {p k : ℕ}

/-- A node no list holds. -/
theorem lru_unlinked (hout : ∀ j, p ∉ (s.area j).freeList) (j : ℕ) :
    ListHead.lru p ∉ ListHead.freeList j :: (s.area j).freeList.map ListHead.lru := by
  rw [List.mem_cons, mem_map_lru, not_or]
  exact ⟨ListHead.noConfusion, hout j⟩

theorem family_of_list {m : Memory ListHead} {s' : Buddy} {l : List ℕ}
    (hf : Family m ListHead.freeList (Function.update
      (fun j => (s.area j).freeList.map ListHead.lru) k (l.map ListHead.lru)))
    (hk : (s'.area k).freeList = l)
    (hj : ∀ j, j ≠ k → (s'.area j).freeList = (s.area j).freeList) :
    Family m ListHead.freeList fun j => (s'.area j).freeList.map ListHead.lru := by
  have heq : (fun j => (s'.area j).freeList.map ListHead.lru) = Function.update
      (fun j => (s.area j).freeList.map ListHead.lru) k (l.map ListHead.lru) := by
    funext j
    by_cases h : j = k
    · rw [h, Function.update_self, hk]
    · rw [Function.update_of_ne h, hj j h]
  rwa [heq]

/-- A block is listed first. -/
theorem putFirst (h : Rep t s) (hout : ∀ j, p ∉ (s.area j).freeList) :
    Rep (((t.listAdd p k).onDesc (·.addNrFree k 1)).onDesc (·.setPageOrder p k))
      (s.putFirst p k) where
  desc := by
    rw [Buddy.putFirst, Buddy.forget_setPageOrder, Buddy.forget_addNrFree, Buddy.forget_listAdd,
      ← h.desc]
    rfl
  family := by
    refine family_of_list (s := s) (k := k) (l := p :: (s.area k).freeList) ?_ ?_ ?_
    · exact h.family.add (lru_unlinked hout)
    · rw [Buddy.putFirst_list, if_pos rfl]
    · exact fun j hj => by rw [Buddy.putFirst_list, if_neg hj]

/-- A block is listed last. -/
theorem putLast (h : Rep t s) (hout : ∀ j, p ∉ (s.area j).freeList) :
    Rep (((t.onDesc (·.setPageOrder p k)).listAddTail p k).onDesc (·.addNrFree k 1))
      (s.putLast p k) where
  desc := by
    rw [Buddy.putLast, Buddy.forget_addNrFree, Buddy.forget_listAddTail,
      Buddy.forget_setPageOrder, ← h.desc]
    rfl
  family := by
    refine family_of_list (s := s) (k := k) (l := (s.area k).freeList ++ [p]) ?_ ?_ ?_
    · rw [List.map_append]
      exact h.family.addTail (lru_unlinked hout)
    · rw [Buddy.putLast_list, if_pos rfl]
    · exact fun j hj => by rw [Buddy.putLast_list, if_neg hj]

/-- A listed block is taken off. -/
theorem takeOff (h : Rep t s) (hl : Buddy.Links s) (hp : p ∈ (s.area k).freeList) :
    Rep (((t.listDel p).onDesc (·.rmvPageOrder p)).onDesc (·.addNrFree k (-1)))
      (s.takeOff p k) where
  desc := by
    rw [Buddy.takeOff, Buddy.forget_addNrFree, Buddy.forget_rmvPageOrder, Buddy.forget_listDel,
      ← h.desc]
    rfl
  family := by
    refine family_of_list (s := s) (k := k) (l := (s.area k).freeList.erase p) ?_ ?_ ?_
    · rw [List.map_erase lru_injective]
      exact h.family.del (mem_map_lru.mpr hp)
    · exact Buddy.takeOff_list s p k k
    · intro j hj
      rw [Buddy.takeOff_list, List.erase_of_not_mem fun hpj => hj (hl.order_unique hpj hp)]

/-- `COMEX__list_empty` tells whether the sequence is empty. -/
theorem listEmpty_iff (h : Rep t s) : t.listEmpty k = true ↔ (s.area k).freeList = [] := by
  rw [LinkedBuddy.listEmpty, (h.family.isList k).isEmpty_iff, List.map_eq_nil_iff]

/-- The node behind the head is the first of the sequence. -/
theorem next_head {l : List ℕ} (h : Rep t s) (hl : (s.area k).freeList = p :: l) :
    t.links.next (.freeList k) = .lru p := by
  have hlist := h.family.isList k
  simp only [hl, List.map_cons] at hlist
  exact hlist.next_head

/-- **Splitting in step.** -/
theorem expandLoop {low : ℕ} : ∀ {high : ℕ} {t : LinkedBuddy} {s : Buddy} {b : Block},
    Rep t s → Buddy.Loose s b → b.order = high → low ≤ high →
    Rep (LinkedBuddy.expandLoop b.head low high (1 <<< high) high t)
      (Buddy.expandLoop b.head low high (1 <<< high) high s) := by
  intro high
  induction high with
  | zero => exact fun h _ _ _ => h
  | succ high ih =>
    intro t s b h hb horder hle
    rw [LinkedBuddy.expandLoop, Buddy.expandLoop]
    by_cases hlt : low < high + 1
    · have hpos : 0 < b.order := by omega
      have hsize : 1 <<< (high + 1) >>> 1 = 1 <<< high := by
        simp only [Nat.one_shiftLeft, Nat.shiftRight_one, Nat.pow_succ]
        omega
      have hhigh : b.high.head = b.head + 1 <<< high := by
        rw [Block.head_high hpos, horder, Nat.one_shiftLeft, Nat.add_sub_cancel]
      obtain ⟨hround, -⟩ := hb.expand_round hpos
      -- the upper half lies in the loose block, so no list holds it
      have hout : ∀ j, b.high.head ∉ (s.area j).freeList := fun j hj =>
        hb.out _ ((Block.mem_iff_low_or_high hpos).mpr (Or.inr b.high.head_mem))
          ⟨_, (hb.links.mem_list_iff.mp hj).2, Block.mem_around j _⟩
      rw [horder, Nat.add_sub_cancel, hhigh] at hround
      rw [hhigh] at hout
      have hnext := ih (h.putFirst (k := high) hout) hround (by simp [horder]) (by omega)
      rw [Block.head_low hpos] at hnext
      simp only [if_pos hlt, hsize, Nat.add_sub_cancel]
      exact hnext
    · rw [if_neg hlt, if_neg hlt]
      exact h

/-- Counting in step. -/
theorem checkCtr (h : Rep t s) (p k : ℕ) (val : ℤ) :
    (t.desc.checkCtr p k val).1 = (s.checkCtr p k val).1 ∧
      Rep { t with desc := (t.desc.checkCtr p k val).2 } (s.checkCtr p k val).2 := by
  have hforget := Buddy.forget_checkCtr s p k val
  have harea : (s.checkCtr p k val).2.area = s.area := Buddy.checkCtrLoop_area val _ p s
  rw [h.desc, hforget]
  refine ⟨rfl, rfl, ?_⟩
  rw [harea]
  exact h.family

/-- The statements of `COMEX_rmqueue_smallest` on the first block of a list, in step. -/
theorem take_step (h : Rep t s) (hs : Buddy.Inv s) {order current page : ℕ} {l : List ℕ}
    (hle : order ≤ current) (hl : (s.area current).freeList = page :: l) :
    let t₁ := (((t.listDel page).onDesc (·.rmvPageOrder page)).onDesc
      (·.addNrFree current (-1))).expand page order current current
    let s₁ := (s.takeOff page current).expand page order current current
    let r := t₁.desc.checkCtr (t₁.desc.page page).pageNO order 1
    let r' := s₁.checkCtr (s₁.page page).pageNO order 1
    r.1 = r'.1 ∧ (r.2.page page).pageNO = (r'.2.page page).pageNO ∧
      Rep { t₁ with desc := r.2 } r'.2 := by
  intro t₁ s₁ r r'
  have hpage : page ∈ (s.area current).freeList := by rw [hl]; exact List.mem_cons_self
  have hd := (hs.links.mem_list_iff.mp hpage).1
  -- off its list the block is loose, and both sides split it in step
  obtain ⟨hloose, -⟩ := Buddy.Loose.of_takeOff hs.links hs.coalesced hpage
  have hsplit := (h.takeOff hs.links hpage).expandLoop hloose rfl hle
  rw [Block.head_around hd] at hsplit
  change Rep t₁ s₁ at hsplit
  have hno : (t₁.desc.page page).pageNO = (s₁.page page).pageNO := by
    rw [hsplit.desc, Buddy.forget_page]
  obtain ⟨h1, h2⟩ := hsplit.checkCtr (t₁.desc.page page).pageNO order 1
  have hr' : r' = s₁.checkCtr (t₁.desc.page page).pageNO order 1 := by rw [hno]
  rw [hr']
  refine ⟨h1, ?_, h2⟩
  have hdesc := h2.desc
  change r.2 = _ at hdesc
  rw [hdesc, Buddy.forget_page]

/-- **`COMEX_rmqueue_smallest` in step**: the loop over the orders finds the same list empty on
both sides, so both take the first block of the same list. -/
theorem rmqueueSmallest (h : Rep t s) (hs : Buddy.Inv s) (order : ℕ) :
    (t.rmqueueSmallest order).1 = (s.rmqueueSmallest order).1 ∧
      Rep (t.rmqueueSmallest order).2 (s.rmqueueSmallest order).2 := by
  have key : ∀ n current, order ≤ current →
      (rmqueueLoop order n current t).1 = (Buddy.rmqueueLoop order n current s).1 ∧
        Rep (rmqueueLoop order n current t).2 (Buddy.rmqueueLoop order n current s).2 := by
    intro n
    induction n with
    | zero => exact fun _ _ => ⟨rfl, h⟩
    | succ n ih =>
      intro current hle
      rw [rmqueueLoop, Buddy.rmqueueLoop]
      cases hl : (s.area current).freeList with
      | nil =>
        rw [if_pos (h.listEmpty_iff.mpr hl)]
        exact ih (current + 1) (by omega)
      | cons page l =>
        have hne : ¬ t.listEmpty current = true := by
          rw [h.listEmpty_iff, hl]
          exact List.cons_ne_nil page l
        obtain ⟨h1, h2, h3⟩ := h.take_step hs hle hl
        simp only [if_neg hne, h.next_head hl]
        refine ⟨?_, h3⟩
        rw [h1, h2]
        rfl
  exact key _ order le_rfl

/-- What an unlinked node is, told by the state of the allocator on sequences. -/
def Listed (u : Unlink) : Prop :=
  ∃ s, Rep u.state s ∧ Buddy.Links s ∧ u.page ∈ (s.area u.order).freeList

/-- **Merging in step**, and every node it unlinks is on the list of the order it is at. -/
theorem mergeLoop {n : ℕ} : ∀ {t : LinkedBuddy} {s : Buddy} {b : Block}, Rep t s →
    Buddy.Loose s b → n + b.order = maxOrder - 1 →
    let m := LinkedBuddy.mergeLoop n b.head (b.head % 2 ^ maxOrder) b.order t
    let m' := Buddy.mergeLoop n b.head (b.head % 2 ^ maxOrder) b.order s
    m.2.2 = m'.2 ∧ Rep m.2.1 m'.1 ∧ ∀ u ∈ m.1, Listed u := by
  induction n with
  | zero => exact fun h _ _ => ⟨rfl, h, fun u hu => absurd hu List.not_mem_nil⟩
  | succ n ih =>
    intro t s b h hb hn
    have hlt : b.order < maxOrder - 1 := by omega
    have hmask : Buddy.idxMask = 1 <<< maxOrder - 1 := rfl
    have htest : t.desc.pageIsBuddy b.buddy.head b.order = s.pageIsBuddy b.buddy.head b.order := by
      rw [h.desc, Buddy.forget_pageIsBuddy]
    rw [LinkedBuddy.mergeLoop, Buddy.mergeLoop]
    simp only [hmask, b.head_buddy_eq (T := maxOrder) (by omega),
      b.head_parent_eq (T := maxOrder) (by omega), htest]
    rw [b.clear_eq_mod (T := maxOrder) (by omega)]
    by_cases hp : s.pageIsBuddy b.buddy.head b.order = true
    · have hfree : b.buddy ∈ s.freeBlocks := hb.links.pageIsBuddy_iff.mp hp
      have hmem : b.buddy.head ∈ (s.area b.order).freeList := hfree
      obtain ⟨hround, -⟩ := hb.merge_round hlt hfree
      have hrep : Rep ((((t.listDel b.buddy.head).onDesc (·.rmvPageOrder b.buddy.head)).onDesc
          (·.rmvPageOrder b.head)).onDesc (·.addNrFree b.order (-1)))
          (s.takeOff b.buddy.head b.order) := by
        have hoff := h.takeOff hb.links hmem
        refine ⟨?_, hoff.family⟩
        -- clearing the order of the merged page is part of the statements
        rw [← hb.merge_statements hlt hfree, Buddy.forget_addNrFree, Buddy.forget_rmvPageOrder,
          Buddy.forget_rmvPageOrder, Buddy.forget_listDel, ← h.desc]
        rfl
      obtain ⟨h1, h2, h3⟩ := ih hrep hround (by rw [Block.parent_order]; omega)
      rw [if_pos hp, if_pos hp, hb.merge_statements hlt hfree]
      refine ⟨h1, h2, fun u hu => ?_⟩
      rcases List.mem_cons.mp hu with rfl | hu
      · exact ⟨s, h, hb.links, hmem⟩
      · exact h3 u hu
    · rw [if_neg hp, if_neg hp]
      exact ⟨rfl, h, fun u hu => absurd hu List.not_mem_nil⟩

/-- **`COMEX_free_page` in step.** -/
theorem freePage (h : Rep t s) (hs : Buddy.Inv s) (hf : Buddy.CanFree s p k) :
    Rep (t.freePage p k) (s.freePage p k) ∧ ∀ u ∈ (t.freePageTraced p k).1, Listed u := by
  have hctr : s.checkCtr p k (-1) = (true, s.setCtr p (2 ^ k) 0) :=
    Buddy.checkCtr_eq (Or.inr rfl) hf.aligned hf.ctr_eq
  have hloose := hs.loose_of_canFree hf
  have hn : maxOrder - 1 - k + (Block.around k p).order = maxOrder - 1 := by
    have := hf.order_lt
    simp only [Block.around]
    omega
  have hno : ((s.setCtr p (2 ^ k) 0).page p).pageNO = p := by
    rw [Buddy.setCtr_pageNO]
    have := hf.in_range
    have := Nat.two_pow_pos k
    exact hs.links.pageNO p (by omega)
  obtain ⟨hok, hcount⟩ := h.checkCtr p k (-1)
  rw [hctr] at hok hcount
  have hno' : ((t.desc.checkCtr p k (-1)).2.page p).pageNO = p := by
    have hdesc := hcount.desc
    simp only at hdesc
    rw [hdesc, Buddy.forget_page, hno]
  -- merge, then list the block last
  have hord : (Block.around k p).order = k := rfl
  obtain ⟨hend, hrep, hlisted⟩ := hcount.mergeLoop hloose hn
  obtain ⟨c, hc, -, hout, -⟩ := hloose.mergeLoop hn
  rw [Block.head_around hf.aligned, ← Buddy.and_idxMask, hord] at hend hrep hlisted hc hout
  rw [LinkedBuddy.freePage, freePageTraced, Buddy.freePage]
  simp only [hok, hctr, if_true, hno', hno]
  rw [hend]
  refine ⟨hrep.putLast fun j => ?_, hlisted⟩
  rw [hc]
  exact hout.head_not_listed j

/-- A legal call is legal on both sides. -/
theorem legal_iff (h : Rep t s) (c : Buddy.Call) : Buddy.Legal t.desc c ↔ Buddy.Legal s c := by
  rw [h.desc]
  cases c with
  | rmqueueSmallest order => exact Iff.rfl
  | freePage p k => exact ⟨fun hf => ⟨hf.1, hf.2, hf.3, hf.4⟩, fun hf => ⟨hf.1, hf.2, hf.3, hf.4⟩⟩

end Rep

/-! ### Runs -/

/-- The state a call leaves. -/
def call (t : LinkedBuddy) : Buddy.Call → LinkedBuddy
  | .rmqueueSmallest order => (t.rmqueueSmallest order).2
  | .freePage p k => t.freePage p k

/-- The calls the allocator expects. -/
def Legal (t : LinkedBuddy) (c : Buddy.Call) : Prop := Buddy.Legal t.desc c

instance (t : LinkedBuddy) (c : Buddy.Call) : Decidable (Legal t c) :=
  inferInstanceAs (Decidable (Buddy.Legal t.desc c))

/-- The allocator on its links, driven by calls. -/
def machine (totalPages : ℕ) : Machine LinkedBuddy Buddy.Call :=
  .ofPartial (initEmpty totalPages) fun t c => some (t.call c)

/-- A run of legal calls. -/
abbrev Reach (totalPages : ℕ) (t : LinkedBuddy) : Prop :=
  Machine.Reach (machine totalPages) Legal t

theorem rep_initEmpty (T : ℕ) : Rep (initEmpty T) (Buddy.initEmpty T) :=
  ⟨rfl, Family.of_self (fun _ => ⟨rfl, rfl⟩) fun _ _ h => ListHead.freeList.inj h⟩

/-- One call, in step. -/
theorem Rep.call {t : LinkedBuddy} {s : Buddy} (h : Rep t s) (hs : Buddy.Inv s) {c : Buddy.Call}
    (hc : Buddy.Legal s c) : Rep (t.call c) (s.call c) := by
  cases c with
  | rmqueueSmallest order => exact (h.rmqueueSmallest hs order).2
  | freePage p k => exact (h.freePage hs hc).1

variable {T : ℕ} {t : LinkedBuddy}

/-- **Every run on the links is one on sequences.** -/
theorem reach_rep (h : Reach T t) : ∃ s, Buddy.Reach T s ∧ Rep t s := by
  refine h.invariant (I := fun t => ∃ s, Buddy.Reach T s ∧ Rep t s) ?_ ?_
  · intro t h0
    rw [h0]
    exact ⟨_, .start rfl, rep_initEmpty T⟩
  · intro t c t' _ ⟨s, hr, hrep⟩ hc hstep
    have hc' : Buddy.Legal s c := (hrep.legal_iff c).mp hc
    rw [← Option.some.inj hstep]
    exact ⟨s.call c, hr.next hc' rfl, hrep.call (Buddy.reach_inv hr).1 hc'⟩

/-- The unlinked node is an element of the list of the order whose count, that of the
elements, is lowered. -/
def Unlink.Sound (u : Unlink) : Prop :=
  ∃ l, IsList u.state.links (.freeList u.order) l ∧ .lru u.page ∈ l ∧
    (u.state.desc.area u.order).nrFree = l.length

theorem Rep.sound_of_listed {u : Unlink} (h : Rep.Listed u) : u.Sound := by
  obtain ⟨s, hrep, hlinks, hmem⟩ := h
  refine ⟨_, hrep.family.isList u.order, mem_map_lru.mpr hmem, ?_⟩
  rw [hrep.desc, Buddy.forget_nrFree, hlinks.count, List.length_map]

/-- Page `p` heads a free block of order `k`, by its descriptor. -/
def HeadsFree (t : LinkedBuddy) (p k : ℕ) : Prop :=
  p < t.desc.totalPages ∧ (t.desc.page p).mapcount = -128 ∧ (t.desc.page p).priv = k

/-- The lists of a state hold the free blocks of their order, each once. -/
structure Agrees (t : LinkedBuddy) (lists : ℕ → List ℕ) : Prop where
  family : Family t.links ListHead.freeList fun k => (lists k).map ListHead.lru
  mem_iff : ∀ k p, p ∈ lists k ↔ t.HeadsFree p k
  none_above : ∀ k, maxOrder ≤ k → lists k = []
  nodup : ∀ k, (lists k).Nodup
  one_list : ∀ j k p, p ∈ lists j → p ∈ lists k → j = k
  nrFree : ∀ k, (t.desc.area k).nrFree = (lists k).length

theorem reach_agrees (h : Reach T t) : ∃ lists, Agrees t lists := by
  obtain ⟨s, hr, hrep⟩ := reach_rep h
  have hl := (Buddy.reach_inv hr).1.links
  refine ⟨fun k => (s.area k).freeList, hrep.family, fun k p => ?_, fun k hk => ?_, hl.nodup,
    fun j k p => hl.order_unique, fun k => ?_⟩
  · rw [HeadsFree, hrep.desc, Buddy.forget_totalPages, Buddy.forget_page]
    constructor
    · intro hp
      exact ⟨hl.lt_total hp, (hl.head_iff p (hl.lt_total hp) k).mpr hp⟩
    · exact fun hp => (hl.head_iff p hp.1 k).mp hp.2
  · apply List.eq_nil_iff_forall_not_mem.mpr
    intro p hp
    have := (hl.aligned k p hp).1
    omega
  · rw [hrep.desc, Buddy.forget_nrFree, hl.count]

theorem Agrees.listEmpty_iff {lists : ℕ → List ℕ} (h : Agrees t lists) (k : ℕ) :
    t.listEmpty k = true ↔ ∀ p, ¬ t.HeadsFree p k := by
  rw [listEmpty, (h.family.isList k).isEmpty_iff, List.map_eq_nil_iff,
    List.eq_nil_iff_forall_not_mem]
  exact forall_congr' fun p => not_congr (h.mem_iff k p)

/-- **The list operations are those of sequences, and the allocator keeps to them.**  In a
memory of circular lists the links are inverse, adding an unlinked node puts it first or
last, and deleting an element takes it off and links it to itself; the other lists stay as
they are.  In every run of legal calls the lists hold the free blocks of their order, so
that an empty one says there is none, and a free unlinks a node only from the list of the
order it is counted at. -/
theorem lists_exact :
    (∀ (m : Memory ListHead) (lists : ℕ → List ListHead), Family m ListHead.freeList lists →
      (∀ x, m.prev (m.next x) = x ∧ m.next (m.prev x) = x) ∧
      ∀ k x, ((∀ j, x ∉ ListHead.freeList j :: lists j) →
          Family (m.add x (.freeList k)) ListHead.freeList
            (Function.update lists k (x :: lists k)) ∧
          Family (m.addTail x (.freeList k)) ListHead.freeList
            (Function.update lists k (lists k ++ [x]))) ∧
        (x ∈ lists k →
          Family (m.del x) ListHead.freeList (Function.update lists k ((lists k).erase x)) ∧
          (m.del x).next x = x ∧ (m.del x).prev x = x)) ∧
    ∀ T t, Reach T t →
      (∃ lists, Agrees t lists) ∧
      (∀ k, t.listEmpty k = true ↔ ∀ p, ¬ t.HeadsFree p k) ∧
      ∀ p k, Buddy.CanFree t.desc p k → ∀ u ∈ (t.freePageTraced p k).1, u.Sound := by
  constructor
  · intro m lists hf
    refine ⟨hf.inverse, fun k x => ⟨fun hx => ⟨hf.add hx, hf.addTail hx⟩, fun hx => ?_⟩⟩
    refine ⟨hf.del hx, ?_, ?_⟩
    · rw [Memory.del_next, if_pos rfl]
    · rw [Memory.del_prev, if_pos rfl]
  · intro T t h
    obtain ⟨s, hr, hrep⟩ := reach_rep h
    obtain ⟨lists, hagrees⟩ := reach_agrees h
    refine ⟨⟨lists, hagrees⟩, hagrees.listEmpty_iff, fun p k hf u hu => ?_⟩
    have hf' : Buddy.CanFree s p k := (hrep.legal_iff (.freePage p k)).mp hf
    exact Rep.sound_of_listed ((hrep.freePage (Buddy.reach_inv hr).1 hf').2 u hu)

/-- A node put on the list of order 2 of a fresh memory and taken off again, and a run in
which the free of page 1 unlinks page 0. -/
theorem lists_exact_merge :
    Family ((⟨id, id⟩ : Memory ListHead).add (.lru 3) (.freeList 2)) ListHead.freeList
      (Function.update (fun _ => []) 2 [.lru 3]) ∧
    ∃ t, Reach 5 t ∧ (t.freePageTraced 1 0).1.length = 1 ∧ (∃ lists, Agrees t lists) ∧
      ∀ u ∈ (t.freePageTraced 1 0).1, u.Sound := by
  obtain ⟨hops, hruns⟩ := lists_exact
  refine ⟨?_, ?_⟩
  · have hfresh := (rep_initEmpty 0).family
    exact ((hops _ _ hfresh).2 2 (.lru 3)).1 (fun j => by simp [Buddy.initEmpty]) |>.1
  · obtain ⟨t, hr, hlen, hfree⟩ := Machine.exists_reach_of_exec (initEmpty 5) Legal
      (fun t c => some (t.call c))
      (fun t => (t.freePageTraced 1 0).1.length = 1 ∧ Buddy.CanFree t.desc 1 0)
      [.freePage 0 0] (by decide)
    obtain ⟨hagrees, -, hsound⟩ := hruns 5 t hr
    exact ⟨t, hr, hlen, hagrees, hsound 1 0 hfree⟩

end LinkedBuddy

end Comex
