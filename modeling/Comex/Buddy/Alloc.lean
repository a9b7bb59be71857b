import Mathlib.Data.Int.Notation
import Mathlib.Data.List.Basic
import Mathlib.Logic.Function.Basic
import Mathlib.Tactic.Common

/-!
# The buddy allocator

`comex_buddy.h`: the descriptors `COMEX_Buddy_page`, the free areas
`COMEX_free_area` and the functions that move blocks between them.  A free list
is the list of the page numbers whose `lru` nodes hang on it, first node first;
a node hangs on at most one list, so `listDel` takes it off whichever holds it.

Both entry points run under `COMEX_buddy_spin`, so each is one step.  A loop of
the source is a recursion over the rounds it can still take.

## Main definitions

* `Buddy` — the allocator's state.
* `expand`, `checkCtr`, `rmqueueSmallest`, `freePage` — the source's functions.
* `initEmpty` — the state `COMEX_init_ENV` builds before it frees any page.
-/

namespace Comex

/-- `COMEX_MAX_ORDER`. -/
def maxOrder : ℕ := 11

/-- A descriptor `COMEX_page`; its `lru` node is in `FreeArea.freeList`. -/
structure Page where
  pageNO : ℕ
  /-- `private`: the order, on the head of a free block. -/
  priv : ℕ
  mapcount : ℤ
  cmxCntr : ℤ
  deriving DecidableEq, Repr, Inhabited

/-- `COMEX_free_area_t`. -/
structure FreeArea where
  nrFree : ℤ
  freeList : List ℕ
  deriving DecidableEq, Repr, Inhabited

/-- The arguments of a `FAILED!` line `COMEX_checkCtr` prints. -/
structure CtrFail where
  page : ℕ
  val : ℤ
  counter : ℤ
  deriving DecidableEq, Repr

/-- The allocator. -/
structure Buddy where
  /-- `COMEX_total_pages`. -/
  totalPages : ℕ
  /-- `COMEX_Buddy_page[]`. -/
  page : ℕ → Page
  /-- `COMEX_free_area[]`. -/
  area : ℕ → FreeArea
  /-- What `COMEX_checkCtr` printed, latest first. -/
  failed : List CtrFail

namespace Buddy

/-- Assign to one descriptor. -/
def setPage (s : Buddy) (p : ℕ) (d : Page) : Buddy :=
  { s with page := Function.update s.page p d }

/-- Assign to one free area. -/
def setArea (s : Buddy) (order : ℕ) (a : FreeArea) : Buddy :=
  { s with area := Function.update s.area order a }

/-- `COMEX_free_area[order].nr_free += d`. -/
def addNrFree (s : Buddy) (order : ℕ) (d : ℤ) : Buddy :=
  s.setArea order { s.area order with nrFree := (s.area order).nrFree + d }

/-- `COMEX_list_add(&page->lru, &COMEX_free_area[order].free_list)`. -/
def listAdd (s : Buddy) (p order : ℕ) : Buddy :=
  s.setArea order { s.area order with freeList := p :: (s.area order).freeList }

/-- `COMEX_list_add_tail(&page->lru, &COMEX_free_area[order].free_list)`. -/
def listAddTail (s : Buddy) (p order : ℕ) : Buddy :=
  s.setArea order { s.area order with freeList := (s.area order).freeList ++ [p] }

/-- `COMEX_list_del(&page->lru)`: the node leaves the list it hangs on. -/
def listDel (s : Buddy) (p : ℕ) : Buddy :=
  { s with area := fun k => { s.area k with freeList := (s.area k).freeList.erase p } }

/-- `COMEX_set_page_order`. -/
def setPageOrder (s : Buddy) (p order : ℕ) : Buddy :=
  s.setPage p { s.page p with priv := order, mapcount := -128 }

/-- `COMEX_rmv_page_order`. -/
def rmvPageOrder (s : Buddy) (p : ℕ) : Buddy :=
  s.setPage p { s.page p with priv := 0, mapcount := -1 }

/-- `COMEX_page_is_buddy`; a descriptor past the end of the array is no free buddy. -/
def pageIsBuddy (s : Buddy) (buddy order : ℕ) : Bool :=
  buddy < s.totalPages && (s.page buddy).mapcount == -128 && (s.page buddy).priv == order

/-- The rounds of `COMEX_expand`: `size` and `area` follow `high` down to `low`. -/
def expandLoop (page low : ℕ) : ℕ → ℕ → ℕ → Buddy → Buddy
  | 0, _, _, s => s
  | high + 1, size, area, s =>
    if low < high + 1 then
      let area := area - 1
      let size := size >>> 1
      let s := s.listAdd (page + size) area
      let s := s.addNrFree area 1
      let s := s.setPageOrder (page + size) high
      expandLoop page low high size area s
    else s

/-- `COMEX_expand`, with `area` the index of the area `page` came from. -/
def expand (s : Buddy) (page low high area : ℕ) : Buddy :=
  expandLoop page low high (1 <<< high) area s

/-- The rounds of `COMEX_checkCtr` from page `i` on; a failed round leaves the loop. -/
def checkCtrLoop (val : ℤ) : ℕ → ℕ → Buddy → Bool × Buddy
  | 0, _, s => (true, s)
  | n + 1, i, s =>
    let counter := (s.page i).cmxCntr + val
    let s := s.setPage i { s.page i with cmxCntr := counter }
    if val = 1 ∧ counter ≠ 1 ∨ val = -1 ∧ counter ≠ 0 then
      (false, { s with failed := ⟨i, val, counter⟩ :: s.failed })
    else checkCtrLoop val n (i + 1) s

/-- `COMEX_checkCtr`. -/
def checkCtr (s : Buddy) (pageNO order : ℕ) (val : ℤ) : Bool × Buddy :=
  checkCtrLoop val (1 <<< order) pageNO s

/-- The search of `COMEX_rmqueue_smallest` from `current_order` on; `none` is the
source's `-1`. -/
def rmqueueLoop (order : ℕ) : ℕ → ℕ → Buddy → Option ℕ × Buddy
  | 0, _, s => (none, s)
  | n + 1, current, s =>
    match (s.area current).freeList with
    | [] => rmqueueLoop order n (current + 1) s
    | page :: _ =>
      let s := s.listDel page
      let s := s.rmvPageOrder page
      let s := s.addNrFree current (-1)
      let s := s.expand page order current current
      let r := s.checkCtr (s.page page).pageNO order 1
      (if r.1 then some (r.2.page page).pageNO else none, r.2)

/-- `COMEX_rmqueue_smallest`. -/
def rmqueueSmallest (s : Buddy) (order : ℕ) : Option ℕ × Buddy :=
  rmqueueLoop order (maxOrder - order) order s

/-- The mask of the bits of an index inside a group of the largest block size doubled. -/
def idxMask : ℕ := (1 <<< maxOrder) - 1

/-- The merging rounds of `COMEX_free_page`: the page and order it ends with. -/
def mergeLoop : ℕ → ℕ → ℕ → ℕ → Buddy → Buddy × ℕ × ℕ
  | 0, page, _, order, s => (s, page, order)
  | n + 1, page, pageIdx, order, s =>
    let buddyIdx := pageIdx ^^^ (1 <<< order)
    let buddy := page + buddyIdx - pageIdx
    if s.pageIsBuddy buddy order then
      let s := s.listDel buddy
      let s := s.rmvPageOrder buddy
      let s := s.rmvPageOrder page
      let s := s.addNrFree order (-1)
      let combinedIdx := pageIdx &&& (idxMask ^^^ (1 <<< order))
      mergeLoop n (page + combinedIdx - pageIdx) combinedIdx (order + 1) s
    else (s, page, order)

/-- `COMEX_free_page`. -/
def freePage (s : Buddy) (inPageNO order : ℕ) : Buddy :=
  let r := s.checkCtr inPageNO order (-1)
  if r.1 then
    let pageIdx := (r.2.page inPageNO).pageNO &&& idxMask
    let m := mergeLoop (maxOrder - 1 - order) inPageNO pageIdx order r.2
    let s := m.1.setPageOrder m.2.1 m.2.2
    let s := s.listAddTail m.2.1 m.2.2
    s.addNrFree m.2.2 1
  else r.2

/-! ### What each assignment touches -/

section Fields

variable (s : Buddy) (p q k j : ℕ) (d : Page) (a : FreeArea)

@[simp] theorem setPage_page : (s.setPage p d).page q = if q = p then d else s.page q := by
  simp [setPage, Function.update_apply]

@[simp] theorem setPage_area : (s.setPage p d).area = s.area := rfl

@[simp] theorem setArea_area : (s.setArea k a).area j = if j = k then a else s.area j := by
  simp [setArea, Function.update_apply]

@[simp] theorem setArea_page : (s.setArea k a).page = s.page := rfl

@[simp] theorem listDel_area :
    (s.listDel p).area k = { s.area k with freeList := (s.area k).freeList.erase p } := rfl

@[simp] theorem listDel_page : (s.listDel p).page = s.page := rfl

end Fields

/-- The descriptors and areas as `COMEX_init_ENV` sets them up, every page allocated. -/
def initEmpty (totalPages : ℕ) : Buddy where
  totalPages := totalPages
  page i := { pageNO := i, priv := 0, mapcount := -1, cmxCntr := 1 }
  area _ := { nrFree := 0, freeList := [] }
  failed := []

end Buddy

end Comex
