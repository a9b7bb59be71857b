import Comex.Lib.Runs
import Mathlib.Data.Fintype.Basic
import Mathlib.Logic.Function.Basic
import Mathlib.Tactic.Common

/-!
# Swapping anonymous pages to COMEX

The life of the anonymous pages of any number of processes: stores, `fork`,
unmapping, the reclaim steps of `vmscan.c` and the swap-in of `memory.c` and
`swap_state.c`, taken in any order by any number of threads.  Swap entries of
types 8 and 9 have no reference count (`__swap_duplicate` returns 0 for them, and
`swap_free`, `swapcache_free` and `page_swapcount` find no `swap_info`), so none
is modelled; entries of other types are not used here.

A step is what runs under one lock: the page lock, the PTE lock or the lock of the
swap cache.  A page found in the swap cache is mapped by a later step, and another
thread may run between the two.  The writable bit of a PTE is not modelled: a store
to a page that no other PTE maps may or may not go through `do_wp_page`.

## Main definitions

* `Entry`, `Pte`, `Phase`, `Fault` — entries, PTEs, and where reclaim and a swap-in are.
* `Swap` — the state.
* `step` — the steps.
* `Effect`, `step_effect` — what a step does.
-/

namespace Comex

/-- A swap entry of type 9 or 8. -/
inductive Entry
  | atHome (pageNO : ℕ)
  | remote (nodeID pageNO : ℕ)
  deriving DecidableEq, Repr

/-- `swp_type` and `swp_offset` of an entry as `add_to_swap` builds it. -/
def Entry.swp : Entry → ℕ × ℕ
  | .atHome pageNO => (9, pageNO)
  | .remote nodeID pageNO => (8, nodeID + pageNO <<< 10)

/-- What `read_swap_cache_async` and `zap_pte_range` take from type and offset. -/
def Entry.ofSwp (type offset : ℕ) : Option Entry :=
  if type = 8 then some (.remote (offset &&& 1023) (offset >>> 10))
  else if type = 9 then some (.atHome offset)
  else none

/-- The page freed is the page that was obtained. -/
theorem Entry.ofSwp_swp {e : Entry} (h : ∀ n p, e = .remote n p → n < 1024) :
    Entry.ofSwp e.swp.1 e.swp.2 = some e := by
  cases e with
  | atHome pageNO => rfl
  | remote nodeID pageNO =>
    have hn := h nodeID pageNO rfl
    have hmask : (nodeID + pageNO * 2 ^ 10) &&& 1023 = nodeID := by
      rw [show 1023 = 2 ^ 10 - 1 from rfl, Nat.and_two_pow_sub_one_eq_mod]
      omega
    have hshift : (nodeID + pageNO * 2 ^ 10) >>> 10 = pageNO := by
      rw [Nat.shiftRight_eq_div_pow]
      omega
    simp only [Entry.ofSwp, Entry.swp, Nat.shiftLeft_eq, if_true, hmask, hshift]

/-- A page table entry. -/
inductive Pte (P : Type)
  | none
  | page (p : P) (dirty : Bool)
  | swap (e : Entry)
  deriving DecidableEq, Repr

/-- The page a PTE maps. -/
def Pte.page? {P : Type} : Pte P → Option P
  | .page p _ => some p
  | _ => Option.none

/-- The entry a PTE names. -/
def Pte.swap? {P : Type} : Pte P → Option Entry
  | .swap e => some e
  | _ => Option.none

/-- Whether the dirty bit is set. -/
def Pte.isDirty {P : Type} : Pte P → Bool
  | .page _ d => d
  | _ => false

/-- Where `shrink_page_list` is with a page. -/
inductive Phase
  | idle
  /-- Inside `add_to_swap`: copied, not yet in the swap cache. -/
  | copied (e : Entry)
  /-- In the swap cache, before `try_to_unmap`. -/
  | added
  /-- After `try_to_unmap`. -/
  | unmapped
  /-- After `pageout`, which has unlocked the page. -/
  | written
  deriving DecidableEq, Repr

/-- Whether reclaim holds the page lock. -/
def Phase.locked : Phase → Bool
  | .copied _ | .added | .unmapped => true
  | .idle | .written => false

/-- The entry `add_to_swap` has copied the page to. -/
def Phase.target? : Phase → Option Entry
  | .copied e => some e
  | _ => none

/-- Where a thread is in `do_swap_page`; `swapin_readahead` calls
`read_swap_cache_async` twice. -/
inductive Fault (V P : Type)
  | idle
  /-- `orig_pte` is read. -/
  | looking (v : V) (e : Entry)
  /-- In `read_swap_cache_async`, first or second call. -/
  | reading (v : V) (e : Entry) (second : Bool)
  /-- Its new page is in the swap cache, locked. -/
  | inserted (v : V) (e : Entry) (second : Bool) (q : P)
  /-- The page is read and unlocked, the COMEX page not yet freed. -/
  | filled (v : V) (e : Entry) (second : Bool) (q : P)
  /-- `do_swap_page` has a page. -/
  | got (v : V) (e : Entry) (p : P)
  deriving DecidableEq, Repr

/-- The entry a swap-in is for. -/
def Fault.source? {V P : Type} : Fault V P → Option Entry
  | .idle => none
  | .looking _ e | .reading _ e _ | .inserted _ e _ _ | .filled _ e _ _ | .got _ e _ => some e

/-- The page a swap-in holds a reference to. -/
def Fault.page? {V P : Type} : Fault V P → Option P
  | .inserted _ _ _ p | .filled _ _ _ p | .got _ _ p => some p
  | _ => none

/-- The PTE a swap-in is for. -/
def Fault.slot? {V P : Type} : Fault V P → Option V
  | .idle => none
  | .looking v _ | .reading v _ _ | .inserted v _ _ _ | .filled v _ _ _ | .got v _ _ => some v

/-- Whether the swap-in will free the COMEX page in a later step. -/
def Fault.isFilling {V P : Type} : Fault V P → Bool
  | .inserted _ _ _ _ | .filled _ _ _ _ => true
  | _ => false

/-- The page a swap-in has locked. -/
def Fault.locks? {V P : Type} : Fault V P → Option P
  | .inserted _ _ _ p => some p
  | _ => none

/-- The pages, the page tables, the swap cache and the COMEX pages. -/
structure Swap (V P T α : Type) where
  pte : V → Pte P
  /-- The radix trees of the swap cache. -/
  cache : Entry → Option P
  /-- `page_private` of a page with `PageSwapCache`. -/
  priv : P → Option Entry
  content : P → α
  /-- `PageDirty`. -/
  dirty : P → Bool
  phase : P → Phase
  /-- What the COMEX page of an entry holds. -/
  store : Entry → α
  /-- The COMEX page is handed out. -/
  out : Entry → Bool
  thread : T → Fault V P
  /-- What a page held when `try_to_unmap` last took it from a PTE. -/
  seen : V → α

/-- A step of a process, of reclaim or of a swap-in. -/
inductive SwapStep (V P T α : Type)
  /-- `do_anonymous_page`, or the copy of `do_wp_page`.  That lets go of the locks after it has
  counted the mappings, so the page it replaces may have become the PTE's own. -/
  | newPage (v : V) (q : P) (a : α)
  /-- A store through a writable PTE. -/
  | write (v : V) (a : α)
  /-- `do_wp_page` finds the page to be the PTE's own (`reuse_swap_page`), and the store. -/
  | reuse (v : V) (a : α)
  /-- `copy_one_pte`. -/
  | fork (v w : V)
  /-- One round of `zap_pte_range`. -/
  | zap (v : V)
  /-- `add_to_swap` up to the copy. -/
  | copy (v : V) (e : Entry)
  /-- The rest of `add_to_swap`; `false` when the split or a node allocation fails. -/
  | add (p : P) (ok : Bool)
  /-- A later pass takes up a page that is in the swap cache. -/
  | pass (p : P)
  /-- `try_to_unmap` succeeds. -/
  | unmap (p : P)
  /-- `try_to_unmap` fails; `true` when `try_to_free_swap` is then called. -/
  | unmapFail (p : P) (free : Bool)
  | pageout (p : P)
  /-- `__remove_mapping` succeeds. -/
  | remove (p : P)
  /-- The page is kept. -/
  | putback (p : P)
  /-- A thread reads a PTE. -/
  | fault (t : T) (v : V)
  /-- `lookup_swap_cache`. -/
  | lookup (t : T)
  /-- `read_swap_cache_async` finds the page in the swap cache. -/
  | find (t : T)
  /-- `read_swap_cache_async` puts a new page into the swap cache. -/
  | insert (t : T) (q : P)
  /-- `read_swap_cache_async` returns no page. -/
  | noMem (t : T)
  /-- The page is read and unlocked. -/
  | read (t : T)
  /-- `COMEX_free_page` or `COMEX_free_to_remote`. -/
  | giveBack (t : T)
  /-- The checks of `do_swap_page` under the locks, the mapping and `try_to_free_swap`. -/
  | map (t : T)
  /-- `do_swap_page` returns without a mapping: retry, or out of memory. -/
  | giveUp (t : T)

namespace Swap

variable {V P T α : Type} [DecidableEq V] [DecidableEq P] [DecidableEq T]

section Tests

variable (s : Swap V P T α)

/-- `page_mapped`. -/
def mapped (p : P) : Prop := ∃ v, (s.pte v).page? = some p

/-- No other PTE maps the page. -/
def only (v : V) (p : P) : Prop := ∀ w, (s.pte w).page? = some p → w = v

/-- A swap-in has a reference to the page. -/
def held (p : P) : Prop := ∃ t, (s.thread t).page? = some p

/-- `PageLocked`, between two steps. -/
def locked (p : P) : Prop := (s.phase p).locked = true ∨ ∃ t, (s.thread t).locks? = some p

/-- The page is free memory. -/
def fresh (q : P) : Prop := ¬ s.mapped q ∧ s.priv q = none ∧ s.phase q = .idle ∧ ¬ s.held q

/-- A swap-in of the entry is between its new page and its free of the COMEX page. -/
def beingRead (e : Entry) : Prop :=
  ∃ t, (s.thread t).isFilling = true ∧ (s.thread t).source? = some e

variable [Fintype V] [Fintype T]

instance (p : P) : Decidable (s.mapped p) := inferInstanceAs (Decidable (∃ _, _))
instance (v : V) (p : P) : Decidable (s.only v p) := inferInstanceAs (Decidable (∀ _, _))
instance (p : P) : Decidable (s.held p) := inferInstanceAs (Decidable (∃ _, _))
instance (p : P) : Decidable (s.locked p) := inferInstanceAs (Decidable (_ ∨ _))
instance (q : P) : Decidable (s.fresh q) := inferInstanceAs (Decidable (_ ∧ _))
instance (e : Entry) : Decidable (s.beingRead e) := inferInstanceAs (Decidable (∃ _, _))

end Tests

section Updates

variable (s : Swap V P T α)

/-- A PTE gets a page. -/
@[simps] def fill (v : V) (q : P) (a : α) : Swap V P T α :=
  { s with
    pte := Function.update s.pte v (.page q true)
    content := Function.update s.content q a
    dirty := Function.update s.dirty q false }

/-- A store to a page. -/
@[simps] def storeTo (v : V) (p : P) (a : α) : Swap V P T α :=
  { s with
    pte := Function.update s.pte v (.page p true)
    content := Function.update s.content p a }

/-- A PTE is copied. -/
@[simps] def copyPte (v w : V) : Swap V P T α :=
  { s with
    pte := Function.update s.pte w (s.pte v)
    seen := Function.update s.seen w (s.seen v) }

/-- `COMEX_move_to_COMEX` or `COMEX_move_to_Remote`. -/
@[simps] def moveOut (p : P) (e : Entry) : Swap V P T α :=
  { s with
    store := Function.update s.store e (s.content p)
    out := Function.update s.out e true
    phase := Function.update s.phase p (.copied e) }

/-- `__add_to_swap_cache`. -/
@[simps] def addToSwapCache (p : P) (e : Entry) : Swap V P T α :=
  { s with
    cache := Function.update s.cache e (some p)
    priv := Function.update s.priv p (some e) }

/-- `delete_from_swap_cache`; `swapcache_free` does nothing. -/
@[simps] def deleteFromSwapCache (p : P) (e : Entry) : Swap V P T α :=
  { s with
    cache := Function.update s.cache e none
    priv := Function.update s.priv p none }

/-- `SetPageDirty` and `ClearPageDirty`. -/
@[simps] def setDirty (p : P) (d : Bool) : Swap V P T α :=
  { s with dirty := Function.update s.dirty p d }

@[simps] def setPhase (p : P) (f : Phase) : Swap V P T α :=
  { s with phase := Function.update s.phase p f }

@[simps] def setPte (v : V) (x : Pte P) : Swap V P T α :=
  { s with pte := Function.update s.pte v x }

@[simps] def setThread (t : T) (f : Fault V P) : Swap V P T α :=
  { s with thread := Function.update s.thread t f }

/-- `COMEX_free_page` or `COMEX_free_to_remote`. -/
@[simps] def free (e : Entry) : Swap V P T α :=
  { s with out := Function.update s.out e false }

/-- The read of `read_swap_cache_async`. -/
@[simps] def readIn (q : P) (e : Entry) : Swap V P T α :=
  { s with
    content := Function.update s.content q (s.store e)
    dirty := Function.update s.dirty q true }

/-- Every PTE that maps the page gets the entry, the page their dirty bits. -/
@[simps] def unmapAll [Fintype V] (p : P) (e : Entry) : Swap V P T α :=
  { s with
    pte := fun v => if (s.pte v).page? = some p then .swap e else s.pte v
    dirty := Function.update s.dirty p
      (s.dirty p || decide (∃ v, (s.pte v).page? = some p ∧ (s.pte v).isDirty = true))
    seen := fun v => if (s.pte v).page? = some p then s.content p else s.seen v }

/-- `try_to_free_swap`; `page_swapcount` is 0. -/
def tryToFreeSwap (p : P) : Swap V P T α :=
  match s.priv p with
  | none => s
  | some e => (s.deleteFromSwapCache p e).setDirty p true

/-- `reuse_swap_page` of a page that one PTE maps; `page_swapcount` is 0, so it does what
`try_to_free_swap` does. -/
def reuseSwapPage (p : P) : Swap V P T α := s.tryToFreeSwap p

end Updates

/-- One step, if it is enabled. -/
def step [Fintype V] [Fintype T] (s : Swap V P T α) : SwapStep V P T α → Option (Swap V P T α)
  | .newPage v q a => if s.fresh q ∧ (s.pte v).swap? = none then some (s.fill v q a) else none
  | .write v a =>
    match s.pte v with
    | .page p _ =>
      if s.only v p then
        some (s.storeTo v p a)
      else none
    | _ => none
  | .reuse v a =>
    match s.pte v with
    | .page p _ =>
      if s.only v p ∧ ¬ s.locked p then
        some ((s.reuseSwapPage p).storeTo v p a)
      else none
    | _ => none
  | .fork v w =>
    if s.pte w = .none then some (s.copyPte v w) else none
  | .zap v =>
    match s.pte v with
    | .none => none
    | .page p _ =>
      let s := s.setPte v .none
      -- `free_swap_cache`
      some (if ¬ s.mapped p ∧ ¬ s.locked p then s.tryToFreeSwap p else s)
    | .swap e => some ((s.setPte v .none).free e)
  | .copy v e =>
    match s.pte v with
    | .page p _ =>
      if s.only v p ∧ s.priv p = none ∧ s.phase p = .idle ∧ ¬ s.held p ∧ s.out e = false then
        some (s.moveOut p e)
      else none
    | _ => none
  | .add p ok =>
    match s.phase p with
    | .copied e =>
      if ok = true ∧ s.cache e = none then
        some (((s.addToSwapCache p e).setDirty p true).setPhase p .added)
      -- `swapcache_free` does nothing
      else some (s.setPhase p .idle)
    | _ => none
  | .pass p =>
    if s.phase p = .idle ∧ (s.priv p).isSome ∧ ¬ s.locked p then some (s.setPhase p .added)
    else none
  | .unmap p =>
    if s.phase p = .added then
      (s.priv p).map fun e => (s.unmapAll p e).setPhase p .unmapped
    else none
  | .unmapFail p free =>
    if s.phase p = .added ∧ s.mapped p then
      some ((if free then s.tryToFreeSwap p else s).setPhase p .idle)
    else none
  | .pageout p =>
    if s.phase p = .unmapped ∧ s.dirty p = true ∧ ¬ s.held p then
      some ((s.setDirty p false).setPhase p .written)
    else none
  | .remove p =>
    if (s.phase p = .unmapped ∨ s.phase p = .written) ∧ ¬ s.mapped p ∧ ¬ s.held p ∧
        s.dirty p = false then
      (s.priv p).map fun e => (s.deleteFromSwapCache p e).setPhase p .idle
    else none
  | .putback p =>
    if s.phase p = .unmapped ∨ s.phase p = .written then some (s.setPhase p .idle) else none
  | .fault t v =>
    match s.thread t, s.pte v with
    | .idle, .swap e => some (s.setThread t (.looking v e))
    | _, _ => none
  | .lookup t =>
    match s.thread t with
    | .looking v e =>
      some (s.setThread t ((s.cache e).elim (.reading v e false) fun p => .got v e p))
    | _ => none
  | .find t =>
    match s.thread t with
    | .reading v e second =>
      (s.cache e).map fun p => s.setThread t (if second then .got v e p else .reading v e true)
    | _ => none
  | .insert t q =>
    match s.thread t with
    | .reading v e second =>
      if s.cache e = none ∧ s.fresh q then
        some ((s.addToSwapCache q e).setThread t (.inserted v e second q))
      else none
    | _ => none
  | .noMem t =>
    match s.thread t with
    | .reading v e second =>
      if s.cache e = none then
        some (s.setThread t (if second then .idle else .reading v e true))
      else none
    | _ => none
  | .read t =>
    match s.thread t with
    | .inserted v e second q => some ((s.readIn q e).setThread t (.filled v e second q))
    | _ => none
  | .giveBack t =>
    match s.thread t with
    | .filled v e second q =>
      some ((s.free e).setThread t (if second then .got v e q else .reading v e true))
    | _ => none
  | .map t =>
    match s.thread t with
    | .got v e p =>
      if s.locked p then none
      else if s.priv p = some e ∧ s.pte v = .swap e then
        some (((s.setPte v (.page p false)).tryToFreeSwap p).setThread t .idle)
      else some (s.setThread t .idle)
    | _ => none
  | .giveUp t =>
    match s.thread t with
    | .got _ _ _ => some (s.setThread t .idle)
    | _ => none

/-- No page, no entry and no swap-in. -/
def init (content : P → α) (store : Entry → α) (seen : V → α) : Swap V P T α where
  pte _ := .none
  cache _ := none
  priv _ := none
  content := content
  dirty _ := false
  phase _ := .idle
  store := store
  out _ := false
  thread _ := .idle
  seen := seen

/-- The runs whose every step meets a guard. -/
abbrev Reach [Fintype V] [Fintype T] (content : P → α) (store : Entry → α) (seen : V → α)
    (ok : Swap V P T α → SwapStep V P T α → Prop) (s : Swap V P T α) : Prop :=
  Machine.Reach (Machine.ofPartial (init content store seen) step) ok s

/-- What a step does, branch by branch: the guards of `step` that a branch rests on, and the
updates it makes.  `try_to_free_swap` is resolved here, into the branches that take the page out
of the swap cache and those that find it elsewhere. -/
inductive Effect [Fintype V] (s : Swap V P T α) : SwapStep V P T α → Swap V P T α → Prop
  | newPage {v : V} {q : P} {a : α} (hq : s.fresh q) (hv : (s.pte v).swap? = none) :
    Effect s (.newPage v q a) (s.fill v q a)
  | write {v : V} {a : α} {p : P} {d : Bool} (hv : s.pte v = .page p d) (hp : s.only v p) :
    Effect s (.write v a) (s.storeTo v p a)
  | reuse {v : V} {a : α} {p : P} {d : Bool} (hv : s.pte v = .page p d) (hp : s.only v p)
    (hlock : ¬ s.locked p) (he : s.priv p = none) : Effect s (.reuse v a) (s.storeTo v p a)
  | reuseFree {v : V} {a : α} {p : P} {d : Bool} {e : Entry} (hv : s.pte v = .page p d)
    (hp : s.only v p) (hlock : ¬ s.locked p) (he : s.priv p = some e) :
    Effect s (.reuse v a) (((s.deleteFromSwapCache p e).setDirty p true).storeTo v p a)
  | fork {v w : V} (hw : s.pte w = .none) : Effect s (.fork v w) (s.copyPte v w)
  | zapPage {v : V} {p : P} {d : Bool} (hv : s.pte v = .page p d) :
    Effect s (.zap v) (s.setPte v .none)
  | zapFree {v : V} {p : P} {d : Bool} {e : Entry} (hv : s.pte v = .page p d)
    (hp : s.only v p) (hlock : ¬ s.locked p) (he : s.priv p = some e) :
    Effect s (.zap v) (((s.setPte v .none).deleteFromSwapCache p e).setDirty p true)
  | zapSwap {v : V} {e : Entry} (hv : s.pte v = .swap e) :
    Effect s (.zap v) ((s.setPte v .none).free e)
  | copy {v : V} {e : Entry} {p : P} {d : Bool} (hv : s.pte v = .page p d) (hp : s.only v p)
    (hpriv : s.priv p = none) (hphase : s.phase p = .idle) (hheld : ¬ s.held p)
    (hout : s.out e = false) : Effect s (.copy v e) (s.moveOut p e)
  | add {p : P} {e : Entry} (hp : s.phase p = .copied e) (hcache : s.cache e = none) :
    Effect s (.add p true) (((s.addToSwapCache p e).setDirty p true).setPhase p .added)
  | addFail {p : P} {ok : Bool} {e : Entry} (hp : s.phase p = .copied e)
    (hfail : ok = false ∨ s.cache e ≠ none) : Effect s (.add p ok) (s.setPhase p .idle)
  | pass {p : P} (hp : s.phase p = .idle) (hlock : ¬ s.locked p) :
    Effect s (.pass p) (s.setPhase p .added)
  | unmap {p : P} {e : Entry} (hp : s.phase p = .added) (he : s.priv p = some e) :
    Effect s (.unmap p) ((s.unmapAll p e).setPhase p .unmapped)
  | unmapKeep {p : P} {free : Bool} (hp : s.phase p = .added) :
    Effect s (.unmapFail p free) (s.setPhase p .idle)
  | unmapFree {p : P} {e : Entry} (hp : s.phase p = .added) (hm : s.mapped p)
    (he : s.priv p = some e) : Effect s (.unmapFail p true)
      (((s.deleteFromSwapCache p e).setDirty p true).setPhase p .idle)
  | pageout {p : P} (hp : s.phase p = .unmapped) :
    Effect s (.pageout p) ((s.setDirty p false).setPhase p .written)
  | remove {p : P} {e : Entry} (hp : s.phase p = .unmapped ∨ s.phase p = .written)
    (hm : ¬ s.mapped p) (hheld : ¬ s.held p) (he : s.priv p = some e) :
    Effect s (.remove p) ((s.deleteFromSwapCache p e).setPhase p .idle)
  | putback {p : P} (hp : s.phase p = .unmapped ∨ s.phase p = .written) :
    Effect s (.putback p) (s.setPhase p .idle)
  | fault {t : T} {v : V} {e : Entry} (ht : s.thread t = .idle) (hv : s.pte v = .swap e) :
    Effect s (.fault t v) (s.setThread t (.looking v e))
  | hit {t : T} {v : V} {e : Entry} {p : P} (ht : s.thread t = .looking v e)
    (hc : s.cache e = some p) : Effect s (.lookup t) (s.setThread t (.got v e p))
  | miss {t : T} {v : V} {e : Entry} (ht : s.thread t = .looking v e) (hc : s.cache e = none) :
    Effect s (.lookup t) (s.setThread t (.reading v e false))
  | findFirst {t : T} {v : V} {e : Entry} {p : P} (ht : s.thread t = .reading v e false)
    (hc : s.cache e = some p) : Effect s (.find t) (s.setThread t (.reading v e true))
  | findSecond {t : T} {v : V} {e : Entry} {p : P} (ht : s.thread t = .reading v e true)
    (hc : s.cache e = some p) : Effect s (.find t) (s.setThread t (.got v e p))
  | insert {t : T} {v : V} {e : Entry} {b : Bool} {q : P} (ht : s.thread t = .reading v e b)
    (hc : s.cache e = none) (hq : s.fresh q) :
    Effect s (.insert t q) ((s.addToSwapCache q e).setThread t (.inserted v e b q))
  | noMemFirst {t : T} {v : V} {e : Entry} (ht : s.thread t = .reading v e false)
    (hc : s.cache e = none) : Effect s (.noMem t) (s.setThread t (.reading v e true))
  | noMemSecond {t : T} {v : V} {e : Entry} (ht : s.thread t = .reading v e true)
    (hc : s.cache e = none) : Effect s (.noMem t) (s.setThread t .idle)
  | read {t : T} {v : V} {e : Entry} {b : Bool} {q : P} (ht : s.thread t = .inserted v e b q) :
    Effect s (.read t) ((s.readIn q e).setThread t (.filled v e b q))
  | giveFirst {t : T} {v : V} {e : Entry} {q : P} (ht : s.thread t = .filled v e false q) :
    Effect s (.giveBack t) ((s.free e).setThread t (.reading v e true))
  | giveSecond {t : T} {v : V} {e : Entry} {q : P} (ht : s.thread t = .filled v e true q) :
    Effect s (.giveBack t) ((s.free e).setThread t (.got v e q))
  | map {t : T} {v : V} {e : Entry} {p : P} (ht : s.thread t = .got v e p)
    (hlock : ¬ s.locked p) (he : s.priv p = some e) (hv : s.pte v = .swap e) :
    Effect s (.map t)
      ((((s.setPte v (.page p false)).deleteFromSwapCache p e).setDirty p true).setThread t .idle)
  | mapFail {t : T} {v : V} {e : Entry} {p : P} (ht : s.thread t = .got v e p)
    (hback : ¬ (s.priv p = some e ∧ s.pte v = .swap e)) :
    Effect s (.map t) (s.setThread t .idle)
  | giveUp {t : T} {v : V} {e : Entry} {p : P} (ht : s.thread t = .got v e p) :
    Effect s (.giveUp t) (s.setThread t .idle)

section Inversion

omit [DecidableEq P] [DecidableEq T] in
theorem only_of_not_mapped {s : Swap V P T α} {v : V} {p : P}
    (h : ¬ (s.setPte v .none).mapped p) : s.only v p := by
  intro w hw
  by_contra hne
  refine h ⟨w, ?_⟩
  change (Function.update s.pte v .none w).page? = some p
  rwa [Function.update_of_ne hne]

section FreeSwap

variable {s : Swap V P T α} {p : P} {e : Entry}

omit [DecidableEq V] [DecidableEq T] in
theorem tryToFreeSwap_none (h : s.priv p = none) : s.tryToFreeSwap p = s := by
  simp only [tryToFreeSwap, h]

omit [DecidableEq V] [DecidableEq T] in
theorem tryToFreeSwap_some (h : s.priv p = some e) :
    s.tryToFreeSwap p = (s.deleteFromSwapCache p e).setDirty p true := by
  simp only [tryToFreeSwap, h]

end FreeSwap

variable [Fintype V] [Fintype T] {s s' : Swap V P T α}

/-- Where the last map of a page goes, `free_swap_cache` takes it out of the swap cache. -/
theorem zap_effect {v : V} (h : s.step (.zap v) = some s') : Effect s (.zap v) s' := by
  cases hv : s.pte v with
  | none => simp [step, hv] at h
  | swap e =>
    simp only [step, hv, Option.some.injEq] at h
    subst h
    exact .zapSwap hv
  | page p d =>
    simp only [step, hv, Option.some.injEq] at h
    subst h
    split
    · next hlast =>
      cases he : s.priv p with
      | none =>
        rw [tryToFreeSwap_none (show (s.setPte v .none).priv p = none from he)]
        exact .zapPage hv
      | some e =>
        rw [tryToFreeSwap_some (show (s.setPte v .none).priv p = some e from he)]
        exact .zapFree hv (only_of_not_mapped hlast.1) hlast.2 he
    · exact .zapPage hv

/-- Where the page is in the swap cache, `reuse_swap_page` takes it out. -/
theorem reuse_effect {v : V} {b : α} (h : s.step (.reuse v b) = some s') :
    Effect s (.reuse v b) s' := by
  cases hv : s.pte v with
  | none => simp [step, hv] at h
  | swap e => simp [step, hv] at h
  | page p d =>
    simp only [step, hv, Option.ite_none_right_eq_some, Option.some.injEq] at h
    obtain ⟨⟨honly, hlock⟩, rfl⟩ := h
    rw [reuseSwapPage]
    cases he : s.priv p with
    | none =>
      rw [tryToFreeSwap_none he]
      exact .reuse hv honly hlock he
    | some e =>
      rw [tryToFreeSwap_some he]
      exact .reuseFree hv honly hlock he

theorem add_effect {p : P} {ok : Bool} (h : s.step (.add p ok) = some s') :
    Effect s (.add p ok) s' := by
  cases hp : s.phase p with
  | copied e =>
    simp only [step, hp] at h
    split at h
    · next hok =>
      obtain ⟨rfl, hcache⟩ := hok
      rw [← Option.some.inj h]
      exact .add hp hcache
    · next hok =>
      rw [← Option.some.inj h]
      refine .addFail hp ?_
      by_cases hb : ok = true
      · exact Or.inr fun hc => hok ⟨hb, hc⟩
      · exact Or.inl (by simpa using hb)
  | _ => simp [step, hp] at h

theorem unmapFail_effect {p : P} {free : Bool} (h : s.step (.unmapFail p free) = some s') :
    Effect s (.unmapFail p free) s' := by
  simp only [step, Option.ite_none_right_eq_some, Option.some.injEq] at h
  obtain ⟨⟨hp, hm⟩, rfl⟩ := h
  cases free with
  | false => exact .unmapKeep hp
  | true =>
    rw [if_pos rfl]
    cases he : s.priv p with
    | none =>
      rw [tryToFreeSwap_none he]
      exact .unmapKeep hp
    | some e =>
      rw [tryToFreeSwap_some he]
      exact .unmapFree hp hm he

/-- `do_swap_page` maps the page if it is in the swap cache, and the entry in the table, still. -/
theorem map_effect {t : T} (h : s.step (.map t) = some s') : Effect s (.map t) s' := by
  cases ht : s.thread t with
  | got v e p =>
    simp only [step, ht] at h
    split at h
    · exact absurd h (by simp)
    next hlock =>
    split at h
    · next hok =>
      have hpriv : (s.setPte v (.page p false)).priv p = some e := hok.1
      rw [← Option.some.inj h, tryToFreeSwap_some hpriv]
      exact .map ht hlock hok.1 hok.2
    · next hback =>
      rw [← Option.some.inj h]
      exact .mapFail ht hback
  | _ => simp [step, ht] at h

/-- **A step is one of the branches.**  Every invariant of the runs is proved from this: no later
proof unfolds `step`.  The cases are the steps; each reads the guards off the enabled branch and
names the effect that has them. -/
theorem step_effect {a : SwapStep V P T α} (h : s.step a = some s') : Effect s a s' := by
  cases a with
  -- the steps of a process
  | newPage v q a =>
    simp only [step, Option.ite_none_right_eq_some, Option.some.injEq] at h
    obtain ⟨⟨hq, hv⟩, rfl⟩ := h
    exact .newPage hq hv
  | write v a =>
    cases hv : s.pte v with
    | none => simp [step, hv] at h
    | swap e => simp [step, hv] at h
    | page p d =>
      simp only [step, hv, Option.ite_none_right_eq_some, Option.some.injEq] at h
      obtain ⟨hp, rfl⟩ := h
      exact .write hv hp
  | reuse v a => exact reuse_effect h
  | fork v w =>
    simp only [step, Option.ite_none_right_eq_some, Option.some.injEq] at h
    obtain ⟨hw, rfl⟩ := h
    exact .fork hw
  | zap v => exact zap_effect h
  -- the steps of reclaim: where they start is read off the phase of the page
  | copy v e =>
    cases hv : s.pte v with
    | none => simp [step, hv] at h
    | swap e => simp [step, hv] at h
    | page p d =>
      simp only [step, hv, Option.ite_none_right_eq_some, Option.some.injEq] at h
      obtain ⟨⟨h1, h2, h3, h4, h5⟩, rfl⟩ := h
      exact .copy hv h1 h2 h3 h4 h5
  | add p ok => exact add_effect h
  | pass p =>
    simp only [step, Option.ite_none_right_eq_some, Option.some.injEq] at h
    obtain ⟨⟨h1, -, h3⟩, rfl⟩ := h
    exact .pass h1 h3
  | unmap p =>
    simp only [step, Option.ite_none_right_eq_some, Option.map_eq_some_iff] at h
    obtain ⟨hp, e, he, rfl⟩ := h
    exact .unmap hp he
  | unmapFail p free => exact unmapFail_effect h
  | pageout p =>
    simp only [step, Option.ite_none_right_eq_some, Option.some.injEq] at h
    obtain ⟨⟨hp, -⟩, rfl⟩ := h
    exact .pageout hp
  | remove p =>
    simp only [step, Option.ite_none_right_eq_some, Option.map_eq_some_iff] at h
    obtain ⟨⟨hp, hm, hheld, -⟩, e, he, rfl⟩ := h
    exact .remove hp hm hheld he
  | putback p =>
    simp only [step, Option.ite_none_right_eq_some, Option.some.injEq] at h
    obtain ⟨hp, rfl⟩ := h
    exact .putback hp
  -- the steps of a swap-in: a thread that is elsewhere in `do_swap_page` cannot take them
  | fault t v =>
    cases ht : s.thread t with
    | idle =>
      cases hv : s.pte v with
      | none => simp [step, ht, hv] at h
      | page p d => simp [step, ht, hv] at h
      | swap e =>
        simp only [step, ht, hv, Option.some.injEq] at h
        subst h
        exact .fault ht hv
    | _ => simp [step, ht] at h
  | lookup t =>
    cases ht : s.thread t with
    | looking v e =>
      simp only [step, ht, Option.some.injEq] at h
      subst h
      cases hc : s.cache e with
      | none => exact .miss ht hc
      | some p => exact .hit ht hc
    | _ => simp [step, ht] at h
  | find t =>
    cases ht : s.thread t with
    | reading v e second =>
      simp only [step, ht, Option.map_eq_some_iff] at h
      obtain ⟨p, hc, rfl⟩ := h
      cases second with
      | false => exact .findFirst ht hc
      | true => exact .findSecond ht hc
    | _ => simp [step, ht] at h
  | insert t q =>
    cases ht : s.thread t with
    | reading v e second =>
      simp only [step, ht, Option.ite_none_right_eq_some, Option.some.injEq] at h
      obtain ⟨⟨hc, hq⟩, rfl⟩ := h
      exact .insert ht hc hq
    | _ => simp [step, ht] at h
  | noMem t =>
    cases ht : s.thread t with
    | reading v e second =>
      simp only [step, ht, Option.ite_none_right_eq_some, Option.some.injEq] at h
      obtain ⟨hc, rfl⟩ := h
      cases second with
      | false => exact .noMemFirst ht hc
      | true => exact .noMemSecond ht hc
    | _ => simp [step, ht] at h
  | read t =>
    cases ht : s.thread t with
    | inserted v e second q =>
      simp only [step, ht, Option.some.injEq] at h
      subst h
      exact .read ht
    | _ => simp [step, ht] at h
  | giveBack t =>
    cases ht : s.thread t with
    | filled v e second q =>
      simp only [step, ht, Option.some.injEq] at h
      subst h
      cases second with
      | false => exact .giveFirst ht
      | true => exact .giveSecond ht
    | _ => simp [step, ht] at h
  | map t => exact map_effect h
  | giveUp t =>
    cases ht : s.thread t with
    | got v e p =>
      simp only [step, ht, Option.some.injEq] at h
      subst h
      exact .giveUp ht
    | _ => simp [step, ht] at h

end Inversion

end Swap
end Comex
