import Comex.Buddy.Loops
import Comex.Lib.Runs

/-!
# The buddy invariant

Between two calls the lists, descriptors and counters record one coalesced set
of free blocks (`Inv`).  Each entry point is specified by what it does to the
set of free pages: an allocation takes an aligned run out of it or finds no
block large enough, a legal free puts its block in.  From there every state a
run of the allocator reaches satisfies the invariant, whatever the order and
size of the calls.

## Main results

* `Inv.rmqueueSmallest`, `Inv.freePage` — the two entry points.
* `reach_inv` — the invariant of every run.
* `reach_wellFormed` — **the same, spelled out on lists, descriptors and counters.**
-/

namespace Comex
namespace Buddy

open Aligned

/-- What holds of the allocator between two calls. -/
structure Inv (s : Buddy) : Prop where
  links : Links s
  coalesced : Coalesced (maxOrder - 1) s.freeBlocks
  free_iff : ∀ p, p < s.totalPages → ((s.page p).cmxCntr = 0 ↔ p ∈ s.freePages)
  ctr_eq : ∀ p, p < s.totalPages → (s.page p).cmxCntr = 0 ∨ (s.page p).cmxCntr = 1

theorem freeBlocks_initEmpty (n : ℕ) : (initEmpty n).freeBlocks = ∅ := by
  ext b
  simp [mem_freeBlocks, initEmpty]

theorem inv_initEmpty (n : ℕ) : Inv (initEmpty n) where
  links :=
    { pageNO := fun _ _ => rfl
      aligned := fun k p h => by simp [initEmpty] at h
      head_iff := fun p _ k => by simp [initEmpty]
      plain := fun _ _ _ => ⟨rfl, rfl⟩
      nodup := fun _ => List.nodup_nil
      count := fun _ => rfl }
  coalesced := by
    rw [freeBlocks_initEmpty]
    exact coalesced_empty _
  free_iff := by
    intro p _
    rw [freePages, freeBlocks_initEmpty]
    simp [initEmpty]
  ctr_eq := fun _ _ => Or.inr rfl

theorem not_mem_freePages_initEmpty (n p : ℕ) : p ∉ (initEmpty n).freePages := by
  rw [freePages, freeBlocks_initEmpty]
  simp

section Ranges

variable {s : Buddy}

/-- A free page is a page. -/
theorem Links.lt_of_free (h : Links s) {p : ℕ} (hp : p ∈ s.freePages) : p < s.totalPages := by
  obtain ⟨b, hb, hpb⟩ := hp
  have hend := (h.aligned _ _ hb).2.2
  have := (Block.mem_iff_range.mp hpb).2
  omega

theorem mem_around_iff {k p q : ℕ} (hd : 2 ^ k ∣ p) :
    q ∈ Block.around k p ↔ p ≤ q ∧ q < p + 2 ^ k := by
  rw [Block.mem_iff_range, Block.head_around hd]
  rfl

theorem setCtr_cmxCntr_around {k p : ℕ} (hd : 2 ^ k ∣ p) (c : ℤ) (q : ℕ) :
    ((s.setCtr p (2 ^ k) c).page q).cmxCntr =
      if q ∈ Block.around k p then c else (s.page q).cmxCntr := by
  rw [setCtr_cmxCntr]
  by_cases hq : q ∈ Block.around k p
  · rw [if_pos hq, if_pos ((mem_around_iff hd).mp hq)]
  · rw [if_neg hq, if_neg fun h => hq ((mem_around_iff hd).mpr h)]

/-- The masked number of a page. -/
theorem and_idxMask (p : ℕ) : p &&& idxMask = p % 2 ^ maxOrder := by
  rw [idxMask, Nat.one_shiftLeft, Nat.and_two_pow_sub_one_eq_mod]

end Ranges

/-! ### Allocation -/

/-- What a successful allocation of order `k` does. -/
structure Allocated (s : Buddy) (k p : ℕ) (s' : Buddy) : Prop where
  inv : Inv s'
  aligned : 2 ^ k ∣ p
  was_free : ∀ q ∈ Block.around k p, q ∈ s.freePages
  freePages : ∀ q, q ∈ s'.freePages ↔ q ∈ s.freePages ∧ q ∉ Block.around k p
  totalPages : s'.totalPages = s.totalPages
  failed : s'.failed = s.failed

/-- The statements of `COMEX_rmqueue_smallest` once it has found a block. -/
theorem Inv.allocate {s : Buddy} (h : Inv s) {order current page : ℕ} (hle : order ≤ current)
    (hpage : page ∈ (s.area current).freeList) :
    let s₁ := (s.takeOff page current).expand page order current current
    let r := s₁.checkCtr (s₁.page page).pageNO order 1
    r.1 = true ∧ (r.2.page page).pageNO = page ∧ Allocated s order page r.2 := by
  intro s₁ r
  obtain ⟨hd, -⟩ := h.links.mem_list_iff.mp hpage
  have hdo : 2 ^ order ∣ page := dvd_trans (pow_dvd_pow 2 hle) hd
  have hlt := h.links.lt_total hpage
  obtain ⟨hloose, hpages⟩ := Loose.of_takeOff h.links h.coalesced hpage
  -- split down to the order asked for
  obtain ⟨hsplit, hsame, hcov⟩ := hloose.expandLoop rfl hle
  rw [Block.head_around hd] at hsplit hsame hcov
  change Loose s₁ _ at hsplit
  change SameCtr _ s₁ at hsame
  change ∀ q, q ∈ s₁.freePages ∨ _ ↔ _ at hcov
  have hctr : ∀ q, (s₁.page q).cmxCntr = (s.page q).cmxCntr := fun q =>
    (hsame.cmxCntr q).trans (takeOff_cmxCntr s page q current)
  have htot : s₁.totalPages = s.totalPages := hsame.totalPages
  have hsub : ∀ q ∈ Block.around order page, q ∈ Block.around current page := fun q hq =>
    Block.mem_of_le (Block.mem_around order page) (Block.mem_around current page) hle hq
  have hwas : ∀ q ∈ Block.around order page, q ∈ s.freePages := fun q hq =>
    ⟨_, (h.links.mem_list_iff.mp hpage).2, hsub q hq⟩
  have hfree : ∀ q, q ∈ s₁.freePages ↔ q ∈ s.freePages ∧ q ∉ Block.around order page := by
    intro q
    have h1 := hcov q
    have h2 := hpages q
    have h3 := hsplit.out q
    have h4 := hwas q
    have h5 : q ∈ Block.around current page → q ∈ s.freePages := fun hq =>
      ⟨_, (h.links.mem_list_iff.mp hpage).2, hq⟩
    grind
  -- the counters of the block are still those of free pages
  have hzero : ∀ q ∈ Block.around order page, (s₁.page q).cmxCntr = ctrBefore 1 := by
    intro q hq
    rw [hctr]
    exact (h.free_iff q (h.links.lt_of_free (hwas q hq))).mpr (hwas q hq)
  have hno : (s₁.page page).pageNO = page := hsplit.links.pageNO page (by omega)
  have hr : r = (true, s₁.setCtr page (2 ^ order) 1) := by
    change s₁.checkCtr (s₁.page page).pageNO order 1 = _
    rw [hno, checkCtr_eq (Or.inl rfl) hdo hzero]
    rfl
  rw [hr]
  refine ⟨rfl, by rw [setCtr_pageNO, hno], ⟨?_, hdo, hwas, hfree, htot, hsame.failed⟩⟩
  refine ⟨hsplit.links.setCtr _ _ _, hsplit.coalesced, fun q hq => ?_, fun q hq => ?_⟩
  · have hq' : q < s.totalPages := by rw [← htot]; exact hq
    rw [setCtr_cmxCntr_around hdo, setCtr_freePages, hfree, hctr]
    by_cases hin : q ∈ Block.around order page
    · simp [hin]
    · simp [hin, h.free_iff q hq']
  · have hq' : q < s.totalPages := by rw [← htot]; exact hq
    rw [setCtr_cmxCntr_around hdo, hctr]
    by_cases hin : q ∈ Block.around order page
    · rw [if_pos hin]
      exact Or.inr rfl
    · rw [if_neg hin]
      exact h.ctr_eq q hq'

/-- **What `COMEX_rmqueue_smallest` does**: nothing when no listed block is large
enough, otherwise it takes an aligned run out of the free pages. -/
theorem Inv.rmqueueSmallest {s : Buddy} (h : Inv s) {order : ℕ} (ho : order < maxOrder) :
    (s.rmqueueSmallest order = (none, s) ∧ ∀ b ∈ s.freeBlocks, b.order < order) ∨
      ∃ p, (s.rmqueueSmallest order).1 = some p ∧
        Allocated s order p (s.rmqueueSmallest order).2 := by
  -- the loop keeps it that the lists it has passed are empty
  have key : ∀ n current, n + current = maxOrder → order ≤ current →
      (∀ b ∈ s.freeBlocks, b.order < current → b.order < order) →
      (rmqueueLoop order n current s = (none, s) ∧ ∀ b ∈ s.freeBlocks, b.order < order) ∨
        ∃ p, (rmqueueLoop order n current s).1 = some p ∧
          Allocated s order p (rmqueueLoop order n current s).2 := by
    intro n
    induction n with
    | zero =>
      intro current hn _ hlow
      refine Or.inl ⟨rfl, fun b hb => hlow b hb ?_⟩
      have := h.coalesced.order_le b hb
      omega
    | succ n ih =>
      intro current hn hle hlow
      rw [rmqueueLoop]
      cases hlist : (s.area current).freeList with
      | nil =>
        -- this list is empty too: the blocks below the next order are below `order`
        apply ih (current + 1) (by omega) (by omega)
        intro b hb hlt
        by_cases hbc : b.order = current
        · rw [mem_freeBlocks, hbc, hlist] at hb
          simp at hb
        · exact hlow b hb (by omega)
      | cons page rest =>
        obtain ⟨hok, hno, halloc⟩ := h.allocate hle (show page ∈ _ by rw [hlist]; simp)
        refine Or.inr ⟨page, ?_, halloc⟩
        change (if _ then _ else _) = _
        rw [takeOff] at hok hno
        rw [if_pos hok, hno]
  exact key _ order (by omega) le_rfl fun b _ hlt => hlt

/-! ### Freeing -/

/-- A legal free: an aligned block inside the array, all of it allocated. -/
structure CanFree (s : Buddy) (p k : ℕ) : Prop where
  order_lt : k < maxOrder
  aligned : 2 ^ k ∣ p
  in_range : p + 2 ^ k ≤ s.totalPages
  allocated : ∀ i, i < 2 ^ k → (s.page (p + i)).cmxCntr = 1

instance (s : Buddy) (p k : ℕ) : Decidable (CanFree s p k) :=
  decidable_of_iff (k < maxOrder ∧ 2 ^ k ∣ p ∧ p + 2 ^ k ≤ s.totalPages ∧
      ∀ i, i < 2 ^ k → (s.page (p + i)).cmxCntr = 1)
    ⟨fun ⟨h1, h2, h3, h4⟩ => ⟨h1, h2, h3, h4⟩, fun ⟨h1, h2, h3, h4⟩ => ⟨h1, h2, h3, h4⟩⟩

/-- What a legal free does. -/
structure Freed (s : Buddy) (p k : ℕ) (s' : Buddy) : Prop where
  inv : Inv s'
  freePages : ∀ q, q ∈ s'.freePages ↔ q ∈ s.freePages ∨ q ∈ Block.around k p
  totalPages : s'.totalPages = s.totalPages
  failed : s'.failed = s.failed

theorem CanFree.ctr_eq {s : Buddy} {p k : ℕ} (h : CanFree s p k) :
    ∀ q ∈ Block.around k p, (s.page q).cmxCntr = 1 := by
  intro q hq
  obtain ⟨h1, h2⟩ := (mem_around_iff h.aligned).mp hq
  have := h.allocated (q - p) (by omega)
  rwa [Nat.add_sub_cancel' h1] at this

/-- Once the counters of a legal block are cleared, the block is loose. -/
theorem Inv.loose_of_canFree {s : Buddy} (h : Inv s) {p k : ℕ} (hf : CanFree s p k) :
    Loose (s.setCtr p (2 ^ k) 0) (Block.around k p) where
  links := h.links.setCtr _ _ _
  coalesced := h.coalesced
  order_lt := hf.order_lt
  in_range := by
    rw [Block.head_around hf.aligned]
    exact hf.in_range
  out := by
    intro q hq hfree
    have h1 := hf.ctr_eq q hq
    rw [(h.free_iff q (h.links.lt_of_free hfree)).mpr hfree] at h1
    exact absurd h1 (by decide)

/-- **What `COMEX_free_page` does on a legal block**: its pages join the free ones. -/
theorem Inv.freePage {s : Buddy} (h : Inv s) {p k : ℕ} (hf : CanFree s p k) :
    Freed s p k (s.freePage p k) := by
  have hd := hf.aligned
  have hk := hf.order_lt
  have hctr : s.checkCtr p k (-1) = (true, s.setCtr p (2 ^ k) 0) :=
    checkCtr_eq (Or.inr rfl) hd hf.ctr_eq
  have hloose := h.loose_of_canFree hf
  have hno : ((s.setCtr p (2 ^ k) 0).page p).pageNO = p := by
    rw [setCtr_pageNO]
    have := hf.in_range
    have := Nat.two_pow_pos k
    exact h.links.pageNO p (by omega)
  -- merge as far as it goes
  obtain ⟨c, hpage, horder, hc, hsame, hbuddy, hcov⟩ :=
    hloose.mergeLoop (n := maxOrder - 1 - k) (by simp only [Block.around]; omega)
  rw [Block.head_around hd, ← and_idxMask] at hpage horder hc hsame hbuddy hcov
  change (mergeLoop _ p _ k _).2.1 = _ at hpage
  change (mergeLoop _ p _ k _).2.2 = _ at horder
  rw [Buddy.freePage]
  simp only [hctr, if_pos, hno]
  change Freed s p k (putLast _ _ _)
  rw [hpage, horder]
  change Loose (mergeLoop _ p _ k _).1 c at hc
  change SameCtr _ (mergeLoop _ p _ k _).1 at hsame
  change _ → c.buddy ∉ (mergeLoop _ p _ k _).1.freeBlocks at hbuddy
  change ∀ q, q ∈ (mergeLoop _ p _ k _).1.freePages ∨ _ ↔ _ at hcov
  generalize (mergeLoop (maxOrder - 1 - k) p (p &&& idxMask) k (s.setCtr p (2 ^ k) 0)).1 = m at *
  have htot : m.totalPages = s.totalPages := hsame.totalPages
  have hblocks : (m.putLast c.head c.order).freeBlocks = insert c m.freeBlocks := by
    rw [freeBlocks_putLast c.dvd_head, Block.around_head]
  have hpages : ∀ q, q ∈ (m.putLast c.head c.order).freePages ↔
      q ∈ s.freePages ∨ q ∈ Block.around k p := by
    intro q
    rw [Buddy.freePages, hblocks, mem_cover_insert, or_comm]
    exact hcov q
  refine ⟨⟨?_, ?_, fun q hq => ?_, fun q hq => ?_⟩, hpages, htot, hsame.failed⟩
  · exact hc.links.putLast hc.order_lt c.dvd_head hc.in_range hc.head_not_listed
  · rw [hblocks]
    exact hc.coalesced.insert (by have := hc.order_lt; omega) hc.out hbuddy
  · have hq' : q < s.totalPages := by rw [← htot]; exact hq
    rw [putLast_cmxCntr, hsame.cmxCntr, setCtr_cmxCntr_around hd, hpages]
    by_cases hin : q ∈ Block.around k p
    · simp [hin]
    · simp [hin, h.free_iff q hq']
  · have hq' : q < s.totalPages := by rw [← htot]; exact hq
    rw [putLast_cmxCntr, hsame.cmxCntr, setCtr_cmxCntr_around hd]
    by_cases hin : q ∈ Block.around k p
    · rw [if_pos hin]
      exact Or.inl rfl
    · rw [if_neg hin]
      exact h.ctr_eq q hq'

/-! ### Runs -/

/-- A call of one of the two entry points. -/
inductive Call
  | rmqueueSmallest (order : ℕ)
  | freePage (pageNO order : ℕ)
  deriving DecidableEq, Repr

/-- The state a call leaves. -/
def call (s : Buddy) : Call → Buddy
  | .rmqueueSmallest order => (s.rmqueueSmallest order).2
  | .freePage p k => s.freePage p k

/-- The calls the allocator expects: an order it has, a block that may be freed. -/
def Legal (s : Buddy) : Call → Prop
  | .rmqueueSmallest order => order < maxOrder
  | .freePage p k => CanFree s p k

instance (s : Buddy) : (c : Call) → Decidable (Legal s c)
  | .rmqueueSmallest order => inferInstanceAs (Decidable (order < maxOrder))
  | .freePage p k => inferInstanceAs (Decidable (CanFree s p k))

/-- Every call of a list is legal in the state it finds. -/
def LegalCalls : Buddy → List Call → Prop
  | _, [] => True
  | s, c :: cs => Legal s c ∧ LegalCalls (s.call c) cs

instance instDecidableLegalCalls : (s : Buddy) → (cs : List Call) → Decidable (LegalCalls s cs)
  | _, [] => inferInstanceAs (Decidable True)
  | s, c :: cs =>
    have := instDecidableLegalCalls (s.call c) cs
    inferInstanceAs (Decidable (Legal s c ∧ LegalCalls (s.call c) cs))

/-- The allocator of a node with `totalPages` pages, driven by calls. -/
def machine (totalPages : ℕ) : Machine Buddy Call :=
  .ofPartial (initEmpty totalPages) fun s c => some (s.call c)

/-- A run of legal calls. -/
abbrev Reach (totalPages : ℕ) (s : Buddy) : Prop := Machine.Reach (machine totalPages) Legal s

theorem Inv.call {s : Buddy} (h : Inv s) {c : Call} (hc : Legal s c) :
    Inv (s.call c) ∧ (s.call c).totalPages = s.totalPages ∧ (s.call c).failed = s.failed := by
  cases c with
  | rmqueueSmallest order =>
    rcases h.rmqueueSmallest hc with ⟨heq, -⟩ | ⟨p, -, ha⟩
    · have hs : s.call (.rmqueueSmallest order) = s := by
        change (s.rmqueueSmallest order).2 = s
        rw [heq]
      rw [hs]
      exact ⟨h, rfl, rfl⟩
    · exact ⟨ha.inv, ha.totalPages, ha.failed⟩
  | freePage p k =>
    have hf := h.freePage hc
    exact ⟨hf.inv, hf.totalPages, hf.failed⟩

/-- **Every run of legal calls keeps the invariant, and no counter check fails.** -/
theorem reach_inv {n : ℕ} {s : Buddy} (h : Reach n s) :
    Inv s ∧ s.totalPages = n ∧ s.failed = [] := by
  refine h.invariant (I := fun s => Inv s ∧ s.totalPages = n ∧ s.failed = []) ?_ ?_
  · intro s h0
    rw [h0]
    exact ⟨inv_initEmpty n, rfl, rfl⟩
  · intro s c s' _ ⟨hinv, htot, hfail⟩ hok hstep
    obtain ⟨h1, h2, h3⟩ := hinv.call hok
    rw [← Option.some.inj hstep]
    exact ⟨h1, h2.trans htot, h3.trans hfail⟩

/-! ### The invariant spelled out -/

/-- A page of some listed block. -/
def InFreeBlock (s : Buddy) (p : ℕ) : Prop :=
  ∃ k, ∃ head ∈ (s.area k).freeList, head ≤ p ∧ p < head + 2 ^ k

/-- The buddy invariant in the source's own terms. -/
structure WellFormed (s : Buddy) : Prop where
  heads : ∀ k, ∀ p ∈ (s.area k).freeList,
    k < maxOrder ∧ 2 ^ k ∣ p ∧ p + 2 ^ k ≤ s.totalPages
  nodup : ∀ k, (s.area k).freeList.Nodup
  disjoint : ∀ k, ∀ p ∈ (s.area k).freeList, ∀ j, ∀ q ∈ (s.area j).freeList,
    (k, p) ≠ (j, q) → p + 2 ^ k ≤ q ∨ q + 2 ^ j ≤ p
  ctr_free : ∀ p < s.totalPages, ((s.page p).cmxCntr = 0 ↔ s.InFreeBlock p)
  ctr_used : ∀ p < s.totalPages, ((s.page p).cmxCntr = 1 ↔ ¬ s.InFreeBlock p)
  descriptor : ∀ p < s.totalPages, ∀ k,
    ((s.page p).mapcount = -128 ∧ (s.page p).priv = k ↔ p ∈ (s.area k).freeList)
  nrFree : ∀ k, (s.area k).nrFree = (s.area k).freeList.length
  merged : ∀ k < maxOrder - 1, ∀ p ∈ (s.area k).freeList,
    p ^^^ 1 <<< k ∉ (s.area k).freeList

theorem Links.inFreeBlock_iff {s : Buddy} (h : Links s) {p : ℕ} :
    s.InFreeBlock p ↔ p ∈ s.freePages := by
  constructor
  · rintro ⟨k, head, hmem, hle, hlt⟩
    obtain ⟨hd, hb⟩ := h.mem_list_iff.mp hmem
    exact ⟨_, hb, (mem_around_iff hd).mpr ⟨hle, hlt⟩⟩
  · rintro ⟨b, hb, hp⟩
    exact ⟨b.order, b.head, hb, Block.mem_iff_range.mp hp⟩

/-- Two listed blocks that overlap are one block. -/
theorem Inv.apart {s : Buddy} (h : Inv s) {j k p q : ℕ} (hp : p ∈ (s.area k).freeList)
    (hq : q ∈ (s.area j).freeList) (hne : (k, p) ≠ (j, q)) : p + 2 ^ k ≤ q ∨ q + 2 ^ j ≤ p := by
  obtain ⟨hdp, hbp⟩ := h.links.mem_list_iff.mp hp
  obtain ⟨hdq, hbq⟩ := h.links.mem_list_iff.mp hq
  by_contra hcross
  have hx : max p q ∈ Block.around k p ∧ max p q ∈ Block.around j q := by
    have := Nat.two_pow_pos k
    have := Nat.two_pow_pos j
    rw [mem_around_iff hdp, mem_around_iff hdq]
    omega
  have heq := h.coalesced.disjoint _ hbp _ hbq _ hx.1 hx.2
  have hk : k = j := congrArg Block.order heq
  have hhead := congrArg Block.head heq
  rw [Block.head_around hdp, Block.head_around hdq] at hhead
  exact hne (by rw [hk, hhead])

theorem Inv.wellFormed {s : Buddy} (h : Inv s) : WellFormed s where
  heads := h.links.aligned
  nodup := h.links.nodup
  disjoint := fun _ _ hp _ _ hq hne => h.apart hp hq hne
  ctr_free := fun p hp => by rw [h.links.inFreeBlock_iff, h.free_iff p hp]
  ctr_used := by
    intro p hp
    rw [h.links.inFreeBlock_iff, ← h.free_iff p hp]
    rcases h.ctr_eq p hp with h0 | h1
    · simp [h0]
    · simp [h1]
  descriptor := h.links.head_iff
  nrFree := h.links.count
  merged := by
    intro k hk p hp hbud
    obtain ⟨hd, hb⟩ := h.links.mem_list_iff.mp hp
    apply h.coalesced.merged _ hb hk
    rw [mem_freeBlocks, Block.head_buddy, Block.head_around hd]
    exact hbud

/-- **The buddy invariant**: after any legal calls the lists, descriptors and
counters describe one set of merged free blocks, and no counter check has failed. -/
theorem reach_wellFormed {n : ℕ} {s : Buddy} (h : Reach n s) :
    WellFormed s ∧ s.totalPages = n ∧ s.failed = [] :=
  ⟨(reach_inv h).1.wellFormed, (reach_inv h).2⟩

/-- A list of calls, each legal where it is made, ends in a reached state. -/
theorem reach_foldl {n : ℕ} : ∀ (cs : List Call) {s : Buddy}, Reach n s → LegalCalls s cs →
    Reach n (cs.foldl call s)
  | [], _, h, _ => h
  | _ :: cs, _, h, hc => reach_foldl cs (h.next hc.1 rfl) hc.2

/-- Two buddies freed one by one, and half of what they merge to allocated. -/
theorem reach_wellFormed_halves :
    let s := [Call.freePage 0 0, .freePage 1 0, .rmqueueSmallest 0].foldl call (initEmpty 5)
    Reach 5 s ∧ WellFormed s ∧ s.failed = [] :=
  have h := reach_foldl [.freePage 0 0, .freePage 1 0, .rmqueueSmallest 0]
    (.start (s := initEmpty 5) rfl) (by decide)
  ⟨h, (reach_wellFormed h).1, (reach_wellFormed h).2.2⟩

end Buddy
end Comex
