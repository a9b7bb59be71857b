import Comex.Cluster.Layout
import Comex.Remote.Contiguous

/-!
# Transfers against chunks

A node's RDMA space consists of 4 MiB chunks, and `do_write` and `do_read` refuse a
transfer that crosses from one into the next, on either side.  The kernel cuts a
`PAGE_WRTE` at the chunks of the memory node and gives a `PAGE_READ` a group of 16
pages; where its own slots lie in its own chunks it does not look at.

## Main definitions

* `PageWrte.Accepted` — the test of `do_write` and `do_read`.
* `pageRead` — the `PAGE_READ` of `COMEX_read_from_remote`.
* `NoBoundary` — no chunk begins inside an area of the space.
* `Agrees` — no transfer is refused.

## Main results

* `accepted_iff` — the test, in pages.
* `Traffic.exists_filled` — a run that fills a ring with the pages it is lent.
* `refusals_iff` — **which configurations have no refused transfer.**
-/

namespace Comex

open Layout (bufSize pageSize)

/-! ### The test -/

/-- `(unsigned long)page << SHIFT_PAGE`. -/
def bytes (page : ℤ) : ℕ := (page * pageSize % 2 ^ 64).toNat

/-- `remote_shift_offset` as `COMEX_init` computes it.  An `int` product that overflows
is taken to wrap; the shifts clear what the test looks at in any case. -/
def remoteShiftOffset (cfg : Config) : ℕ :=
  let offset := ((toInt (cfg.totalWriteOut * cfg.totalNodes) + cfg.totalReadIn) % 2 ^ 64).toNat
  let offset := offset >>> 10
  let offset := Layout.u64 (offset + 1)
  let offset := Layout.u64 (offset <<< 10)
  Layout.u64 (offset <<< 12)

/-- `do_write` and `do_read` print `BUFFER MISALIGNMENT FOUND`. -/
def misaligned (localOffset remoteOffset size : ℕ) : Prop :=
  localOffset % bufSize + size > bufSize ∨ remoteOffset % bufSize + size > bufSize

instance (localOffset remoteOffset size : ℕ) :
    Decidable (misaligned localOffset remoteOffset size) := inferInstanceAs (Decidable (_ ∨ _))

/-- `COMEX_RDMA_fn` passes the transfer on, and it is not refused. -/
def PageWrte.Accepted (cfg : Config) (m : PageWrte) : Prop :=
  ¬ misaligned (bytes m.localPage) (Layout.u64 (bytes m.remotePage + remoteShiftOffset cfg))
    (m.size <<< 12)

instance (cfg : Config) (m : PageWrte) : Decidable (m.Accepted cfg) :=
  inferInstanceAs (Decidable (¬ _))

theorem remoteShiftOffset_mod (cfg : Config) : remoteShiftOffset cfg % bufSize = 0 := by
  unfold remoteShiftOffset
  simp only [Layout.u64, Nat.shiftLeft_eq, bufSize]
  omega

/-- **The test in pages**: the transfer ends in the chunks it starts in. -/
theorem accepted_iff (cfg : Config) (m : PageWrte) : m.Accepted cfg ↔
    m.localPage % 1024 + m.size ≤ 1024 ∧ m.remotePage % 1024 + m.size ≤ 1024 := by
  have hshift := remoteShiftOffset_mod cfg
  unfold PageWrte.Accepted misaligned bytes
  generalize remoteShiftOffset cfg = shift at *
  simp only [Layout.u64, Nat.shiftLeft_eq, bufSize, pageSize] at *
  omega

/-! ### Reads -/

/-- The `PAGE_READ` of `COMEX_read_from_remote`. -/
def pageRead (cfg : Config) (pageNO : ℤ) : PageWrte where
  localPage := getReadInBuff cfg (preFFloor (pageNO.tmod cfg.totalReadIn))
  remotePage := preFFloor pageNO
  size := preFSize
  bufIDX := preFFloor (pageNO.tmod cfg.totalReadIn)

/-- It is what the read transfers. -/
theorem readFromRemote_space {α : Type} (cfg : Config) (s : Node α) (n p : ℤ) :
    (s.readFromRemote cfg n p).2.space = fun k =>
      if (pageRead cfg p).localPage ≤ k ∧
          k < (pageRead cfg p).localPage + (pageRead cfg p).size then
        s.remote n ((pageRead cfg p).remotePage + (k - (pageRead cfg p).localPage))
      else s.space k := rfl

/-- No chunk begins behind the first page of an area and before its end. -/
def NoBoundary (first size : ℤ) : Prop := ∀ k : ℤ, ¬ (first < 1024 * k ∧ 1024 * k < first + size)

/-- Areas without a boundary are those in which every transfer is accepted. -/
theorem NoBoundary.inside {first size b count : ℤ} (h : NoBoundary first size) (hb : 0 ≤ b)
    (hend : b + count ≤ size) : (first + b) % 1024 + count ≤ 1024 := by
  by_contra hcross
  exact h ((first + b) / 1024 + 1) (by omega)

/-- Without a boundary an area is at most a chunk. -/
theorem NoBoundary.size_le {first size : ℤ} (h : NoBoundary first size) : size ≤ 1024 := by
  by_contra hlarge
  exact h (first / 1024 + 1) (by omega)

/-- **Which reads are accepted**: all of them when the groups of the cache are groups of
the space as well, or when no chunk begins in the cache. -/
theorem pageRead_accepted_iff {cfg : Config} (hR : 0 < cfg.totalReadIn)
    (h16 : preFSize ∣ cfg.totalReadIn) :
    (∀ p, 0 ≤ p → (pageRead cfg p).Accepted cfg) ↔
      (preFSize : ℤ) ∣ cfg.totalWriteOut * cfg.totalNodes ∨
        NoBoundary (cfg.totalWriteOut * cfg.totalNodes) cfg.totalReadIn := by
  have hsize : preFSize = 16 := rfl
  obtain ⟨m, hm⟩ := h16
  rw [hsize] at hm
  simp only [accepted_iff, pageRead, getReadInBuff, preFFloor, hsize]
  generalize (cfg.totalWriteOut : ℤ) * cfg.totalNodes = base
  constructor
  · intro h
    by_contra hnot
    rw [not_or] at hnot
    obtain ⟨hdvd, hbound⟩ := hnot
    unfold NoBoundary at hbound
    push Not at hbound
    obtain ⟨k, h1, h2⟩ := hbound
    -- the page whose slot is in the group that the boundary cuts
    have h0 : 0 ≤ 1024 * k - base := by omega
    have hlt : 1024 * k - base < cfg.totalReadIn := by omega
    have hpage := (h (1024 * k - base) h0).1
    rw [Int.tmod_eq_emod_of_nonneg h0, Int.emod_eq_of_lt h0 hlt] at hpage
    omega
  · intro h p hp
    have hr0 := Int.emod_nonneg p (b := cfg.totalReadIn) (by omega)
    have hr := Int.emod_lt_of_pos p (b := cfg.totalReadIn) (by omega)
    rw [Int.tmod_eq_emod_of_nonneg hp]
    generalize p % (cfg.totalReadIn : ℤ) = r at *
    refine ⟨?_, by omega⟩
    rcases h with hdvd | hbound
    · omega
    · exact hbound.inside (by omega) (by omega)

/-! ### Writes -/

namespace WriteOut

variable {total k : ℕ} {desc : ℤ → BuffDesc} {head : ℤ}

theorem count_le_flushRun (n : ℕ) : ∀ (count : ℕ) (desc : ℤ → BuffDesc),
    count ≤ (flushRun total head n count desc).1 := by
  induction n with
  | zero => exact fun _ _ => le_rfl
  | succ n ih =>
    intro count desc
    rw [flushRun]
    simp only
    split
    · split
      · exact Nat.le_succ count
      · split
        · exact Nat.le_succ count
        · exact Nat.le_trans (Nat.le_succ count) (ih _ _)
    · exact le_rfl

/-- The loop takes a run that is there as far as it goes. -/
theorem IsRun.le_flushRun (hrun : IsRun total desc head k) (n : ℕ) : ∀ count : ℕ,
    head + count + n = total → count ≤ k →
      k ≤ (flushRun total head n count (markFlushing desc head count)).1 := by
  have hend := hrun.in_range
  induction n with
  | zero =>
    intro count hn _
    change k ≤ count
    omega
  | succ n ih =>
    intro count hn hcount
    rcases Nat.lt_or_eq_of_le hcount with hlt | rfl
    swap
    · exact count_le_flushRun _ _ _
    rw [flushRun_filled n (hrun.filled count hlt)]
    split
    · next hstop =>
      -- the loop only stops here at the end of the run
      change k ≤ count + 1
      by_contra hshort
      rcases hstop with hlast | ⟨-, hnot⟩
      · omega
      · exact hnot (hrun.follows count (by omega))
    · exact ih (count + 1) (by omega) hlt

/-- **A flush takes at least the run that waits at the head.** -/
theorem IsRun.flushBegin {w : WriteOut} (hrun : IsRun total w.desc w.head k) (hk : 0 < k)
    (nodeID : ℤ) : ∃ count : ℕ, k ≤ count ∧ IsRun total w.desc w.head count ∧
      w.flushBegin total nodeID =
        (some { localPage := getWriteOutBuff total nodeID w.head
                remotePage := (w.desc w.head).pageNO
                size := count
                bufIDX := w.head },
          { w with
            desc := markFlushing w.desc w.head count
            head := advance total w.head count }) := by
  have hend := hrun.in_range
  have hge := hrun.le_flushRun (total - w.head).toNat 0 (by omega) (Nat.zero_le k)
  rw [markFlushing_zero] at hge
  rcases flushBegin_spec total w nodeID with hnone | ⟨count, -, hcount, heq⟩
  · unfold WriteOut.flushBegin at hnone
    rw [if_neg (by omega)] at hnone
    exact absurd (congrArg Prod.fst hnone) (by simp)
  · refine ⟨count, ?_, hcount, heq⟩
    unfold WriteOut.flushBegin at heq
    rw [if_neg (by omega)] at heq
    have hsize := congrArg PageWrte.size (Option.some.inj (congrArg Prod.fst heq))
    simp only at hsize
    omega

end WriteOut

namespace Traffic

variable {cfg : Config} {s : Traffic} {n : ℤ}

/-- Slots 0 to `i` of ring `n` wait for a flush with the first of the pages `page`, of
which the node has been lent `len`. -/
structure Filled (cfg : Config) (n : ℤ) (page : ℕ → ℤ) (len i : ℕ) (s : Traffic) : Prop where
  desc : ∀ j : ℤ, (s.fifo n).ring.desc j =
    if 0 ≤ j ∧ j < i then ⟨.filled, n, page j.toNat⟩ else .empty
  head : (s.fifo n).ring.head = 0
  tail : i < cfg.totalWriteOut → (s.fifo n).ring.tail = i
  copying : (s.fifo n).copying = []
  idle : (s.fifo n).inflight = none
  ok : (s.group n).Ok
  lent : ∀ j, i + j < len → (s.group n).pages[j]? = some (page (i + j))

theorem Reach.step {ok : Traffic → Step → Prop} (h : Reach cfg ok s) {a : Step} (hok : ok s a)
    {t : Traffic} (ht : s.step cfg a = some t) : Reach cfg ok t := h.next hok ht

/-- A block is received by a node whose ring is unused. -/
theorem exists_lent (h : Reach cfg Machine.free s) (hring : s.fifo n = .init)
    (hok : (s.group n).Ok) {p : ℤ} (hp : 0 ≤ p) (k : ℕ) :
    ∃ s', Reach cfg Machine.free s' ∧ s'.fifo n = .init ∧ (s'.group n).Ok ∧
      (s'.group n).pages = (s.group n).pages ++ Ledger.span p (2 ^ k) := by
  obtain ⟨hok', hpages⟩ := hok.pageReceive cfg.refill p k
  rw [if_pos hp] at hpages
  refine ⟨_, h.next (a := .pageReceive n p k) trivial rfl, hring, ?_, ?_⟩
  · simpa using hok'
  · simpa using hpages

/-- The list of the node hands out the next page. -/
theorem Filled.getpage {page : ℕ → ℤ} {len i : ℕ} (hs : Filled cfg n page len i s)
    (hlen : i < len) :
    0 < (s.group n).totalPage ∧ ∃ g, (s.group n).freelistGetpage = some (page i, g) ∧ g.Ok ∧
      (s.group n).pages = page i :: g.pages := by
  have hfirst := hs.lent 0 (by omega)
  rw [Nat.add_zero] at hfirst
  have hpos : 0 < (s.group n).totalPage := by
    rw [hs.ok.total]
    have := (List.getElem?_eq_some_iff.mp hfirst).1
    omega
  obtain ⟨⟨p, g⟩, hget⟩ := Option.isSome_iff_exists.mp (hs.ok.getpage_isSome hpos)
  obtain ⟨hok, hpages⟩ := hs.ok.freelistGetpage hget
  obtain rfl : p = page i := by
    rw [hpages, List.getElem?_cons_zero] at hfirst
    exact Option.some.inj hfirst
  exact ⟨hpos, g, hget, hok, hpages⟩

/-- One page is swapped out to the next slot. -/
theorem Filled.store {page : ℕ → ℤ} {len i : ℕ} (hs : Filled cfg n page len i s)
    (h : Reach cfg Machine.free s) (hi : i < cfg.totalWriteOut) (hlen : i < len)
    (hshort : i < 32767) :
    ∃ s', Reach cfg Machine.free s' ∧ Filled cfg n page len (i + 1) s' := by
  have htail := hs.tail hi
  obtain ⟨hpos, g, hget, hok', hpages⟩ := hs.getpage hlen
  have hfree : ((s.fifo n).ring.desc (s.fifo n).ring.tail).status = .free := by
    rw [htail, hs.desc, if_neg (by omega)]
    rfl
  -- the slot is reserved
  have hreserve : s.step cfg (.reserve n) = some
      { s.setFifo n { s.fifo n with
          ring := (s.fifo n).ring.reserve cfg.totalWriteOut
          copying := ((s.fifo n).ring.tail, page i) :: (s.fifo n).copying
          reserved := (s.fifo n).reserved ++ [((s.fifo n).ring.tail, page i)] } with
        group := Function.update s.group n g
        trace := s.trace ++ [.handed n (page i)] } := by
    simp only [Traffic.step, if_pos hpos, hget, Option.bind_some, Fifo.reserve, if_pos hfree,
      Option.map_some]
  have h₁ := h.step trivial hreserve
  -- and filled
  have hfill : ∀ t : Traffic, ((i : ℤ), page i) ∈ (t.fifo n).copying →
      t.step cfg (.fill n i (page i)) = some
        { t.setFifo n { t.fifo n with
            ring := (t.fifo n).ring.fill i n (page i)
            copying := (t.fifo n).copying.erase (i, page i) } with
          swapped := Function.update t.swapped n (page i :: t.swapped n) } := by
    intro t hmem
    simp only [Traffic.step, Fifo.fill, if_pos hmem, Option.map_some]
  have h₂ := h₁.step trivial (hfill _ (by simp [Traffic.setFifo, htail]))
  refine ⟨_, h₂, ?_⟩
  have hadv : i + 1 < cfg.totalWriteOut →
      WriteOut.advance cfg.totalWriteOut i 1 = (i + 1 : ℕ) := by
    intro hlt
    rw [WriteOut.advance_of_lt (by omega) (by omega) (by omega)]
    rfl
  constructor
  · intro j
    simp only [Traffic.setFifo, Function.update_self, WriteOut.fill, WriteOut.reserve, htail,
      Function.update_apply, hs.desc]
    by_cases hj : j = i
    · subst hj
      rw [if_pos rfl, if_pos (by omega), Int.toNat_natCast]
    · rw [if_neg hj, if_neg hj]
      by_cases hin : 0 ≤ j ∧ j < i
      · rw [if_pos hin, if_pos (by omega)]
      · rw [if_neg hin, if_neg (by omega)]
  · simpa [Traffic.setFifo, WriteOut.fill, WriteOut.reserve] using hs.head
  · intro hlt
    simpa [Traffic.setFifo, WriteOut.fill, WriteOut.reserve, htail] using hadv hlt
  · simp [Traffic.setFifo, htail, hs.copying]
  · simpa [Traffic.setFifo] using hs.idle
  · simpa [Traffic.setFifo] using hok'
  · intro j hj
    have hnext := hs.lent (j + 1) (by omega)
    rw [hpages, List.getElem?_cons_succ] at hnext
    simp only [Traffic.setFifo, Function.update_self, hnext]
    congr 2
    omega

/-- **A ring can be filled with the pages that were lent.** -/
theorem exists_filled {page : ℕ → ℤ} {len : ℕ} (h : Reach cfg Machine.free s)
    (hring : s.fifo n = .init) (hok : (s.group n).Ok)
    (hlent : ∀ j < len, (s.group n).pages[j]? = some (page j)) :
    ∀ i, i ≤ cfg.totalWriteOut → i ≤ len → i ≤ 32767 →
      ∃ s', Reach cfg Machine.free s' ∧ Filled cfg n page len i s' := by
  intro i
  induction i with
  | zero =>
    intro _ _ _
    refine ⟨s, h, fun j => ?_, ?_, fun _ => ?_, ?_, ?_, hok, fun j hj => ?_⟩
    · rw [hring, if_neg (by omega)]
      rfl
    all_goals first
      | rw [hring]; rfl
      | rw [Nat.zero_add]; exact hlent j (by omega)
  | succ i ih =>
    intro hW hlen hshort
    obtain ⟨t, ht, hfilled⟩ := ih (by omega) (by omega) (by omega)
    exact hfilled.store ht (by omega) (by omega) (by omega)

/-- The run that waits at the head of a ring is sent. -/
theorem exists_flush (h : Reach cfg Machine.free s) (hidle : (s.fifo n).inflight = none) {k : ℕ}
    (hrun : WriteOut.IsRun cfg.totalWriteOut (s.fifo n).ring.desc (s.fifo n).ring.head k)
    (hk : 0 < k) : ∃ (s' : Traffic) (count : ℕ), Reach cfg Machine.free s' ∧ k ≤ count ∧
      WriteOut.IsRun cfg.totalWriteOut (s.fifo n).ring.desc (s.fifo n).ring.head count ∧
      s'.fifo n = (s.fifo n).afterFlush cfg.totalWriteOut n count := by
  obtain ⟨count, hle, hcount, heq⟩ := hrun.flushBegin hk n
  have hstep : s.step cfg (.flushBegin n) = some
      { s.setFifo n ((s.fifo n).afterFlush cfg.totalWriteOut n count) with
        trace := s.trace ++
          [.wrote n ((s.fifo n).ring.desc (s.fifo n).ring.head).pageNO count] } := by
    simp only [Traffic.step, Fifo.flushBegin, if_pos hidle, heq, Option.map_some]
    rfl
  exact ⟨_, count, h.step trivial hstep, hle, hcount, by simp [Traffic.setFifo]⟩

/-- Filled slots with pages that follow one another make a run. -/
theorem Filled.isRun {page : ℕ → ℤ} {len i : ℕ} (hs : Filled cfg n page len i s) {a k : ℕ}
    (hak : a + k ≤ i) (hi : i ≤ cfg.totalWriteOut)
    (hfollows : ∀ j, a ≤ j → j + 1 < a + k → WriteOut.Follows (page j) (page (j + 1))) :
    WriteOut.IsRun cfg.totalWriteOut (s.fifo n).ring.desc a k := by
  have hdesc : ∀ j : ℕ, j < k →
      (s.fifo n).ring.desc ((a : ℤ) + j) = ⟨.filled, n, page (a + j)⟩ := by
    intro j hj
    rw [hs.desc, if_pos (by omega)]
    congr 2
  refine ⟨fun j hj => by rw [hdesc j hj], fun j hj => ?_, by omega⟩
  have hcast : (a : ℤ) + j + 1 = (a : ℤ) + (j + 1 : ℕ) := by omega
  rw [hcast, hdesc j (by omega), hdesc (j + 1) hj]
  exact hfollows (a + j) (by omega) (by omega)

/-- A boundary behind the first page of a ring that starts inside a chunk: one block fills
the slots on both sides of it. -/
theorem exists_refused_inside (hstart : n * cfg.totalWriteOut % 1024 ≠ 0)
    (hcross : 1024 < n * cfg.totalWriteOut % 1024 + cfg.totalWriteOut) :
    ∃ s m, Reach cfg Machine.free s ∧ (s.fifo n).inflight = some m ∧ ¬ m.Accepted cfg := by
  have h₀ : Reach cfg Machine.free init := .start rfl
  have hring₀ : init.fifo n = .init := rfl
  obtain ⟨s₁, h₁, hring, hok, hpages⟩ := exists_lent h₀ hring₀ FreeGroup.Ok.init (Int.le_refl 0) 10
  have hlent : ∀ j < 1024, (s₁.group n).pages[j]? = some ((j : ℕ) : ℤ) := by
    intro j hj
    rw [hpages]
    simp [init, FreeGroup.init, FreeGroup.pages, Ledger.span, hj]
  obtain ⟨s₂, h₂, hfilled⟩ := exists_filled h₁ hring hok hlent
    (min cfg.totalWriteOut 1024) (by omega) (by omega) (by omega)
  have hrun : WriteOut.IsRun cfg.totalWriteOut (s₂.fifo n).ring.desc (s₂.fifo n).ring.head
      (min cfg.totalWriteOut 1024) := by
    rw [hfilled.head]
    apply hfilled.isRun (a := 0) (by omega) (by omega)
    intro j _ hj
    rw [WriteOut.follows_iff (by omega) (by omega)]
    omega
  obtain ⟨s₃, count, h₃, hle, -, hfifo⟩ := exists_flush h₂ hfilled.idle hrun (by omega)
  refine ⟨s₃, _, h₃, by rw [hfifo]; rfl, fun hacc => ?_⟩
  have hlocal := ((accepted_iff cfg _).mp hacc).1
  simp only [Fifo.wrte, getWriteOutBuff, hfilled.head] at hlocal
  omega

/-- A run that ends before the ring does is sent and freed: the slots after it come next. -/
theorem Filled.exists_flushed {page : ℕ → ℤ} {len i k : ℕ} (hs : Filled cfg n page len i s)
    (h : Reach cfg Machine.free s) (hk : 0 < k) (hshort : k ≤ 32767)
    (hlt : k < cfg.totalWriteOut)
    (hrun : WriteOut.IsRun cfg.totalWriteOut (s.fifo n).ring.desc (s.fifo n).ring.head k)
    (hmax : ∀ count, WriteOut.IsRun cfg.totalWriteOut (s.fifo n).ring.desc (s.fifo n).ring.head
      count → count ≤ k) :
    ∃ s', Reach cfg Machine.free s' ∧ (s'.fifo n).ring.head = k ∧ (s'.fifo n).inflight = none ∧
      ∀ j : ℤ, k ≤ j → (s'.fifo n).ring.desc j = (s.fifo n).ring.desc j := by
  obtain ⟨t, count, ht, hle, hcount, hfifo⟩ := exists_flush h hs.idle hrun hk
  obtain rfl : count = k := Nat.le_antisymm (hmax count hcount) hle
  have hstep : t.step cfg (.flushEnd n) = some (t.setFifo n
      { t.fifo n with
        ring := (t.fifo n).ring.freeBuff (s.fifo n).ring.head count
        inflight := none
        done := (t.fifo n).done + count }) := by
    simp only [Traffic.step, Fifo.flushEnd, hfifo]
    rfl
  refine ⟨_, ht.step trivial hstep, ?_, ?_, fun j hj => ?_⟩
  · simp only [Traffic.setFifo, Function.update_self, WriteOut.freeBuff_head, hfifo,
      Fifo.afterFlush, hs.head]
    rw [WriteOut.advance_of_lt (Int.le_refl 0) (by omega) (by omega), Int.zero_add]
  · simp only [Traffic.setFifo, Function.update_self]
  · simp only [Traffic.setFifo, Function.update_self, WriteOut.freeBuff_desc, hfifo,
      Fifo.afterFlush, hs.head]
    rw [if_neg (by omega), WriteOut.markFlushing_of_lt _ (by omega)]

/-- The page in slot `j` when a block of 32 pages is followed by one of 1024. -/
def afterSmall (j : ℕ) : ℤ := if j < 32 then j else 992 + j

/-- The pages of one block follow one another. -/
theorem afterSmall_follows {j : ℕ} (hj : j + 1 < 32 ∨ 32 ≤ j ∧ j + 1 < 1056) :
    WriteOut.Follows (afterSmall j) (afterSmall (j + 1)) := by
  unfold afterSmall
  rcases hj with hj | ⟨hj, hj'⟩
  · rw [if_pos (by omega), if_pos hj, WriteOut.follows_iff (by omega) (by omega)]
    omega
  · rw [if_neg (by omega), if_neg (by omega), WriteOut.follows_iff (by omega) (by omega)]
    omega

/-- A node is lent a block of 32 pages and one of 1024. -/
theorem exists_lent_small (cfg : Config) (n : ℤ) : ∃ s, Reach cfg Machine.free s ∧
    s.fifo n = .init ∧ (s.group n).Ok ∧
    ∀ j < 1056, (s.group n).pages[j]? = some (afterSmall j) := by
  have h : Reach cfg Machine.free init := .start rfl
  obtain ⟨s₀, h₀, hring₀, hok₀, hpages₀⟩ :=
    exists_lent (n := n) h rfl FreeGroup.Ok.init (Int.le_refl 0) 5
  obtain ⟨s, hs, hring, hok, hpages⟩ := exists_lent h₀ hring₀ hok₀ (p := 1024) (by decide) 10
  refine ⟨s, hs, hring, hok, fun j hj => ?_⟩
  have hinit : (init.group n).pages = [] := rfl
  rw [hpages, hpages₀, hinit, List.nil_append]
  unfold afterSmall
  by_cases hsmall : j < 32
  · rw [if_pos hsmall, List.getElem?_append_left (by simp [Ledger.span]; omega)]
    simp [Ledger.span, hsmall]
  · rw [if_neg hsmall, List.getElem?_append_right (by simp [Ledger.span]; omega)]
    simp only [Ledger.span, List.length_map, List.length_range, List.getElem?_map]
    rw [List.getElem?_range (by omega)]
    simp only [Option.map_some, Option.some.injEq]
    omega

/-- A boundary inside a ring that starts with a chunk: a small block comes first, so that
the run of the large one starts inside the chunk. -/
theorem exists_refused_aligned (hstart : n * cfg.totalWriteOut % 1024 = 0)
    (hlarge : 1024 < cfg.totalWriteOut) :
    ∃ s m, Reach cfg Machine.free s ∧ (s.fifo n).inflight = some m ∧ ¬ m.Accepted cfg := by
  obtain ⟨s₁, h₁, hring, hok, hlent⟩ := exists_lent_small cfg n
  obtain ⟨s₂, h₂, hfilled⟩ := exists_filled h₁ hring hok hlent (min cfg.totalWriteOut 1056)
    (by omega) (by omega) (by omega)
  -- the first run ends with the small block
  have hrun : WriteOut.IsRun cfg.totalWriteOut (s₂.fifo n).ring.desc (s₂.fifo n).ring.head 32 := by
    rw [hfilled.head]
    exact hfilled.isRun (a := 0) (by omega) (by omega) fun j _ hj => afterSmall_follows (by omega)
  obtain ⟨s₃, h₃, hhead, hidle, hdesc⟩ := hfilled.exists_flushed h₂ (by decide) (by decide)
    (by omega) hrun fun count hcount => by
      by_contra hne
      have hlast := hcount.follows 31 (by omega)
      rw [hfilled.head, hfilled.desc, hfilled.desc, if_pos (by omega), if_pos (by omega)] at hlast
      revert hlast
      change ¬ WriteOut.Follows (afterSmall 31) (afterSmall 32)
      decide
  -- the second run starts at slot 32 and takes the slots on both sides of the boundary
  have hrun' : WriteOut.IsRun cfg.totalWriteOut (s₃.fifo n).ring.desc (s₃.fifo n).ring.head
      (min cfg.totalWriteOut 1056 - 32) := by
    have hbase := hfilled.isRun (a := 32) (k := min cfg.totalWriteOut 1056 - 32) (by omega)
      (by omega) fun j h1 h2 => afterSmall_follows (by omega)
    rw [hhead]
    refine ⟨fun j hj => ?_, fun j hj => ?_, hbase.in_range⟩
    · rw [hdesc _ (by omega)]
      exact hbase.filled j hj
    · rw [hdesc _ (by omega), hdesc _ (by omega)]
      exact hbase.follows j hj
  obtain ⟨s₄, count, h₄, hle, -, hfifo⟩ := exists_flush h₃ hidle hrun' (by omega)
  refine ⟨s₄, _, h₄, by rw [hfifo]; rfl, fun hacc => ?_⟩
  have hlocal := ((accepted_iff cfg _).mp hacc).1
  simp only [Fifo.wrte, getWriteOutBuff, hhead] at hlocal
  omega

/-- An empty array of slots is never flushed. -/
theorem reach_idle (hzero : cfg.totalWriteOut = 0) (h : Reach cfg Machine.free s) (n : ℤ) :
    (s.fifo n).inflight = none := by
  refine ((reach_fifo_invariant (I := fun _ f => f.ring.head = 0 ∧ f.inflight = none) h
    (fun _ => ⟨rfl, rfl⟩) ?_ ?_ ?_ ?_).2 n).2
  · intro s n p g f _ _ _ hI hf
    obtain ⟨-, rfl⟩ := Fifo.reserve_eq hf
    exact hI
  · intro n r slot p f hI hf
    obtain ⟨-, rfl⟩ := Fifo.fill_eq hf
    exact hI
  · intro n r f hI hf
    have hnone : r.ring.flushBegin cfg.totalWriteOut n = (none, r.ring) := by
      have hring : r.ring = ⟨r.ring.desc, 0, r.ring.tail⟩ := by rw [← hI.1]
      rw [hzero, hring]
      rfl
    unfold Fifo.flushBegin at hf
    rw [if_pos hI.2, hnone] at hf
    obtain rfl := Option.some.inj hf
    exact hI
  · intro n r f hI hf
    unfold Fifo.flushEnd at hf
    rw [hI.2] at hf
    exact absurd hf (by simp)

/-- **Which writes are accepted**: all those of a ring exactly when no chunk begins in it. -/
theorem wrte_accepted_iff (cfg : Config) (n : ℤ) :
    (∀ s, Reach cfg Machine.free s → ∀ m, (s.fifo n).inflight = some m → m.Accepted cfg) ↔
      NoBoundary (n * cfg.totalWriteOut) cfg.totalWriteOut := by
  constructor
  · intro h k ⟨h1, h2⟩
    by_cases hstart : n * cfg.totalWriteOut % 1024 = 0
    · obtain ⟨s, m, hs, hm, hno⟩ := exists_refused_aligned hstart (by omega)
      exact hno (h s hs m hm)
    · obtain ⟨s, m, hs, hm, hno⟩ := exists_refused_inside hstart (by omega)
      exact hno (h s hs m hm)
  · intro h s hs m hm
    rcases Nat.eq_zero_or_pos cfg.totalWriteOut with hzero | hpos
    · rw [reach_idle hzero hs n] at hm
      exact absurd hm (by simp)
    have hsize := h.size_le
    have hc := (reach_lined hpos (by omega) hs n).carries m hm
    rw [accepted_iff, hc.local_eq, getWriteOutBuff]
    exact ⟨h.inside hc.slot.1 hc.slot.2, hc.inside⟩

end Traffic

/-- No transfer of a node is refused.  `COMEX_move_to_Remote` uses the rings of the memory nodes
only, and where there is none no page is read back. -/
structure Agrees (cfg : Config) : Prop where
  write : ∀ s, Traffic.Reach cfg Machine.free s → ∀ n : ℤ, 0 ≤ n → n < cfg.nMemNodes →
    ∀ m, (s.fifo n).inflight = some m → m.Accepted cfg
  read : 0 < cfg.nMemNodes → ∀ p, 0 ≤ p → (pageRead cfg p).Accepted cfg

/-- **When the kernel and the RDMA module agree**: no chunk begins inside the ring of a memory
node, and the read-in cache has no chunk beginning in it or consists of groups of the space.
Ring by ring, the transfers of one are accepted exactly when no chunk begins inside it. -/
theorem refusals_iff {cfg : Config} (hR : 0 < cfg.totalReadIn) (h16 : preFSize ∣ cfg.totalReadIn) :
    (Agrees cfg ↔
      (∀ n : ℤ, 0 ≤ n → n < cfg.nMemNodes →
        NoBoundary (n * cfg.totalWriteOut) cfg.totalWriteOut) ∧
      (0 < cfg.nMemNodes → (preFSize : ℤ) ∣ cfg.totalWriteOut * cfg.totalNodes ∨
        NoBoundary (cfg.totalWriteOut * cfg.totalNodes) cfg.totalReadIn)) ∧
    ∀ n : ℤ, (∀ s, Traffic.Reach cfg Machine.free s → ∀ m, (s.fifo n).inflight = some m →
        m.Accepted cfg) ↔ NoBoundary (n * cfg.totalWriteOut) cfg.totalWriteOut := by
  refine ⟨?_, Traffic.wrte_accepted_iff cfg⟩
  rw [← pageRead_accepted_iff hR h16]
  constructor
  · intro h
    exact ⟨fun n h0 hn => (Traffic.wrte_accepted_iff cfg n).mp fun s hs => h.write s hs n h0 hn,
      h.read⟩
  · rintro ⟨hw, hr⟩
    exact ⟨fun s hs n h0 hn => (Traffic.wrte_accepted_iff cfg n).mpr (hw n h0 hn) s hs, hr⟩

/-- The theorem at a ring of two slots and a cache of one group. -/
theorem refusals_iff_small : Agrees smallConfig ↔
    (∀ n : ℤ, 0 ≤ n → n < smallConfig.nMemNodes →
      NoBoundary (n * smallConfig.totalWriteOut) smallConfig.totalWriteOut) ∧
    (0 < smallConfig.nMemNodes →
      (preFSize : ℤ) ∣ smallConfig.totalWriteOut * smallConfig.totalNodes ∨
      NoBoundary (smallConfig.totalWriteOut * smallConfig.totalNodes) smallConfig.totalReadIn) :=
  (@refusals_iff smallConfig (by decide) (by decide)).1

/-- Fifteen nodes with rings of 200 slots: a chunk begins in that of node 5. -/
def fifteenNodes : Config :=
  { smallConfig with totalNodes := 15, nMemNodes := 6, totalWriteOut := 200 }

/-- 33 pages of one block are swapped out to node 5, and the flush after slot 32 is refused. -/
theorem not_agrees : ¬ ∀ cfg : Config, 0 < cfg.totalReadIn → preFSize ∣ cfg.totalReadIn →
    Agrees cfg := by
  intro hall
  obtain ⟨s, hs, hsent⟩ := Machine.exists_reach_of_exec Traffic.init Machine.free
    (Traffic.step fifteenNodes) (fun s => (s.fifo 5).inflight = some ⟨1000, 0, 33, 0⟩)
    (.pageReceive 5 0 10 :: (List.range 33).flatMap (fun i => [.reserve 5, .fill 5 i i]) ++
      [.flushBegin 5]) (by decide +kernel)
  have hacc := (hall fifteenNodes (by decide) (by decide)).write s hs 5 (by decide) (by decide) _
    hsent
  rw [accepted_iff] at hacc
  exact absurd hacc.1 (by decide)

end Comex
