import Comex.Remote.Coherence
import Comex.Remote.Contiguous

/-!
# Reading a page that is being flushed

A flush marks its slots, then the RDMA write takes effect at the memory node, then
`COMEX_free_buff` frees them.  Meanwhile pages are swapped in, by a look-up of the
ring that takes no lock.  It sees the filled slots only: a page whose slot is marked
is missed until the write has taken effect, and the reader goes on to the memory node.

## Main definitions

* `Fifo.Waits` — a slot was filled, and its write has not taken effect.
* `Memory`, `step` — the traffic of a node with the contents of the pages.
* `Readable` — what was swapped out can be read from the ring until it is written.

## Main results

* `reach_readable` — **a slot whose write has not taken effect is read if and only if
  it is not marked**, and swap-ins that come at such a time yield its content.
* `not_readable` — a swap-in during the flush yields the old content of the page.
-/

namespace Comex

namespace Fifo

/-- Reservation `x` is the `b`-th one or a later one, and has been filled. -/
def Waits (b : ℕ) (s : Fifo) (x : ℤ × ℤ) : Prop :=
  (∃ j, b ≤ j ∧ s.reserved[j]? = some x) ∧ (s.ring.desc x.1).status ≠ .reserved

/-- From the `b`-th one on, the reservations are for different pages. -/
def Distinct (b : ℕ) (s : Fifo) : Prop := ((s.reserved.drop b).map Prod.snd).Nodup

section Waits

variable {total b b' : ℕ} {nodeID : ℤ} {s s' : Fifo} {x : ℤ × ℤ}

theorem Distinct.mono (h : Distinct b s) (hb : b ≤ b') : Distinct b' s :=
  List.Nodup.sublist ((List.drop_sublist_drop_left _ hb).map _) h

theorem Distinct.unique (h : Distinct b s) {i j : ℕ} {x y : ℤ × ℤ} (hi : b ≤ i) (hj : b ≤ j)
    (hx : s.reserved[i]? = some x) (hy : s.reserved[j]? = some y) (hxy : x.2 = y.2) : x = y := by
  have hat : ∀ {k : ℕ} {z : ℤ × ℤ}, b ≤ k → s.reserved[k]? = some z →
      ((s.reserved.drop b).map Prod.snd)[k - b]? = some z.2 := by
    intro k z hk hz
    rw [List.getElem?_map, List.getElem?_drop, Nat.add_sub_cancel' hk, hz]
    rfl
  have h1 := hat hi hx
  have h2 := hat hj hy
  obtain ⟨hlt, -⟩ := List.getElem?_eq_some_iff.mp h1
  have hpos : i - b = j - b := (List.getElem?_inj hlt h).mp (by rw [h1, h2, hxy])
  have hij : i = j := by omega
  rw [hij, hy] at hx
  exact (Option.some.inj hx).symm

/-- A filled slot holds a reservation that was not carried. -/
theorem Inv.exists_filled (h : Inv total s) (hpos : 0 < total) {i : ℤ} (h0 : 0 ≤ i)
    (h1 : i < total) (hst : (s.ring.desc i).status = .filled) :
    ∃ j, s.carried.length ≤ j ∧ s.reserved[j]? = some (i, (s.ring.desc i).pageNO) := by
  obtain ⟨j, hj, -, ⟨x, hx, rfl, ⟨hres, -⟩ | ⟨-, hpage⟩⟩ | ⟨-, -, hfree⟩ | ⟨-, hfl⟩⟩ :=
    h.use_cases hpos h0 h1
  · exact absurd (hst.symm.trans hres) (by decide)
  · rw [hpage]
    exact ⟨j, hj, hx⟩
  · exact absurd (hst.symm.trans hfree) (by decide)
  · exact absurd (hst.symm.trans hfl) (by decide)

/-- A slot that waits is filled, unless the flush under way has marked it. -/
theorem Waits.status (h : Waits b s x) (hinv : Inv total s) (hb : s.done ≤ b) :
    (s.ring.desc x.1).status = .flushing ∨
      (s.ring.desc x.1).status = .filled ∧ (s.ring.desc x.1).pageNO = x.2 := by
  obtain ⟨⟨j, hj, hx⟩, hst⟩ := h
  rcases Nat.lt_or_ge j s.carried.length with hlt | hge
  · left
    rw [hinv.slot_eq j x hx]
    exact hinv.flushing j (by omega) hlt
  · rcases hinv.holds j x hge hx with ⟨hres, -⟩ | hfilled
    · exact absurd hres hst
    · exact Or.inr hfilled

/-- A waiting slot is not the one at the tail while that is free. -/
theorem Waits.ne_free (h : Waits b s x) (hinv : Inv total s) (hb : s.done ≤ b) {slot : ℤ}
    (hfree : (s.ring.desc slot).status = .free) : x.1 ≠ slot := by
  rintro rfl
  rcases h.status hinv hb with hst | ⟨hst, -⟩ <;> rw [hfree] at hst <;> exact absurd hst (by decide)

theorem Waits.reserve (h : Waits b s x) (hinv : Inv total s) (hb : s.done ≤ b) {pageNO : ℤ}
    (hs : s.reserve total pageNO = some s') : Waits b s' x := by
  obtain ⟨hfree, rfl⟩ := reserve_eq hs
  have hne := h.ne_free hinv hb hfree
  obtain ⟨⟨j, hj, hx⟩, hst⟩ := h
  refine ⟨⟨j, hj, ?_⟩, ?_⟩
  · change (s.reserved ++ _)[j]? = _
    rw [List.getElem?_append_left (List.getElem?_eq_some_iff.mp hx).1]
    exact hx
  · change (Function.update s.ring.desc _ _ _).status ≠ _
    rw [Function.update_of_ne hne]
    exact hst

/-- The slot that is filled now joins the waiting ones, which are other slots. -/
theorem Waits.fill (h : Waits b s x) {slot pageNO : ℤ} (hinv : Inv total s)
    (hs : s.fill nodeID slot pageNO = some s') : x.1 ≠ slot ∧ Waits b s' x := by
  obtain ⟨hmem, rfl⟩ := fill_eq hs
  obtain ⟨-, -, -, hcopy⟩ := hinv.copying _ hmem
  have hne : x.1 ≠ slot := fun heq => h.2 (by rw [heq]; exact hcopy)
  refine ⟨hne, h.1, ?_⟩
  change (Function.update s.ring.desc _ _ _).status ≠ _
  rw [Function.update_of_ne hne]
  exact h.2

theorem waits_fill {slot pageNO : ℤ} (hinv : Inv total s) (hb : b ≤ s.carried.length)
    (hs : s.fill nodeID slot pageNO = some s') : Waits b s' (slot, pageNO) := by
  obtain ⟨hmem, rfl⟩ := fill_eq hs
  obtain ⟨j, hj, hx, -⟩ := hinv.copying _ hmem
  refine ⟨⟨j, Nat.le_trans hb hj, hx⟩, ?_⟩
  change (Function.update s.ring.desc _ _ _).status ≠ _
  rw [Function.update_self]
  simp

theorem Waits.flushBegin (h : Waits b s x) (hs : s.flushBegin total nodeID = some s') :
    Waits b s' x := by
  obtain ⟨-, rfl | ⟨count, -, -, rfl⟩⟩ := flushBegin_cases hs
  · exact h
  · refine ⟨h.1, ?_⟩
    change (WriteOut.markFlushing _ _ _ _).status ≠ _
    rw [WriteOut.markFlushing_status]
    split
    · simp
    · exact h.2

/-- A waiting slot the transfer under way does not carry belongs to a later one. -/
theorem Waits.landed (h : Waits s.done s x) (hinv : Inv total s) {m : PageWrte}
    (hm : s.inflight = some m) (hx : x.1 ∉ m.slots) : Waits s.carried.length s x := by
  obtain ⟨hidx, hsize, hend⟩ := hinv.busy m hm
  obtain ⟨⟨j, hj, hxj⟩, hst⟩ := h
  refine ⟨⟨j, ?_, hxj⟩, hst⟩
  by_contra hlt
  have hslot := hinv.slot_eq j x hxj
  have hturn := Cyclic.slot_add (n := total) (a := s.done) (i := j - s.done) (by omega)
  rw [Nat.add_sub_cancel' hj] at hturn
  exact hx (PageWrte.mem_slots.mpr (by omega))

theorem Waits.flushEnd (h : Waits b s x) (hs : s.flushEnd = some s') : Waits b s' x := by
  obtain ⟨m, -, rfl⟩ := Option.map_eq_some_iff.mp hs
  refine ⟨h.1, ?_⟩
  change ((s.ring.freeBuff _ _).desc _).status ≠ _
  rw [WriteOut.freeBuff_desc]
  split
  · simp [BuffDesc.empty]
  · exact h.2

end Waits

end Fifo

/-- A page content that `COMEX_move_to_Remote` has put into a slot. -/
structure Copied (α : Type) where
  slot : ℤ
  pageNO : ℤ
  content : α
  deriving DecidableEq, Repr

/-- A swap-in of a page that was in a slot whose write had not taken effect. -/
structure Look (α : Type) where
  /-- What was put into the slot. -/
  content : α
  /-- What `COMEX_read_from_buffer` copied, if it returned 1. -/
  found : Option α
  /-- What the swap-in yielded in the end. -/
  yielded : α
  deriving DecidableEq, Repr

/-- The traffic of a node together with the contents of the pages. -/
structure Memory (α : Type) where
  traffic : Traffic
  /-- `COMEX_readIn_buff[]`. -/
  readIn : ℤ → BuffDesc
  /-- The node's RDMA space, by page offset. -/
  space : ℤ → α
  /-- The memory of the peers, by node and page number. -/
  remote : ℤ → ℤ → α
  /-- The RDMA write of the transfer under way has taken effect. -/
  landed : ℤ → Bool
  /-- History: what was put into the slots whose write has not taken effect. -/
  waiting : ℤ → List (Copied α)
  /-- History: the swap-ins of pages in such slots. -/
  looks : List (Look α)

namespace Memory

variable {α : Type}

/-- An atomic step of some thread, or an RDMA write that takes effect. -/
inductive Step (α : Type)
  | pageReceive (nodeID pageNO : ℤ) (groupSize : ℕ)
  | reserve (nodeID : ℤ)
  | fill (nodeID slot pageNO : ℤ) (content : α)
  | flushBegin (nodeID : ℤ)
  | land (nodeID : ℤ)
  | flushEnd (nodeID : ℤ)
  | swapIn (nodeID pageNO : ℤ)
  deriving DecidableEq, Repr

/-- The memory node a step is about. -/
def Step.node : Step α → ℤ
  | .pageReceive n _ _ | .reserve n | .fill n _ _ _ | .flushBegin n | .land n | .flushEnd n
  | .swapIn n _ => n

/-- The state after `COMEX_init_Remote`. -/
def init (space : ℤ → α) (remote : ℤ → ℤ → α) : Memory α where
  traffic := .init
  readIn _ := .empty
  space := space
  remote := remote
  landed _ := false
  waiting _ := []
  looks := []

/-- What the operations of a node see of the state. -/
def node (s : Memory α) : Node α where
  group := s.traffic.group
  ring n := (s.traffic.fifo n).ring
  readIn := s.readIn
  freeStruct := s.traffic.freeStruct
  space := s.space
  remote := s.remote
  latest _ _ := none

/-- What a swap-in of a page finds that was put into slot `x.slot`. -/
def look (cfg : Config) (s : Memory α) (n p : ℤ) (x : Copied α) : Look α :=
  ⟨x.content, s.node.readFromBuffer cfg n p, (s.node.swapIn cfg n p).1⟩

/-- One step, if it is enabled.  `COMEX_move_to_Remote` returns the page after the fill;
the RDMA write of a flush takes effect before its thread goes on to free the run. -/
def step (cfg : Config) (s : Memory α) (a : Step α) : Option (Memory α) :=
  if 0 ≤ a.node ∧ a.node < cfg.totalNodes then
    match a with
    | .pageReceive n p k =>
      (s.traffic.step cfg (.pageReceive n p k)).map fun t => { s with traffic := t }
    | .reserve n =>
      (s.traffic.group n).freelistGetpage.bind fun (p, _) =>
        (s.traffic.step cfg (.reserve n)).map fun t =>
          { s with traffic := t, readIn := (s.node.voidPreFetch cfg n p).readIn }
    | .fill n slot p a =>
      (s.traffic.step cfg (.fill n slot p)).map fun t =>
        { s with
          traffic := t
          space := Function.update s.space (getWriteOutBuff cfg.totalWriteOut n slot) a
          waiting := Function.update s.waiting n (⟨slot, p, a⟩ :: s.waiting n) }
    | .flushBegin n =>
      (s.traffic.step cfg (.flushBegin n)).map fun t => { s with traffic := t }
    | .land n =>
      if s.landed n then none
      else (s.traffic.fifo n).inflight.map fun m =>
        { s with
          remote := (s.node.write n m).remote
          landed := Function.update s.landed n true
          waiting := Function.update s.waiting n
            ((s.waiting n).filter fun x => x.slot ∉ m.slots) }
    | .flushEnd n =>
      if s.landed n then
        (s.traffic.step cfg (.flushEnd n)).map fun t =>
          { s with traffic := t, landed := Function.update s.landed n false }
      else none
    | .swapIn n p =>
      (s.traffic.step cfg (.swapIn n p)).map fun t =>
        let r := s.node.swapIn cfg n p
        { s with
          traffic := t
          readIn := r.2.readIn
          space := r.2.space
          looks := s.looks ++ ((s.waiting n).filter fun x => x.pageNO = p).map (s.look cfg n p) }
  else none

/-- What was swapped out can be read from the ring until its write has taken effect. -/
structure Readable (cfg : Config) (s : Memory α) : Prop where
  found : ∀ n, ∀ x ∈ s.waiting n, s.node.readFromBuffer cfg n x.pageNO = some x.content
  looks : ∀ r ∈ s.looks, r.found = some r.content ∧ r.yielded = r.content

/-- How many reservations of a ring have been written. -/
def written (s : Memory α) (n : ℤ) : ℕ :=
  if s.landed n then (s.traffic.fifo n).carried.length else (s.traffic.fifo n).done

/-- The page that is handed out is in no slot whose write has not taken effect. -/
def Fresh (s : Memory α) : Step α → Prop
  | .reserve n => ∀ x ∈ (s.traffic.group n).freelistGetpage,
      ∀ y ∈ (s.traffic.fifo n).reserved.drop (s.written n), y.2 ≠ x.1
  | _ => True

/-- No page is swapped in while a flush has marked its slot. -/
def Unmarked (s : Memory α) : Step α → Prop
  | .swapIn n p => ∀ x ∈ s.waiting n, x.pageNO = p →
      ((s.traffic.fifo n).ring.desc x.slot).status = .filled
  | _ => True

/-- A step that hands out a fresh page, and reads a page while its slot is not marked. -/
def Undisturbed (s : Memory α) (a : Step α) : Prop := s.Fresh a ∧ s.Unmarked a

instance (s : Memory α) : (a : Step α) → Decidable (s.Undisturbed a)
  | .reserve n => inferInstanceAs (Decidable ((∀ x ∈ (s.traffic.group n).freelistGetpage,
      ∀ y ∈ (s.traffic.fifo n).reserved.drop (s.written n), y.2 ≠ x.1) ∧ True))
  | .swapIn n p => inferInstanceAs (Decidable (True ∧ ∀ x ∈ s.waiting n, x.pageNO = p →
      ((s.traffic.fifo n).ring.desc x.slot).status = .filled))
  | .pageReceive _ _ _ | .fill _ _ _ _ | .flushBegin _ | .land _ | .flushEnd _ =>
    inferInstanceAs (Decidable (True ∧ True))

/-- What holds of one ring and the slots of it that wait. -/
structure Inv (cfg : Config) (s : Memory α) (n : ℤ) : Prop where
  landed : s.landed n = true → (s.traffic.fifo n).inflight ≠ none
  swapped : ∀ p ∈ s.traffic.swapped n, 0 ≤ p
  waits : ∀ x ∈ s.waiting n, (0 ≤ n ∧ n < cfg.totalNodes) ∧
    (s.traffic.fifo n).Waits (s.written n) (x.slot, x.pageNO) ∧
    s.space (getWriteOutBuff cfg.totalWriteOut n x.slot) = x.content
  distinct : (s.traffic.fifo n).Distinct (s.written n)

/-- The states of a node whose steps meet a guard. -/
abbrev Reach (cfg : Config) (space : ℤ → α) (remote : ℤ → ℤ → α)
    (ok : Memory α → Step α → Prop) (s : Memory α) : Prop :=
  Machine.Reach (.ofPartial (init space remote) (step cfg)) ok s

/-! ### The invariant -/

section Steps

variable {cfg : Config} {s s' : Memory α} {n m p : ℤ}

theorem Inv.init (space : ℤ → α) (remote : ℤ → ℤ → α) : Inv cfg (init space remote) n where
  landed := fun h => Bool.noConfusion h
  swapped := fun p h => by simp [Memory.init, Traffic.init] at h
  waits := fun x h => by simp [Memory.init] at h
  distinct := List.nodup_nil

theorem done_le_written (h : (s.traffic.fifo n).Lined cfg.totalWriteOut n) :
    (s.traffic.fifo n).done ≤ s.written n ∧ s.written n ≤ (s.traffic.fifo n).carried.length := by
  have := h.inv.done_le
  unfold written
  split <;> omega

/-- A step that leaves the ring and its slots alone. -/
theorem Inv.frame (h : Inv cfg s n) (hfifo : s'.traffic.fifo n = s.traffic.fifo n)
    (hlanded : s'.landed n = s.landed n) (hwaiting : s'.waiting n = s.waiting n)
    (hswapped : ∀ p ∈ s'.traffic.swapped n, 0 ≤ p)
    (hspace : ∀ x ∈ s.waiting n, s'.space (getWriteOutBuff cfg.totalWriteOut n x.slot) =
      s.space (getWriteOutBuff cfg.totalWriteOut n x.slot)) : Inv cfg s' n := by
  have hwritten : s'.written n = s.written n := by
    unfold written
    rw [hfifo, hlanded]
  refine ⟨?_, hswapped, fun x hx => ?_, ?_⟩
  · rw [hfifo, hlanded]
    exact h.landed
  · rw [hwaiting] at hx
    rw [hfifo, hwritten, hspace x hx]
    exact h.waits x hx
  · rw [hfifo, hwritten]
    exact h.distinct

/-- A slot that waits is inside its ring. -/
theorem Inv.slot_range (h : Inv cfg s n) (hl : (s.traffic.fifo n).Lined cfg.totalWriteOut n)
    (hpos : 0 < cfg.totalWriteOut) {x : Copied α} (hx : x ∈ s.waiting n) :
    0 ≤ x.slot ∧ x.slot < cfg.totalWriteOut := by
  obtain ⟨-, ⟨⟨j, -, hj⟩, -⟩, -⟩ := h.waits x hx
  have hslot := hl.inv.slot_eq j _ hj
  have hlt := Nat.mod_lt j hpos
  simp only at hslot
  omega

/-- **What the look-up finds**: the content of the slot, unless the flush has marked it. -/
theorem Inv.read_iff (h : Inv cfg s n) (hl : (s.traffic.fifo n).Lined cfg.totalWriteOut n)
    (hpos : 0 < cfg.totalWriteOut) {x : Copied α} (hx : x ∈ s.waiting n) :
    s.node.readFromBuffer cfg n x.pageNO = some x.content ↔
      ((s.traffic.fifo n).ring.desc x.slot).status = .filled := by
  obtain ⟨hdone, hcarried⟩ := done_le_written hl
  obtain ⟨-, hwaits, hcontent⟩ := h.waits x hx
  obtain ⟨j, hj, hxj⟩ := hwaits.1
  -- a filled slot with this page is the slot of `x`
  have hsame : ∀ {i : ℤ}, s.node.InSlot cfg n i x.pageNO → i = x.slot := by
    intro i hi
    obtain ⟨k, hk, hik⟩ := hl.inv.exists_filled hpos hi.1 hi.2.1 hi.2.2.1
    have heq := h.distinct.unique (Nat.le_trans hcarried hk) hj hik hxj hi.2.2.2
    exact congrArg Prod.fst heq
  constructor
  · intro hread
    obtain ⟨i, hi, -⟩ := Node.readFromBuffer_some hread
    have hst := hi.2.2.1
    rw [hsame hi] at hst
    exact hst
  · intro hst
    have hpage : ((s.traffic.fifo n).ring.desc x.slot).pageNO = x.pageNO := by
      rcases hwaits.status hl.inv hdone with hfl | ⟨-, hpage⟩
      · rw [hst] at hfl
        exact absurd hfl (by decide)
      · exact hpage
    obtain ⟨h0, h1⟩ := h.slot_range hl hpos hx
    cases hread : s.node.readFromBuffer cfg n x.pageNO with
    | none => exact absurd ⟨h0, h1, hst, hpage⟩ (Node.readFromBuffer_none hread x.slot)
    | some a =>
      obtain ⟨i, hi, ha⟩ := Node.readFromBuffer_some hread
      rw [hsame hi] at ha
      rw [← ha]
      exact congrArg some hcontent

/-- A swap-in leaves the write-out slots alone. -/
theorem swapIn_space (s : Node α) (hp : 0 ≤ p) (hm : m < cfg.totalNodes) {slot : ℤ}
    (hslot : slot < cfg.totalWriteOut) :
    (s.swapIn cfg n p).2.space (getWriteOutBuff cfg.totalWriteOut m slot) =
      s.space (getWriteOutBuff cfg.totalWriteOut m slot) := by
  unfold Node.swapIn
  cases s.readFromBuffer cfg n p with
  | some a => rfl
  | none =>
    cases s.readFromPreFetch cfg n p with
    | some a => rfl
    | none =>
      have hidx : 0 ≤ preFFloor (p.tmod cfg.totalReadIn) := by
        have := Int.tmod_nonneg (cfg.totalReadIn : ℤ) hp
        have hsize : preFSize = 16 := rfl
        unfold preFFloor
        rw [hsize]
        omega
      have hlt := Node.writeOut_lt_readIn hm hslot hidx
      change (if _ then _ else _) = _
      rw [if_neg (by omega)]

/-- A step that may change ring `n`, and leaves the slots of the others alone. -/
structure RingStep (cfg : Config) (s : Memory α) (n : ℤ) (f : Fifo) (s' : Memory α) : Prop where
  fifo : s'.traffic.fifo = Function.update s.traffic.fifo n f
  landed : ∀ m ≠ n, s'.landed m = s.landed m
  waiting : ∀ m ≠ n, s'.waiting m = s.waiting m
  swapped : ∀ m ≠ n, s'.traffic.swapped m = s.traffic.swapped m
  space : ∀ m ≠ n, ∀ x ∈ s.waiting m, s'.space (getWriteOutBuff cfg.totalWriteOut m x.slot) =
    s.space (getWriteOutBuff cfg.totalWriteOut m x.slot)

/-- What remains to be shown after such a step is about the ring itself. -/
theorem RingStep.inv {f : Fifo} (hstep : RingStep cfg s n f s') (h : ∀ m, Inv cfg s m)
    (hlanded : s'.landed n = true → f.inflight ≠ none)
    (hswapped : ∀ p ∈ s'.traffic.swapped n, 0 ≤ p) {b : ℕ}
    (hb : b = if s'.landed n then f.carried.length else f.done)
    (hwaits : ∀ x ∈ s'.waiting n, (0 ≤ n ∧ n < cfg.totalNodes) ∧
      f.Waits b (x.slot, x.pageNO) ∧
      s'.space (getWriteOutBuff cfg.totalWriteOut n x.slot) = x.content)
    (hdistinct : f.Distinct b) : ∀ m, Inv cfg s' m := by
  intro m
  by_cases hm : m = n
  · subst hm
    have hself : s'.traffic.fifo m = f := by rw [hstep.fifo, Function.update_self]
    have hwritten : s'.written m = b := by rw [hb, written, hself]
    rw [← hself] at hlanded hwaits hdistinct
    rw [← hwritten] at hwaits hdistinct
    exact ⟨hlanded, hswapped, hwaits, hdistinct⟩
  · refine (h m).frame ?_ (hstep.landed m hm) (hstep.waiting m hm) ?_ (hstep.space m hm)
    · rw [hstep.fifo, Function.update_of_ne hm]
    · rw [hstep.swapped m hm]
      exact (h m).swapped

/-- A slot is reserved: it holds nothing yet, and its page is not waiting in another one. -/
theorem Inv.reserve (h : ∀ m, Inv cfg s m) (hl : (s.traffic.fifo n).Lined cfg.totalWriteOut n)
    (hfresh : s.Fresh (.reserve n)) (hs : s.step cfg (.reserve n) = some s') :
    ∀ m, Inv cfg s' m := by
  obtain ⟨-, hs⟩ := Option.ite_none_right_eq_some.mp hs
  obtain ⟨⟨p, g⟩, hget, hs⟩ := Option.bind_eq_some_iff.mp hs
  obtain ⟨t, ht, rfl⟩ := Option.map_eq_some_iff.mp hs
  obtain ⟨-, ht⟩ := Option.ite_none_right_eq_some.mp ht
  rw [hget] at ht
  obtain ⟨f, hf, rfl⟩ := Option.map_eq_some_iff.mp ht
  obtain ⟨hdone, hcarried⟩ := done_le_written hl
  have hlen := hl.inv.carried_le
  have hwaits := fun x hx => ((h n).waits x hx).2.1.reserve hl.inv hdone hf
  obtain ⟨-, rfl⟩ := Fifo.reserve_eq hf
  refine RingStep.inv ⟨rfl, fun _ _ => rfl, fun _ _ => rfl, fun _ _ => rfl, fun _ _ _ _ => rfl⟩ h
    (h n).landed (h n).swapped (b := s.written n) rfl ?_ ?_
  · intro x hx
    exact ⟨((h n).waits x hx).1, hwaits x hx, ((h n).waits x hx).2.2⟩
  · -- the page that is handed out is a new one
    unfold Fifo.Distinct
    rw [List.drop_append_of_le_length (by omega), List.map_append]
    refine List.nodup_append.mpr ⟨(h n).distinct, List.nodup_singleton _, ?_⟩
    intro q hq q' hq' heq
    obtain ⟨y, hy, rfl⟩ := List.mem_map.mp hq
    rw [List.mem_singleton.mp hq'] at heq
    exact hfresh _ hget y hy heq

theorem Inv.fill (h : ∀ m, Inv cfg s m) (hl : ∀ m, (s.traffic.fifo m).Lined cfg.totalWriteOut m)
    (hpos : 0 < cfg.totalWriteOut) {slot : ℤ} {a : α}
    (hs : s.step cfg (.fill n slot p a) = some s') : ∀ m, Inv cfg s' m := by
  obtain ⟨hn, hs⟩ := Option.ite_none_right_eq_some.mp hs
  obtain ⟨t, ht, rfl⟩ := Option.map_eq_some_iff.mp hs
  obtain ⟨f, hf, rfl⟩ := Option.map_eq_some_iff.mp ht
  obtain ⟨hdone, hcarried⟩ := done_le_written (hl n)
  have hwaits := fun x hx => ((h n).waits x hx).2.1.fill (hl n).inv hf
  have hnew := Fifo.waits_fill (hl n).inv hcarried hf
  obtain ⟨hmem, rfl⟩ := Fifo.fill_eq hf
  obtain ⟨j, hj, hx, -⟩ := (hl n).inv.copying _ hmem
  have hslot := (hl n).inv.slot_eq j _ hx
  have hlt := Nat.mod_lt j hpos
  simp only at hslot
  -- the other slots that wait have other addresses
  have hspace : ∀ m, ∀ x ∈ s.waiting m, (m = n → x.slot ≠ slot) →
      Function.update s.space (getWriteOutBuff cfg.totalWriteOut n slot) a
        (getWriteOutBuff cfg.totalWriteOut m x.slot) =
      s.space (getWriteOutBuff cfg.totalWriteOut m x.slot) := by
    intro m x hx hne
    refine Function.update_of_ne (fun heq => ?_) ..
    obtain ⟨hm, hsl⟩ := Node.writeOut_inj ((h m).slot_range (hl m) hpos hx) (by omega) heq
    exact hne hm hsl
  refine RingStep.inv ⟨rfl, fun _ _ => rfl, fun m hm => ?_, fun m hm => ?_, fun m hm x hx => ?_⟩ h
    (h n).landed ?_ (b := s.written n) rfl ?_ (h n).distinct
  · exact Function.update_of_ne hm ..
  · exact Function.update_of_ne hm ..
  · exact hspace m x hx fun hc => absurd hc hm
  · intro q hq
    simp only [Function.update_self, List.mem_cons] at hq
    rcases hq with rfl | hq
    · exact (hl n).page _ (List.mem_of_getElem? hx)
    · exact (h n).swapped q hq
  · intro x hx
    simp only [Function.update_self, List.mem_cons] at hx
    rcases hx with rfl | hx
    · exact ⟨hn, hnew, Function.update_self ..⟩
    · obtain ⟨hne, hwait⟩ := hwaits x hx
      refine ⟨hn, hwait, ?_⟩
      exact (hspace n x hx fun _ => hne).trans ((h n).waits x hx).2.2

theorem Inv.flushBegin (h : ∀ m, Inv cfg s m) (hs : s.step cfg (.flushBegin n) = some s') :
    ∀ m, Inv cfg s' m := by
  obtain ⟨-, hs⟩ := Option.ite_none_right_eq_some.mp hs
  obtain ⟨t, ht, rfl⟩ := Option.map_eq_some_iff.mp hs
  obtain ⟨f, hf, rfl⟩ := Option.map_eq_some_iff.mp ht
  have hwaits := fun x hx => ((h n).waits x hx).2.1.flushBegin hf
  obtain ⟨hidle, hcases⟩ := Fifo.flushBegin_cases hf
  -- no write has taken effect that is not done with
  have hland : s.landed n = false := by
    rw [Bool.eq_false_iff]
    exact fun hc => (h n).landed hc hidle
  have hfields : f.done = (s.traffic.fifo n).done ∧
      f.reserved = (s.traffic.fifo n).reserved := by
    rcases hcases with rfl | ⟨count, -, -, rfl⟩
    · exact ⟨rfl, rfl⟩
    · exact ⟨rfl, rfl⟩
  have hwritten : s.written n = (s.traffic.fifo n).done := by
    rw [written, hland]
    rfl
  refine RingStep.inv ⟨rfl, fun _ _ => rfl, fun _ _ => rfl, fun _ _ => rfl, fun _ _ _ _ => rfl⟩ h
    ?_ (h n).swapped (b := s.written n) ?_ ?_ ?_
  · intro hc
    rw [hland] at hc
    exact absurd hc (by decide)
  · rw [hland, hwritten, hfields.1]
    rfl
  · intro x hx
    exact ⟨((h n).waits x hx).1, hwaits x hx, ((h n).waits x hx).2.2⟩
  · unfold Fifo.Distinct
    rw [hfields.2]
    exact (h n).distinct

/-- The write takes effect: the pages it carries no longer wait. -/
theorem Inv.land (h : ∀ m, Inv cfg s m) (hl : (s.traffic.fifo n).Lined cfg.totalWriteOut n)
    (hs : s.step cfg (.land n) = some s') : ∀ m, Inv cfg s' m := by
  obtain ⟨-, hs⟩ := Option.ite_none_right_eq_some.mp hs
  simp only at hs
  split at hs
  · exact absurd hs (by simp)
  next hland =>
  obtain ⟨m, hm, rfl⟩ := Option.map_eq_some_iff.mp hs
  have hwritten : s.written n = (s.traffic.fifo n).done := by
    rw [written, if_neg hland]
  refine RingStep.inv (s := s) (f := s.traffic.fifo n) ⟨?_, fun k hk => ?_, fun k hk => ?_,
    fun _ _ => rfl, fun _ _ _ _ => rfl⟩ h ?_ (h n).swapped
    (b := (s.traffic.fifo n).carried.length) ?_ ?_ ?_
  · exact (Function.update_eq_self n _).symm
  · exact Function.update_of_ne hk ..
  · exact Function.update_of_ne hk ..
  · intro _
    simp [hm]
  · simp only [Function.update_self, if_true]
  · intro x hx
    simp only [Function.update_self, List.mem_filter, decide_eq_true_eq] at hx
    obtain ⟨hn, hwait, hcontent⟩ := (h n).waits x hx.1
    rw [hwritten] at hwait
    exact ⟨hn, hwait.landed hl.inv hm hx.2, hcontent⟩
  · exact (h n).distinct.mono (done_le_written hl).2

/-- The slots are freed, and what they carried had taken effect before. -/
theorem Inv.flushEnd (h : ∀ m, Inv cfg s m) (hl : (s.traffic.fifo n).Lined cfg.totalWriteOut n)
    (hs : s.step cfg (.flushEnd n) = some s') : ∀ m, Inv cfg s' m := by
  obtain ⟨-, hs⟩ := Option.ite_none_right_eq_some.mp hs
  obtain ⟨hland, hs⟩ := Option.ite_none_right_eq_some.mp hs
  obtain ⟨t, ht, rfl⟩ := Option.map_eq_some_iff.mp hs
  obtain ⟨f, hf, rfl⟩ := Option.map_eq_some_iff.mp ht
  have hwaits := fun x hx => ((h n).waits x hx).2.1.flushEnd hf
  have hend := hl.inv.flushEnd hf
  obtain ⟨hidle, hres, hcar⟩ := Fifo.flushEnd_eq hf
  have hwritten : s.written n = (s.traffic.fifo n).carried.length := by
    rw [written, if_pos hland]
  refine RingStep.inv ⟨rfl, fun m hm => ?_, fun _ _ => rfl, fun _ _ => rfl, fun _ _ _ _ => rfl⟩ h
    ?_ (h n).swapped (b := s.written n) ?_ ?_ ?_
  · exact Function.update_of_ne hm ..
  · simp
  · rw [hwritten, ← hcar, ← hend.idle hidle]
    simp
  · intro x hx
    exact ⟨((h n).waits x hx).1, hwaits x hx, ((h n).waits x hx).2.2⟩
  · unfold Fifo.Distinct
    rw [hres]
    exact (h n).distinct

/-- A swap-in writes to the read-in part of the space only, and frees a page that is swapped out. -/
theorem Inv.swapIn (h : ∀ m, Inv cfg s m) (hl : ∀ m, (s.traffic.fifo m).Lined cfg.totalWriteOut m)
    (hpos : 0 < cfg.totalWriteOut) (hs : s.step cfg (.swapIn n p) = some s') :
    ∀ m, Inv cfg s' m := by
  obtain ⟨-, hs⟩ := Option.ite_none_right_eq_some.mp hs
  obtain ⟨t, ht, rfl⟩ := Option.map_eq_some_iff.mp hs
  obtain ⟨hmem, ht⟩ := Option.ite_none_right_eq_some.mp ht
  rw [← Option.some.inj ht]
  intro m
  refine (h m).frame rfl rfl rfl (fun q hq => ?_) fun x hx => ?_
  · by_cases hm : m = n
    · subst hm
      simp only [Function.update_self] at hq
      exact (h m).swapped q (List.mem_of_mem_erase hq)
    · simp only [Function.update_of_ne hm] at hq
      exact (h m).swapped q hq
  · exact swapIn_space _ ((h n).swapped p hmem) ((h m).waits x hx).1.2
      ((h m).slot_range (hl m) hpos hx).2

end Steps

/-! ### Runs -/

section Runs

variable {cfg : Config} {space : ℤ → α} {remote : ℤ → ℤ → α} {ok : Memory α → Step α → Prop}
  {s : Memory α}

/-- A step is one of the traffic or leaves that alone, and only swap-ins look pages up. -/
theorem step_cases {s' : Memory α} {a : Step α} (hs : s.step cfg a = some s') :
    (s'.traffic = s.traffic ∨ ∃ b, s.traffic.step cfg b = some s'.traffic) ∧
      (s'.looks = s.looks ∨ ∃ n p, a = .swapIn n p ∧
        s'.looks = s.looks ++
          ((s.waiting n).filter fun x => x.pageNO = p).map (s.look cfg n p)) := by
  obtain ⟨-, hs⟩ := Option.ite_none_right_eq_some.mp hs
  cases a with
  | pageReceive n p k =>
    obtain ⟨t, ht, rfl⟩ := Option.map_eq_some_iff.mp hs
    exact ⟨Or.inr ⟨_, ht⟩, Or.inl rfl⟩
  | reserve n =>
    obtain ⟨_, -, hs⟩ := Option.bind_eq_some_iff.mp hs
    obtain ⟨t, ht, rfl⟩ := Option.map_eq_some_iff.mp hs
    exact ⟨Or.inr ⟨_, ht⟩, Or.inl rfl⟩
  | fill n slot p a =>
    obtain ⟨t, ht, rfl⟩ := Option.map_eq_some_iff.mp hs
    exact ⟨Or.inr ⟨_, ht⟩, Or.inl rfl⟩
  | flushBegin n =>
    obtain ⟨t, ht, rfl⟩ := Option.map_eq_some_iff.mp hs
    exact ⟨Or.inr ⟨_, ht⟩, Or.inl rfl⟩
  | land n =>
    simp only at hs
    split at hs
    · exact absurd hs (by simp)
    · obtain ⟨m, -, rfl⟩ := Option.map_eq_some_iff.mp hs
      exact ⟨Or.inl rfl, Or.inl rfl⟩
  | flushEnd n =>
    obtain ⟨-, hs⟩ := Option.ite_none_right_eq_some.mp hs
    obtain ⟨t, ht, rfl⟩ := Option.map_eq_some_iff.mp hs
    exact ⟨Or.inr ⟨_, ht⟩, Or.inl rfl⟩
  | swapIn n p =>
    obtain ⟨t, ht, rfl⟩ := Option.map_eq_some_iff.mp hs
    exact ⟨Or.inr ⟨_, ht⟩, Or.inr ⟨n, p, rfl, rfl⟩⟩

/-- What the rings and free lists do in a run is a run of the traffic. -/
theorem reach_traffic (h : Reach cfg space remote ok s) :
    Traffic.Reach cfg Machine.free s.traffic := by
  refine h.map (f := traffic) ?_ fun s a s' hs => (step_cases hs).1
  rintro s rfl
  rfl

/-- **Every run that hands out fresh pages keeps the invariant.** -/
theorem reach_inv (hpos : 0 < cfg.totalWriteOut) (hshort : cfg.totalWriteOut ≤ 32767)
    (h : Reach cfg space remote Fresh s) (n : ℤ) : Inv cfg s n := by
  refine h.invariant (I := fun s => ∀ n, Inv cfg s n) ?_ ?_ n
  · rintro s rfl n
    exact Inv.init space remote
  · intro s a s' hreach hinv hok hs
    have hl := Traffic.reach_lined hpos hshort (reach_traffic hreach)
    cases a with
    | pageReceive n p k =>
      obtain ⟨-, hs⟩ := Option.ite_none_right_eq_some.mp hs
      obtain ⟨t, ht, rfl⟩ := Option.map_eq_some_iff.mp hs
      rw [← Option.some.inj ht]
      exact fun m => (hinv m).frame rfl rfl rfl (hinv m).swapped fun _ _ => rfl
    | reserve n => exact Inv.reserve hinv (hl n) hok hs
    | fill n slot p a => exact Inv.fill hinv hl hpos hs
    | flushBegin n => exact Inv.flushBegin hinv hs
    | land n => exact Inv.land hinv (hl n) hs
    | flushEnd n => exact Inv.flushEnd hinv (hl n) hs
    | swapIn n p => exact Inv.swapIn hinv hl hpos hs

/-- **A slot whose write has not taken effect is read if and only if it is not marked**,
and while no page is swapped in with its slot marked every swap-in yields the content. -/
theorem reach_readable (hpos : 0 < cfg.totalWriteOut) (hshort : cfg.totalWriteOut ≤ 32767)
    (space : ℤ → α) (remote : ℤ → ℤ → α) :
    (∀ s, Reach cfg space remote Fresh s → ∀ n, ∀ x ∈ s.waiting n,
      (s.node.readFromBuffer cfg n x.pageNO = some x.content ↔
        ((s.traffic.fifo n).ring.desc x.slot).status = .filled)) ∧
    ∀ s, Reach cfg space remote Undisturbed s → ∀ r ∈ s.looks,
      r.found = some r.content ∧ r.yielded = r.content := by
  have hread : ∀ s : Memory α, Reach cfg space remote Fresh s → ∀ n, ∀ x ∈ s.waiting n,
      (s.node.readFromBuffer cfg n x.pageNO = some x.content ↔
        ((s.traffic.fifo n).ring.desc x.slot).status = .filled) := fun s h n x hx =>
    (reach_inv hpos hshort h n).read_iff (Traffic.reach_lined hpos hshort (reach_traffic h) n)
      hpos hx
  refine ⟨hread, fun s h => ?_⟩
  refine h.invariant (I := fun s => ∀ r ∈ s.looks, r.found = some r.content ∧
    r.yielded = r.content) ?_ ?_
  · rintro s rfl r hr
    exact absurd hr (by simp [Memory.init])
  · intro s a s' hreach hinv hok hs r hr
    have hfresh : Reach cfg space remote Fresh s := hreach.mono fun _ _ hok => hok.1
    rcases (step_cases hs).2 with heq | ⟨n, p, rfl, heq⟩
    · rw [heq] at hr
      exact hinv r hr
    · rw [heq] at hr
      rcases List.mem_append.mp hr with hr | hr
      · exact hinv r hr
      · obtain ⟨x, hx, rfl⟩ := List.mem_map.mp hr
        obtain ⟨hx, hxp⟩ := List.mem_filter.mp hx
        have hp : x.pageNO = p := of_decide_eq_true hxp
        -- the slot is not marked, so the ring is hit
        have hfound := (hread s hfresh n x hx).mpr (hok.2 x hx hp)
        rw [hp] at hfound
        refine ⟨hfound, ?_⟩
        change (s.node.swapIn cfg n p).1 = x.content
        unfold Node.swapIn
        rw [hfound]

/-- A page swapped out, looked up, and still waiting. -/
theorem reach_readable_one : ∃ s : Memory ℕ,
    Reach smallConfig (fun _ => 0) (fun _ _ => 0) Undisturbed s ∧ s.waiting 0 = [⟨0, 0, 7⟩] ∧
      s.looks = [⟨7, some 7, 7⟩] ∧ (∀ n, ∀ x ∈ s.waiting n,
        (s.node.readFromBuffer smallConfig n x.pageNO = some x.content ↔
          ((s.traffic.fifo n).ring.desc x.slot).status = .filled)) ∧
      ∀ r ∈ s.looks, r.found = some r.content ∧ r.yielded = r.content := by
  obtain ⟨s, hs, hwaiting, hlooks⟩ := Machine.exists_reach_of_exec
    (init (fun _ => 0) (fun _ _ => 0) : Memory ℕ) Undisturbed (step smallConfig)
    (fun s => s.waiting 0 = [⟨0, 0, 7⟩] ∧ s.looks = [⟨7, some 7, 7⟩])
    [.pageReceive 0 0 5, .reserve 0, .fill 0 0 0 7, .swapIn 0 0] (by decide)
  obtain ⟨hread, hyield⟩ := @reach_readable ℕ smallConfig (by decide) (by decide) (fun _ => 0)
    (fun _ _ => 0)
  exact ⟨s, hs, hwaiting, hlooks, hread s (hs.mono fun _ _ hok => hok.1), hyield s hs⟩

end Runs

/-- **A swap-in during the flush yields the old content.** The ring is full, so the next
`COMEX_move_to_Remote` calls `COMEX_flush_buff`; the page is in slot 0, which the flush has
marked, and the write has not taken effect. -/
theorem not_readable : ¬ ∀ s : Memory ℕ,
    Reach smallConfig (fun _ => 0) (fun _ _ => 0) Machine.free s → Readable smallConfig s := by
  intro hall
  obtain ⟨s, hs, hlooks⟩ := Machine.exists_reach_of_exec
    (init (fun _ => 0) (fun _ _ => 0) : Memory ℕ) Machine.free (step smallConfig)
    (fun s => s.looks = [⟨7, none, 0⟩])
    [.pageReceive 0 0 0, .pageReceive 0 16 0, .reserve 0, .fill 0 0 0 7, .reserve 0,
      .fill 0 1 16 9, .flushBegin 0, .swapIn 0 0] (by decide)
  have hfound := ((hall s hs).looks ⟨7, none, 0⟩ (by simp [hlooks])).1
  exact absurd hfound (by decide)

end Memory
end Comex
