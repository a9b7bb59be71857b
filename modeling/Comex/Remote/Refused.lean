import Comex.Remote.FlushWindow

/-!
# Refused transfers

`do_write` and `do_read` return a non-zero value when a check fails or the request cannot
be posted, and `CHK` leaves `COMEX_RDMA_fn`, which returns nothing, before the line that
follows.  The callers in the kernel go on as if the transfer had taken place: a refused
`PAGE_WRTE` leaves its slots marked behind the head, and a refused `PAGE_READ` is
followed by the copy from the read-in buffer and by the descriptors.

## Main definitions

* `Fifo.Stays` — the slots of refused writes, and what keeps them as they are.
* `Faulty`, `step` — the traffic of a node with refused transfers.
* `WriteIntact`, `ReadIntact` — a refused transfer corrupts nothing.
* `ReadKept` — the same for a read, when the bytes of an earlier transfer count.

## Main results

* `refuseWrite_stuck` — the slots of a refused write are marked for ever.
* `Described.next` — a slot that was read holds what its descriptor says.
* `refused_corrupts` — **every refused transfer corrupts**, and of the refused reads the
  first one does whatever was transferred before.
-/

namespace Comex

/-! ### The ring -/

namespace Fifo

/-- The `stuck` slots are marked and in no transfer under way; that one's slots are marked as
well, and those still being filled are reserved. -/
structure Stays (stuck : List ℤ) (s : Fifo) : Prop where
  marked : ∀ i ∈ stuck, (s.ring.desc i).status = .flushing
  apart : ∀ m, s.inflight = some m → ∀ i ∈ m.slots, i ∉ stuck
  flight : ∀ m, s.inflight = some m → 0 < m.size ∧
    ∀ i ∈ m.slots, (s.ring.desc i).status = .flushing
  copying : ∀ x ∈ s.copying, (s.ring.desc x.1).status = .reserved
  nodup : (s.copying.map Prod.fst).Nodup

namespace Stays

variable {total : ℕ} {nodeID : ℤ} {stuck : List ℤ} {s s' : Fifo}

theorem init : Stays [] init where
  marked := fun i hi => absurd hi List.not_mem_nil
  apart := fun m hm => absurd hm (by simp [Fifo.init])
  flight := fun m hm => absurd hm (by simp [Fifo.init])
  copying := fun x hx => absurd hx (by simp [Fifo.init])
  nodup := List.nodup_nil

/-- A slot of one status is not one of another. -/
private theorem ne_of_status {desc : ℤ → BuffDesc} {i j : ℤ} {a b : BuffStatus}
    (hi : (desc i).status = a) (hj : (desc j).status = b) (hab : a ≠ b) : i ≠ j := by
  rintro rfl
  exact hab (hi.symm.trans hj)

theorem reserve (h : Stays stuck s) {pageNO : ℤ} (hs : s.reserve total pageNO = some s') :
    Stays stuck s' := by
  obtain ⟨hfree, rfl⟩ := reserve_eq hs
  have hold : ∀ {i : ℤ} {a : BuffStatus}, (s.ring.desc i).status = a → a ≠ .free →
      ((s.ring.reserve total).desc i).status = a := by
    intro i a hi ha
    change (Function.update s.ring.desc s.ring.tail _ i).status = a
    rw [Function.update_of_ne (ne_of_status hi hfree ha)]
    exact hi
  have hnew : ((s.ring.reserve total).desc s.ring.tail).status = .reserved := by
    simp only [WriteOut.reserve, Function.update_self]
  refine ⟨fun i hi => hold (h.marked i hi) (by decide), h.apart, ?_, ?_, ?_⟩
  · exact fun m hm => ⟨(h.flight m hm).1, fun i hi => hold ((h.flight m hm).2 i hi) (by decide)⟩
  · intro x hx
    rcases List.mem_cons.mp hx with rfl | hx
    · exact hnew
    · exact hold (h.copying x hx) (by decide)
  · refine List.nodup_cons.mpr ⟨fun hmem => ?_, h.nodup⟩
    obtain ⟨x, hx, hslot⟩ := List.mem_map.mp hmem
    exact ne_of_status (h.copying x hx) hfree (by decide) hslot

theorem fill (h : Stays stuck s) {slot pageNO : ℤ}
    (hs : s.fill nodeID slot pageNO = some s') : Stays stuck s' := by
  obtain ⟨hmem, rfl⟩ := fill_eq hs
  have hres := h.copying _ hmem
  have hold : ∀ {i : ℤ} {a : BuffStatus}, (s.ring.desc i).status = a → i ≠ slot →
      ((s.ring.fill slot nodeID pageNO).desc i).status = a := by
    intro i a hi hne
    change (Function.update s.ring.desc slot _ i).status = a
    rw [Function.update_of_ne hne]
    exact hi
  have hmark : ∀ {i : ℤ}, (s.ring.desc i).status = .flushing →
      ((s.ring.fill slot nodeID pageNO).desc i).status = .flushing := fun hi =>
    hold hi (ne_of_status hi hres (by decide))
  refine ⟨fun i hi => hmark (h.marked i hi), h.apart,
    fun m hm => ⟨(h.flight m hm).1, fun i hi => hmark ((h.flight m hm).2 i hi)⟩, ?_, ?_⟩
  · intro x hx
    have hx' := List.mem_of_mem_erase hx
    apply hold (h.copying x hx')
    intro heq
    -- no two copies are under way to one slot
    have hsame := List.inj_on_of_nodup_map h.nodup hx' hmem heq
    rw [hsame] at hx
    exact (List.Nodup.of_map _ h.nodup).not_mem_erase hx
  · exact h.nodup.sublist (List.erase_sublist.map _)

/-- A flush takes filled slots, and none of those that are stuck. -/
theorem flushBegin (h : Stays stuck s) (hs : s.flushBegin total nodeID = some s') :
    Stays stuck s' := by
  obtain ⟨-, rfl | ⟨count, hcount, hrun, rfl⟩⟩ := flushBegin_cases hs
  · exact h
  have hslots : ∀ i, s.ring.head ≤ i ∧ i < s.ring.head + count →
      (s.ring.desc i).status = .filled := by
    rintro i ⟨h1, h2⟩
    have hfilled := hrun.filled (i - s.ring.head).toNat (by omega)
    rwa [Int.toNat_of_nonneg (by omega), add_sub_cancel] at hfilled
  have hold : ∀ {i : ℤ} {a : BuffStatus}, (s.ring.desc i).status = a → a ≠ .filled →
      ((s.afterFlush total nodeID count).ring.desc i).status = a := by
    intro i a hi ha
    change (WriteOut.markFlushing _ _ _ _).status = a
    rw [WriteOut.markFlushing_status, if_neg]
    · exact hi
    · exact fun hin => ha (hi.symm.trans (hslots i hin))
  refine ⟨fun i hi => hold (h.marked i hi) (by decide), ?_, ?_,
    fun x hx => hold (h.copying x hx) (by decide), h.nodup⟩
  · intro m hm i hi hin
    obtain rfl : s.wrte total nodeID count = m := Option.some.inj hm
    have hfilled := hslots i (PageWrte.mem_slots.mp hi)
    exact absurd ((h.marked i hin).symm.trans hfilled) (by decide)
  · intro m hm
    obtain rfl : s.wrte total nodeID count = m := Option.some.inj hm
    refine ⟨hcount, fun i hi => ?_⟩
    have hin : s.ring.head ≤ i ∧ i < s.ring.head + count := PageWrte.mem_slots.mp hi
    change (WriteOut.markFlushing _ _ _ _).status = _
    rw [WriteOut.markFlushing_status, if_pos hin]

theorem flushEnd (h : Stays stuck s) (hs : s.flushEnd = some s') : Stays stuck s' := by
  obtain ⟨m, hm, rfl⟩ := Option.map_eq_some_iff.mp hs
  have hold : ∀ {i : ℤ} {a : BuffStatus}, (s.ring.desc i).status = a → i ∉ m.slots →
      ((s.ring.freeBuff m.bufIDX m.size).desc i).status = a := by
    intro i a hi hnot
    rw [WriteOut.freeBuff_desc, if_neg (mt PageWrte.mem_slots.mpr hnot)]
    exact hi
  refine ⟨fun i hi => hold (h.marked i hi) fun hin => h.apart m hm i hin hi,
    fun _ hnone => absurd hnone (by simp), fun _ hnone => absurd hnone (by simp), ?_, h.nodup⟩
  intro x hx
  apply hold (h.copying x hx)
  intro hin
  exact absurd ((h.copying x hx).symm.trans ((h.flight m hm).2 _ hin)) (by decide)

/-- **Every step on the ring keeps it.** -/
theorem next (h : Stays stuck s) {a : Fifo.Step} (hs : s.next total nodeID a = some s') :
    Stays stuck s' := by
  cases a with
  | reserve pageNO => exact h.reserve hs
  | fill slot pageNO => exact h.fill hs
  | flushBegin => exact h.flushBegin hs
  | flushEnd => exact h.flushEnd hs

/-- The slots of a write that is given up join the stuck ones. -/
theorem refuse (h : Stays stuck s) {m : PageWrte} (hm : s.inflight = some m) :
    Stays (m.slots ++ stuck) { s with inflight := none } where
  marked := by
    intro i hi
    rcases List.mem_append.mp hi with hi | hi
    · exact (h.flight m hm).2 i hi
    · exact h.marked i hi
  apart := fun _ hnone => absurd hnone (by simp)
  flight := fun _ hnone => absurd hnone (by simp)
  copying := h.copying
  nodup := h.nodup

end Stays

end Fifo

/-! ### Transfers that are refused -/

namespace Node

variable {α : Type}

/-- `COMEX_read_from_remote` with its `PAGE_READ` refused: the page is copied from the read-in
buffer as it is, and the descriptors are filled. -/
def readFromRemoteRefused (cfg : Config) (s : Node α) (nodeID pageNO : ℤ) : α × Node α :=
  let buffIDX := pageNO.tmod cfg.totalReadIn
  let buffFLR := preFFloor buffIDX
  let pageFLR := preFFloor pageNO
  let readIn := fun k =>
    if buffFLR ≤ k ∧ k < buffFLR + preFSize then ⟨.filled, nodeID, pageFLR + (k - buffFLR)⟩
    else s.readIn k
  (s.space (getReadInBuff cfg buffIDX), { s with readIn := readIn })

/-- It leaves what a read leaves, except for the bytes. -/
theorem readFromRemoteRefused_snd (cfg : Config) (s : Node α) (nodeID pageNO : ℤ) :
    (s.readFromRemoteRefused cfg nodeID pageNO).2 =
      { (s.readFromRemote cfg nodeID pageNO).2 with space := s.space } := rfl

/-- A swap-in that finds the page leaves the descriptors as they are. -/
theorem swapIn_readIn (cfg : Config) (s : Node α) (nodeID pageNO : ℤ) :
    (s.swapIn cfg nodeID pageNO).2.readIn =
      if (s.readFromBuffer cfg nodeID pageNO).isNone = true ∧
          (s.readFromPreFetch cfg nodeID pageNO).isNone = true then
        (s.readFromRemote cfg nodeID pageNO).2.readIn
      else s.readIn := by
  unfold swapIn
  cases s.readFromBuffer cfg nodeID pageNO with
  | some a => rfl
  | none => cases s.readFromPreFetch cfg nodeID pageNO <;> rfl

end Node

/-- The slots of the read-in cache that the group of a page goes to. -/
def InGroup (cfg : Config) (p k : ℤ) : Prop :=
  preFFloor (p.tmod cfg.totalReadIn) ≤ k ∧ k < preFFloor (p.tmod cfg.totalReadIn) + preFSize

instance (cfg : Config) (p k : ℤ) : Decidable (InGroup cfg p k) :=
  inferInstanceAs (Decidable (_ ∧ _))

namespace Memory

variable {α : Type}

/-- A swap-in of the page goes to the memory node. -/
def Missed (cfg : Config) (s : Memory α) (n p : ℤ) : Prop :=
  (s.node.readFromBuffer cfg n p).isNone = true ∧ (s.node.readFromPreFetch cfg n p).isNone = true

instance (cfg : Config) (s : Memory α) (n p : ℤ) : Decidable (s.Missed cfg n p) :=
  inferInstanceAs (Decidable (_ ∧ _))

/-- Only `COMEX_void_preFetch` and `COMEX_read_from_remote` change descriptors of the read-in
cache. -/
theorem step_readIn {cfg : Config} {s s' : Memory α} {a : Step α}
    (hs : s.step cfg a = some s') :
    match a with
    | .reserve _ | .swapIn _ _ => True
    | _ => s'.readIn = s.readIn := by
  obtain ⟨-, hs⟩ := Option.ite_none_right_eq_some.mp hs
  cases a with
  | reserve n => trivial
  | swapIn n p => trivial
  | land n =>
    simp only at hs
    split at hs
    · cases hs
    · obtain ⟨m, -, rfl⟩ := Option.map_eq_some_iff.mp hs
      rfl
  | flushEnd n =>
    obtain ⟨-, hs⟩ := Option.ite_none_right_eq_some.mp hs
    obtain ⟨t, -, rfl⟩ := Option.map_eq_some_iff.mp hs
    rfl
  | pageReceive n p k =>
    obtain ⟨t, -, rfl⟩ := Option.map_eq_some_iff.mp hs
    rfl
  | fill n slot p a =>
    obtain ⟨t, -, rfl⟩ := Option.map_eq_some_iff.mp hs
    rfl
  | flushBegin n =>
    obtain ⟨t, -, rfl⟩ := Option.map_eq_some_iff.mp hs
    rfl

/-- The `PAGE_WRTE` under way is refused: `COMEX_RDMA_fn` returns before `COMEX_free_buff`, and
`COMEX_flush_buff` releases `pos_mutex`. -/
def refuseWrite (s : Memory α) (n : ℤ) : Option (Memory α × PageWrte) :=
  if s.landed n then none
  else (s.traffic.fifo n).inflight.map fun m =>
    ({ s with traffic := s.traffic.setFifo n { s.traffic.fifo n with inflight := none } }, m)

/-- A swap-in whose `PAGE_READ` is refused; `COMEX_free_to_remote` is called after it all the
same. -/
def refuseRead (cfg : Config) (s : Memory α) (n p : ℤ) : Option (Memory α) :=
  if s.Missed cfg n p then
    (s.traffic.step cfg (.swapIn n p)).map fun t =>
      let r := s.node.readFromRemoteRefused cfg n p
      { s with
        traffic := t
        readIn := r.2.readIn
        looks := s.looks ++
          ((s.waiting n).filter fun x => x.pageNO = p).map fun x => ⟨x.content, none, r.1⟩ }
  else none

end Memory

/-- The traffic of a node whose transfers may be refused. -/
structure Faulty (α : Type) where
  memory : Memory α
  /-- History: the slots of refused writes, by memory node. -/
  stuck : ℤ → List ℤ
  /-- History: the page whose bytes were transferred last to a slot of the read-in cache,
  until its number is given to another page. -/
  held : ℤ → Option (ℤ × ℤ)
  /-- History: the last read for the slot was not refused. -/
  fresh : ℤ → Bool

namespace Faulty

variable {α : Type}

/-- A step of the traffic, or a transfer that is refused. -/
inductive Step (α : Type)
  | run (a : Memory.Step α)
  | refuseWrite (nodeID : ℤ)
  | refuseRead (nodeID pageNO : ℤ)
  deriving DecidableEq, Repr

/-- The state after `COMEX_init_Remote`. -/
def init (space : ℤ → α) (remote : ℤ → ℤ → α) : Faulty α where
  memory := .init space remote
  stuck _ := []
  held _ := none
  fresh _ := false

/-- What a step of the traffic transfers to the read-in cache; a page number that is handed
out is for other bytes from then on. -/
def arrive (cfg : Config) (s : Faulty α) : Memory.Step α → Faulty α
  | .swapIn n p =>
    if s.memory.Missed cfg n p then
      { s with
        held := fun k =>
          if InGroup cfg p k then
            some (n, preFFloor p + (k - preFFloor (p.tmod cfg.totalReadIn)))
          else s.held k
        fresh := fun k => if InGroup cfg p k then true else s.fresh k }
    else s
  | .reserve n =>
    match (s.memory.traffic.group n).freelistGetpage with
    | some (p, _) =>
      { s with held := fun k => if s.held k = some (n, p) then none else s.held k }
    | none => s
  | _ => s

/-- One step, if it is enabled. -/
def step (cfg : Config) (s : Faulty α) : Step α → Option (Faulty α)
  | .run a => (s.memory.step cfg a).map fun t => { s.arrive cfg a with memory := t }
  | .refuseWrite n =>
    if 0 ≤ n ∧ n < cfg.totalNodes then
      (s.memory.refuseWrite n).map fun r =>
        { s with
          memory := r.1
          stuck := Function.update s.stuck n (r.2.slots ++ s.stuck n) }
    else none
  | .refuseRead n p =>
    if 0 ≤ n ∧ n < cfg.totalNodes then
      (s.memory.refuseRead cfg n p).map fun t =>
        { s with
          memory := t
          fresh := fun k => if InGroup cfg p k then false else s.fresh k }
    else none

/-- No `PAGE_READ` is refused. -/
def Served (_ : Faulty α) : Step α → Prop
  | .refuseRead _ _ => False
  | _ => True

instance (s : Faulty α) (a : Step α) : Decidable (s.Served a) :=
  match a with
  | .run _ | .refuseWrite _ => inferInstanceAs (Decidable True)
  | .refuseRead _ _ => inferInstanceAs (Decidable False)

/-- The states of a node whose steps satisfy a guard. -/
abbrev Reach (cfg : Config) (space : ℤ → α) (remote : ℤ → ℤ → α)
    (ok : Faulty α → Step α → Prop) (s : Faulty α) : Prop :=
  Machine.Reach (.ofPartial (init space remote) (step cfg)) ok s

/-- The states that may follow. -/
abbrev Later (cfg : Config) (s t : Faulty α) : Prop :=
  Machine.Reach (.ofPartial s (step cfg)) Machine.free t

/-- After a refused write `m` its pages are found in the ring with their contents, and their
slots can still get into a `PAGE_WRTE`. -/
structure WriteIntact (cfg : Config) (n : ℤ) (m : PageWrte) (s : Faulty α) : Prop where
  found : ∀ i ∈ m.slots,
    s.memory.node.readFromBuffer cfg n ((s.memory.traffic.fifo n).ring.desc i).pageNO =
      some (s.memory.space (getWriteOutBuff cfg.totalWriteOut n i))
  flushable : ∀ i ∈ m.slots, ∃ t, Later cfg s t ∧
    ∃ m', (t.memory.traffic.fifo n).inflight = some m' ∧ i ∈ m'.slots

/-- The caller of a read of page `p` of node `n`, which starts in `s` and is refused, does not
get bytes of another page: it gets what the slot of the page held. -/
def ResultIntact (cfg : Config) (n p : ℤ) (s : Faulty α) : Prop :=
  ∀ q, s.held (p.tmod cfg.totalReadIn) = some q → q = (n, p)

/-- After a refused read, which leads from `s` to `s'`, the filled descriptors are for pages
that the read which filled them transferred. -/
structure ReadIntact (cfg : Config) (n p : ℤ) (s s' : Faulty α) : Prop where
  transferred : ∀ k, (s'.memory.readIn k).status = .filled → s'.fresh k = true
  result : ResultIntact cfg n p s

/-- After a refused read the slots of the filled descriptors hold the bytes of their pages,
whichever read brought them. -/
structure ReadKept (cfg : Config) (n p : ℤ) (s s' : Faulty α) : Prop where
  transferred : ∀ k, (s'.memory.readIn k).status = .filled →
    s'.held k = some ((s'.memory.readIn k).nodeID, (s'.memory.readIn k).pageNO)
  result : ResultIntact cfg n p s

/-! ### What becomes of the slots -/

section Steps

variable {cfg : Config} {space : ℤ → α} {remote : ℤ → ℤ → α} {ok : Faulty α → Step α → Prop}
  {s s' t : Faulty α} {n p : ℤ}

/-- The slots of refused writes stay as they are. -/
def Inv (s : Faulty α) : Prop := ∀ n, (s.memory.traffic.fifo n).Stays (s.stuck n)

theorem arrive_stuck (s : Faulty α) (a : Memory.Step α) : (s.arrive cfg a).stuck = s.stuck := by
  cases a with
  | swapIn n p =>
    rw [arrive]
    split <;> rfl
  | reserve n =>
    rw [arrive]
    split <;> rfl
  | _ => rfl

/-- A refused write ends the transfer under way, and its slots are stuck. -/
theorem refuseWrite_eq (hs : s.step cfg (.refuseWrite n) = some s') :
    ∃ m, (s.memory.traffic.fifo n).inflight = some m ∧
      s'.memory.traffic =
        s.memory.traffic.setFifo n { s.memory.traffic.fifo n with inflight := none } ∧
      s'.stuck = Function.update s.stuck n (m.slots ++ s.stuck n) := by
  obtain ⟨-, hs⟩ := Option.ite_none_right_eq_some.mp hs
  obtain ⟨r, hr, rfl⟩ := Option.map_eq_some_iff.mp hs
  unfold Memory.refuseWrite at hr
  split at hr
  · cases hr
  obtain ⟨m, hm, rfl⟩ := Option.map_eq_some_iff.mp hr
  exact ⟨m, hm, rfl, rfl⟩

/-- A refused read is a swap-in of the traffic, fills the descriptors of its group and transfers
nothing. -/
theorem refuseRead_eq (hs : s.step cfg (.refuseRead n p) = some s') :
    s.memory.traffic.step cfg (.swapIn n p) = some s'.memory.traffic ∧ s'.stuck = s.stuck ∧
      s'.memory.space = s.memory.space ∧ s.memory.Missed cfg n p ∧ s'.held = s.held ∧
      ∀ k, InGroup cfg p k → (s'.memory.readIn k).status = .filled ∧ s'.fresh k = false := by
  obtain ⟨-, hs⟩ := Option.ite_none_right_eq_some.mp hs
  obtain ⟨t, ht, rfl⟩ := Option.map_eq_some_iff.mp hs
  unfold Memory.refuseRead at ht
  split at ht
  swap
  · cases ht
  next hmiss =>
  obtain ⟨u, hu, rfl⟩ := Option.map_eq_some_iff.mp ht
  refine ⟨hu, rfl, rfl, hmiss, rfl, fun k hk => ?_⟩
  refine ⟨?_, if_pos hk⟩
  change (if InGroup cfg p k then _ else _ : BuffDesc).status = .filled
  rw [if_pos hk]

theorem Inv.traffic (h : Inv s) {a : Traffic.Step}
    (hs : s.memory.traffic.step cfg a = some s'.memory.traffic) (hstuck : s'.stuck = s.stuck) :
    Inv s' := by
  intro n
  rw [hstuck]
  rcases Traffic.step_fifo hs n with hsame | ⟨b, hb⟩
  · rw [hsame]
    exact h n
  · exact (h n).next hb

/-- **Every step keeps it**, and no slot gets out of the stuck ones. -/
theorem Inv.step (h : Inv s) {a : Step α} (hs : s.step cfg a = some s') :
    Inv s' ∧ ∀ n, ∀ i ∈ s.stuck n, i ∈ s'.stuck n := by
  cases a with
  | run a =>
    -- no step of the node itself touches the stuck slots
    obtain ⟨t, ht, rfl⟩ := Option.map_eq_some_iff.mp hs
    have hstuck : (s.arrive cfg a).stuck = s.stuck := arrive_stuck s a
    refine ⟨?_, fun n i hi => by rw [← hstuck] at hi; exact hi⟩
    rcases (Memory.step_cases ht).1 with hsame | ⟨b, hb⟩
    · intro n
      change (t.traffic.fifo n).Stays ((s.arrive cfg a).stuck n)
      rw [hsame, hstuck]
      exact h n
    · exact h.traffic hb hstuck
  | refuseWrite n =>
    -- the slots that were under way join them
    obtain ⟨m, hm, htraffic, hstuck⟩ := refuseWrite_eq hs
    constructor
    · intro k
      rw [htraffic, hstuck]
      change (Function.update s.memory.traffic.fifo n _ k).Stays (Function.update s.stuck n _ k)
      by_cases hk : k = n
      · rw [hk, Function.update_self, Function.update_self]
        exact (h n).refuse hm
      · rw [Function.update_of_ne hk, Function.update_of_ne hk]
        exact h k
    · intro k i hi
      rw [hstuck]
      by_cases hk : k = n
      · rw [hk] at hi ⊢
        rw [Function.update_self]
        exact List.mem_append_right _ hi
      · rw [Function.update_of_ne hk]
        exact hi
  | refuseRead n p =>
    obtain ⟨htraffic, hstuck, -⟩ := refuseRead_eq hs
    exact ⟨h.traffic htraffic hstuck, fun n i hi => by rw [hstuck]; exact hi⟩

theorem reach_inv (h : Reach cfg space remote ok s) : Inv s := by
  refine h.invariant ?_ fun _ _ _ _ hinv _ hs => (hinv.step hs).1
  rintro s rfl
  exact fun _ => .init

/-- A stuck slot is stuck for ever: it stays marked and gets into no `PAGE_WRTE`. -/
theorem Inv.later (h : Inv s) (ht : Later cfg s t) {i : ℤ} (hi : i ∈ s.stuck n) :
    ((t.memory.traffic.fifo n).ring.desc i).status = .flushing ∧
      ∀ m, (t.memory.traffic.fifo n).inflight = some m → i ∉ m.slots := by
  have hboth : Inv t ∧ i ∈ t.stuck n := by
    refine ht.invariant (I := fun t => Inv t ∧ i ∈ t.stuck n) ?_ ?_
    · rintro t rfl
      exact ⟨h, hi⟩
    · intro t a t' _ hinv _ hs
      obtain ⟨hnext, hmem⟩ := hinv.1.step hs
      exact ⟨hnext, hmem n i hinv.2⟩
  obtain ⟨hinv, hin⟩ := hboth
  exact ⟨(hinv n).marked i hin, fun m hm hslot => (hinv n).apart m hm i hslot hin⟩

/-- **The slots of a refused write are marked for ever**, and there is at least one. -/
theorem refuseWrite_stuck (h : Reach cfg space remote ok s)
    (hs : s.step cfg (.refuseWrite n) = some s') :
    ∃ m, (s.memory.traffic.fifo n).inflight = some m ∧ 0 < m.size ∧
      ∀ i ∈ m.slots, ∀ t, Later cfg s' t →
        ((t.memory.traffic.fifo n).ring.desc i).status = .flushing ∧
          ∀ m', (t.memory.traffic.fifo n).inflight = some m' → i ∉ m'.slots := by
  have hinv := reach_inv h
  obtain ⟨m, hm, -, hstuck⟩ := refuseWrite_eq hs
  refine ⟨m, hm, ((hinv n).flight m hm).1, fun i hi t ht => (hinv.step hs).1.later ht ?_⟩
  rw [hstuck, Function.update_self]
  exact List.mem_append_left _ hi

/-! ### What the slots hold -/

/-- A slot that holds the bytes of a page has a descriptor for it. -/
def Described (s : Faulty α) : Prop :=
  ∀ k q, s.held k = some q → s.memory.readIn k = ⟨.filled, q.1, q.2⟩

/-- Where a page number is handed out, its descriptor is voided. -/
theorem Described.reserve (h : Described s) (hs : s.step cfg (.run (.reserve n)) = some s') :
    Described s' := by
  obtain ⟨t, ht, rfl⟩ := Option.map_eq_some_iff.mp hs
  obtain ⟨-, ht⟩ := Option.ite_none_right_eq_some.mp ht
  obtain ⟨⟨p, g⟩, hpage, ht⟩ := Option.bind_eq_some_iff.mp ht
  obtain ⟨u, -, rfl⟩ := Option.map_eq_some_iff.mp ht
  intro k q hq
  have hkept : s.held k ≠ some (n, p) ∧ s.held k = some q := by
    simp only [arrive, hpage] at hq
    split at hq
    · cases hq
    · next hne => exact ⟨hne, hq⟩
  obtain ⟨hne, hheld⟩ := hkept
  have hdesc := h k q hheld
  change (if _ then _ else _ : ℤ → BuffDesc) k = _
  split
  · next hvoid =>
    -- the voided slot is another one
    rw [Function.update_of_ne]
    · exact hdesc
    · rintro rfl
      change (s.memory.readIn _).nodeID = n ∧ (s.memory.readIn _).pageNO = p at hvoid
      rw [hdesc] at hvoid
      obtain ⟨rfl, rfl⟩ := hvoid
      exact hne hheld
  · exact hdesc

/-- A read fills the descriptors of the slots that it transfers to. -/
theorem Described.swapIn (h : Described s) (hs : s.step cfg (.run (.swapIn n p)) = some s') :
    Described s' := by
  obtain ⟨t, ht, rfl⟩ := Option.map_eq_some_iff.mp hs
  obtain ⟨-, ht⟩ := Option.ite_none_right_eq_some.mp ht
  obtain ⟨u, -, rfl⟩ := Option.map_eq_some_iff.mp ht
  intro k q hq
  change (s.memory.node.swapIn cfg n p).2.readIn k = _
  rw [Node.swapIn_readIn]
  simp only [arrive] at hq
  split at hq
  · next hmiss =>
    unfold Memory.Missed at hmiss
    rw [if_pos hmiss]
    change (if InGroup cfg p k then _ else _ : BuffDesc) = _
    by_cases hk : InGroup cfg p k
    · simp only [if_pos hk] at hq ⊢
      rw [← Option.some.inj hq]
    · simp only [if_neg hk] at hq ⊢
      exact h k q hq
  · next hmiss =>
    unfold Memory.Missed at hmiss
    rw [if_neg hmiss]
    exact h k q hq

/-- **While no read is refused, what a slot holds is what its descriptor says.** -/
theorem Described.next (h : Described s) {a : Step α} (hok : s.Served a)
    (hs : s.step cfg a = some s') : Described s' := by
  cases a with
  | run a =>
    have hrun := hs
    obtain ⟨t, ht, rfl⟩ := Option.map_eq_some_iff.mp hs
    have hsame := Memory.step_readIn ht
    cases a with
    | reserve n => exact h.reserve hrun
    | swapIn n p => exact h.swapIn hrun
    | pageReceive n p k => exact fun k q hq => hsame ▸ h k q hq
    | fill n slot p a => exact fun k q hq => hsame ▸ h k q hq
    | flushBegin n => exact fun k q hq => hsame ▸ h k q hq
    | land n => exact fun k q hq => hsame ▸ h k q hq
    | flushEnd n => exact fun k q hq => hsame ▸ h k q hq
  | refuseWrite n =>
    obtain ⟨-, hs⟩ := Option.ite_none_right_eq_some.mp hs
    obtain ⟨r, hr, rfl⟩ := Option.map_eq_some_iff.mp hs
    unfold Memory.refuseWrite at hr
    split at hr
    · cases hr
    obtain ⟨m, -, rfl⟩ := Option.map_eq_some_iff.mp hr
    exact h
  | refuseRead n p => exact hok.elim

theorem reach_described (h : Reach cfg space remote Served s) : Described s := by
  refine h.invariant ?_ fun _ _ _ _ hinv hok hs => hinv.next hok hs
  rintro s rfl k q hq
  cases hq

/-- **Every refused transfer corrupts**, in every reachable state: the slots of a refused write
are stuck, and a refused read fills descriptors for bytes that it has not transferred.  The
first read that is refused corrupts even if earlier transfers count. -/
theorem refused_corrupts (cfg : Config) (space : ℤ → α) (remote : ℤ → ℤ → α) :
    (∀ s, Reach cfg space remote Machine.free s →
      (∀ n s', s.step cfg (.refuseWrite n) = some s' →
        ∃ m, (s.memory.traffic.fifo n).inflight = some m ∧ ¬ WriteIntact cfg n m s') ∧
      ∀ n p s', s.step cfg (.refuseRead n p) = some s' → ¬ ReadIntact cfg n p s s') ∧
    ∀ s, Reach cfg space remote Served s → ∀ n p s',
      s.step cfg (.refuseRead n p) = some s' → ¬ ReadKept cfg n p s s' := by
  have hgroup : ∀ p, InGroup cfg p (p.tmod cfg.totalReadIn) := fun p => Node.floor_le _
  refine ⟨fun s h => ⟨?_, ?_⟩, ?_⟩
  · intro n s' hs
    obtain ⟨m, hm, hsize, hstuck⟩ := refuseWrite_stuck h hs
    refine ⟨m, hm, fun hintact => ?_⟩
    have hfirst : m.bufIDX ∈ m.slots := PageWrte.mem_slots.mpr (by omega)
    obtain ⟨t, ht, m', hm', hin⟩ := hintact.flushable _ hfirst
    exact (hstuck _ hfirst t ht).2 m' hm' hin
  · intro n p s' hs hintact
    obtain ⟨-, -, -, -, -, hslots⟩ := refuseRead_eq hs
    obtain ⟨hfilled, hfresh⟩ := hslots _ (hgroup p)
    exact Bool.false_ne_true (hfresh.symm.trans (hintact.transferred _ hfilled))
  · intro s h n p s' hs hkept
    obtain ⟨-, -, -, hmiss, hheld, hslots⟩ := refuseRead_eq hs
    obtain ⟨hfilled, -⟩ := hslots _ (hgroup p)
    have hold := hkept.transferred _ hfilled
    rw [hheld] at hold
    have hpage := hkept.result _ hold
    -- the page was there, and its read went to the memory node
    have hdesc := reach_described h _ _ hold
    rw [hpage] at hdesc
    have hhit : s.memory.node.readFromPreFetch cfg n p =
        some (s.memory.space (getReadInBuff cfg (p.tmod cfg.totalReadIn))) := by
      apply if_pos
      change (s.memory.readIn _).status = _ ∧ (s.memory.readIn _).nodeID = _ ∧
        (s.memory.readIn _).pageNO = _
      rw [hdesc]
      exact ⟨rfl, rfl, rfl⟩
    rw [Memory.Missed, hhit] at hmiss
    exact Bool.false_ne_true hmiss.2

end Steps

/-- The theorem where page 0 is written out and where it is read: both are refused. -/
theorem refused_corrupts_page : ∃ s : Faulty ℕ,
    Reach smallConfig (fun _ => 0) (fun _ _ => 0) Served s ∧
    (∃ s', s.step smallConfig (.refuseWrite 0) = some s' ∧
      ∃ m, (s.memory.traffic.fifo 0).inflight = some m ∧ ¬ WriteIntact smallConfig 0 m s') ∧
    ∃ s', s.step smallConfig (.refuseRead 0 0) = some s' ∧ ¬ ReadIntact smallConfig 0 0 s s' ∧
      ¬ ReadKept smallConfig 0 0 s s' := by
  obtain ⟨s, hs, hwrite, hread⟩ := Machine.exists_reach_of_exec
    (init (fun _ => 0) (fun _ _ => 0) : Faulty ℕ) Served (step smallConfig)
    (fun s => (s.step smallConfig (.refuseWrite 0)).isSome = true ∧
      (s.step smallConfig (.refuseRead 0 0)).isSome = true)
    [.run (.pageReceive 0 0 0), .run (.pageReceive 0 16 0), .run (.reserve 0),
      .run (.fill 0 0 0 7), .run (.reserve 0), .run (.fill 0 1 16 9), .run (.flushBegin 0)]
    (by decide)
  obtain ⟨w, hw⟩ := Option.isSome_iff_exists.mp hwrite
  obtain ⟨r, hr⟩ := Option.isSome_iff_exists.mp hread
  obtain ⟨hany, hfirst⟩ := refused_corrupts smallConfig (fun _ => 0 : ℤ → ℕ) (fun _ _ => 0)
  obtain ⟨hwrites, hreads⟩ := hany s (hs.mono fun _ _ _ => trivial)
  exact ⟨s, hs, ⟨w, hw, hwrites 0 w hw⟩, r, hr, hreads 0 0 r hr, hfirst s hs 0 0 r hr⟩

/-- Page 0 is being written when the write is refused: it is not found any more.  Later, the
slot of page 0 holds page 16 when the read of page 0 is refused, and its caller gets that one's
bytes. -/
theorem not_intact :
    (¬ ∀ s : Faulty ℕ, Reach smallConfig (fun _ => 0) (fun _ _ => 0) Machine.free s →
      ∀ n s', s.step smallConfig (.refuseWrite n) = some s' →
        ∃ m, (s.memory.traffic.fifo n).inflight = some m ∧ WriteIntact smallConfig n m s') ∧
    ¬ ∀ s : Faulty ℕ, Reach smallConfig (fun _ => 0) (fun _ _ => 0) Machine.free s →
      ∀ n p s', s.step smallConfig (.refuseRead n p) = some s' →
        ReadIntact smallConfig n p s s' ∧ ReadKept smallConfig n p s s' := by
  constructor
  · intro h
    obtain ⟨s, hs, hm, hbad⟩ := Machine.exists_reach_of_exec
      (init (fun _ => 0) (fun _ _ => 0) : Faulty ℕ) Machine.free (step smallConfig)
      (fun s => (s.memory.traffic.fifo 0).inflight = some ⟨0, 0, 1, 0⟩ ∧
        (s.step smallConfig (.refuseWrite 0)).any (fun s' =>
          ((s'.memory.traffic.fifo 0).ring.desc 0).pageNO = 0 ∧
            s'.memory.node.readFromBuffer smallConfig 0 0 = none) = true)
      [.run (.pageReceive 0 0 0), .run (.pageReceive 0 16 0), .run (.reserve 0),
        .run (.fill 0 0 0 7), .run (.reserve 0), .run (.fill 0 1 16 9), .run (.flushBegin 0)]
      (by decide)
    obtain ⟨s', hs', hbad⟩ := (Option.any_eq_true _ _).mp hbad
    obtain ⟨hpage, hnone⟩ := of_decide_eq_true hbad
    obtain ⟨m, hm', hintact⟩ := h s hs 0 s' hs'
    obtain rfl : _ = m := Option.some.inj (hm.symm.trans hm')
    have hfound := hintact.found 0 (by decide)
    rw [hpage, hnone] at hfound
    cases hfound
  · intro h
    obtain ⟨s, hs, hstep, hheld, hbytes⟩ := Machine.exists_reach_of_exec
      (init (fun _ => 0) (fun _ _ => 0) : Faulty ℕ) Machine.free (step smallConfig)
      (fun s => (s.step smallConfig (.refuseRead 0 0)).isSome = true ∧ s.held 0 = some (0, 16) ∧
        s.memory.remote 0 0 = 7 ∧ (s.memory.node.readFromRemoteRefused smallConfig 0 0).1 = 9)
      [.run (.pageReceive 0 0 0), .run (.pageReceive 0 16 0), .run (.reserve 0),
        .run (.fill 0 0 0 7), .run (.reserve 0), .run (.fill 0 1 16 9),
        .run (.flushBegin 0), .run (.land 0), .run (.flushEnd 0),
        .run (.flushBegin 0), .run (.land 0), .run (.flushEnd 0), .run (.swapIn 0 16)]
      (by decide)
    obtain ⟨s', hs'⟩ := Option.isSome_iff_exists.mp hstep
    exact absurd ((h s hs 0 0 s' hs').1.result (0, 16) hheld) (by decide)

end Faulty
end Comex
