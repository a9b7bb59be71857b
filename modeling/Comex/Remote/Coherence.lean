import Comex.Lib.Runs
import Comex.Remote.Node

/-!
# Coherence of remote swap

A page that was swapped out and not swapped in since can be in three places: a
filled slot of the ring, a read-in slot, and the memory of its node.  The reader
looks in that order.  As long as no copy goes stale the first one found is the
latest (`Inv.swapIn_eq`), and three things can make one stale: a page handed out
again while an old copy still waits in the ring, a flush that takes pages for
consecutive that are not, and a read that fetches a neighbour whose latest copy
still waits in the ring.

## Main definitions

* `Op`, `step` — the complete operations of a node.
* `Legal` — what the callers promise.
* `Unstale` — an operation that makes no copy stale.

## Main results

* `moveToRemote_reach` — `COMEX_move_to_Remote` is made of these operations.
* `reach_coherent` — **while every operation is of that kind, a swap-in yields what
  was swapped out last.**
* `not_coherent` — without that condition a swap-in can yield an older content.
-/

namespace Comex
namespace Node

variable {α : Type}

/-- An operation of the node. `COMEX_move_to_Remote` is made of probes that request
and flush, a `store` and a last flush. -/
inductive Op (α : Type)
  | pageReceive (nodeID pageNO : ℤ) (groupSize : ℕ)
  | request (nodeID : ℤ)
  | flush (nodeID : ℤ)
  | store (nodeID : ℤ) (content : α)
  | swapIn (nodeID pageNO : ℤ)
  deriving DecidableEq, Repr

/-- The node an operation is about. -/
def Op.node : Op α → ℤ
  | .pageReceive n _ _ | .request n | .flush n | .store n _ | .swapIn n _ => n

/-- One operation; `none` if it is not enabled or would index an array out of range. -/
def step (cfg : Config) (s : Node α) (op : Op α) : Option (Node α) :=
  if 0 ≤ op.node ∧ op.node < cfg.totalNodes then
    match op with
    | .pageReceive n p k => some (s.pageReceive cfg n p k)
    | .request d => some (s.setGroup d ((s.group d).request cfg.threshold).2)
    | .flush d => some (s.flushBuff cfg d)
    | .store d a => if s.CanStore d then (s.storePage cfg d a).map (·.1) else none
    | .swapIn n p => some (s.swapIn cfg n p).2
  else none

/-- A page the node has been lent and has not given back. -/
def Granted (s : Node α) (n p : ℤ) : Prop := (s.group n).Has p ∨ (s.latest n p).isSome

instance (s : Node α) (n p : ℤ) : Decidable (s.Granted n p) := inferInstanceAs (Decidable (_ ∨ _))

/-- What the callers promise: a block that is received was not granted before, and a
page that is swapped in was swapped out and not swapped in since. -/
def Legal (s : Node α) : Op α → Prop
  | .pageReceive n p k => ∀ i : ℕ, i < 2 ^ k → ¬ s.Granted n (p + i)
  | .swapIn n p => (s.latest n p).isSome
  | _ => True

instance (s : Node α) : (op : Op α) → Decidable (s.Legal op)
  | .pageReceive n p k => inferInstanceAs (Decidable (∀ i : ℕ, i < 2 ^ k → ¬ s.Granted n (p + i)))
  | .swapIn n p => inferInstanceAs (Decidable ((s.latest n p).isSome))
  | .request _ | .flush _ | .store _ _ => inferInstanceAs (Decidable True)

/-- A swap-in yields what was last swapped out to the page. -/
def Coherent (cfg : Config) (s : Node α) : Prop :=
  ∀ n p a, s.latest n p = some a → (s.swapIn cfg n p).1 = a

/-- Slot `i` of the ring of node `n` holds page `p`. -/
def InSlot (cfg : Config) (s : Node α) (n i p : ℤ) : Prop :=
  0 ≤ i ∧ i < cfg.totalWriteOut ∧ ((s.ring n).desc i).status = .filled ∧
    ((s.ring n).desc i).pageNO = p

/-- An operation that leaves no stale copy behind:

* a page that is handed out again waits in no slot of its node's ring;
* the pages of a run that is flushed are consecutive, not only modulo 1024;
* no page that is swapped out and still waits in the ring is fetched as a neighbour. -/
def Unstale (cfg : Config) (s : Node α) : Op α → Prop
  | .store d _ => ∀ p g, (s.group d).freelistGetpage = some (p, g) → ∀ i, ¬ s.InSlot cfg d i p
  | .flush d => (s.ring d).Consecutive cfg.totalWriteOut
  | .swapIn n p => s.readFromBuffer cfg n p = none → s.readFromPreFetch cfg n p = none →
      ∀ q, preFFloor q = preFFloor p → (s.latest n q).isSome → ∀ i, ¬ s.InSlot cfg n i q
  | _ => True

/-- What is said of the pages in the slots is checked slot by slot. -/
theorem forall_inSlot {cfg : Config} {s : Node α} {n : ℤ} {Q : ℤ → Prop} :
    (∀ p, Q p → ∀ i, ¬ s.InSlot cfg n i p) ↔ ∀ i : ℕ, i < cfg.totalWriteOut →
      ((s.ring n).desc i).status = .filled → ¬ Q ((s.ring n).desc i).pageNO := by
  constructor
  · exact fun h i hi hfilled hq => h _ hq i ⟨by omega, by omega, hfilled, rfl⟩
  · rintro h p hq i ⟨h0, hi, hfilled, rfl⟩
    obtain ⟨j, rfl⟩ := Int.eq_ofNat_of_zero_le h0
    exact h j (by omega) hfilled hq

instance (cfg : Config) (s : Node α) : (op : Op α) → Decidable (s.Unstale cfg op)
  | .store d _ => decidable_of_iff (∀ i : ℕ, i < cfg.totalWriteOut →
      ((s.ring d).desc i).status = .filled →
        ¬ (s.group d).freelistGetpage.map Prod.fst = some ((s.ring d).desc i).pageNO) <| by
    rw [← forall_inSlot (Q := fun p => (s.group d).freelistGetpage.map Prod.fst = some p)]
    refine ⟨fun h p g hg => h p (by rw [hg]; rfl), fun h p hp => ?_⟩
    obtain ⟨⟨q, g⟩, hg, rfl⟩ := Option.map_eq_some_iff.mp hp
    exact h q g hg
  | .flush d => inferInstanceAs (Decidable ((s.ring d).Consecutive cfg.totalWriteOut))
  | .swapIn n p => decidable_of_iff (s.readFromBuffer cfg n p = none →
      s.readFromPreFetch cfg n p = none → ∀ i : ℕ, i < cfg.totalWriteOut →
        ((s.ring n).desc i).status = .filled →
          ¬ (preFFloor ((s.ring n).desc i).pageNO = preFFloor p ∧
            (s.latest n ((s.ring n).desc i).pageNO).isSome)) <| by
    rw [← forall_inSlot (Q := fun q => preFFloor q = preFFloor p ∧ (s.latest n q).isSome)]
    exact ⟨fun h h1 h2 q hq hs => h h1 h2 q ⟨hq, hs⟩, fun h h1 h2 q hq => h h1 h2 q hq.1 hq.2⟩
  | .pageReceive _ _ _ | .request _ => inferInstanceAs (Decidable True)

/-- The options for which the descriptors can be indexed: a ring its short positions
can go round, and a read-in cache of whole groups. -/
structure Fits (cfg : Config) : Prop where
  ring_pos : 0 < cfg.totalWriteOut
  ring_short : cfg.totalWriteOut ≤ 32767
  readIn_pos : 0 < cfg.totalReadIn
  readIn_groups : preFSize ∣ cfg.totalReadIn

/-! ### Addresses -/

section Addresses

variable {cfg : Config} {n n' i i' k : ℤ}

/-- A write-out slot determines its node and its index. -/
theorem writeOut_inj (hi : 0 ≤ i ∧ i < cfg.totalWriteOut) (hi' : 0 ≤ i' ∧ i' < cfg.totalWriteOut)
    (h : getWriteOutBuff cfg.totalWriteOut n i = getWriteOutBuff cfg.totalWriteOut n' i') :
    n = n' ∧ i = i' := by
  unfold getWriteOutBuff at h
  have hpos : (cfg.totalWriteOut : ℤ) ≠ 0 := by omega
  have hn : n = n' := by
    have h1 := Int.add_mul_ediv_right i n hpos
    have h2 := Int.add_mul_ediv_right i' n' hpos
    rw [Int.add_comm, h, Int.add_comm, Int.ediv_eq_zero_of_lt hi.1 hi.2] at h1
    rw [Int.ediv_eq_zero_of_lt hi'.1 hi'.2] at h2
    omega
  subst hn
  exact ⟨rfl, by omega⟩

/-- The read-in slots lie behind the write-out slots. -/
theorem writeOut_lt_readIn (hn : n < cfg.totalNodes) (hi : i < cfg.totalWriteOut) (hk : 0 ≤ k) :
    getWriteOutBuff cfg.totalWriteOut n i < getReadInBuff cfg k := by
  unfold getWriteOutBuff getReadInBuff
  have hle : (n + 1) * (cfg.totalWriteOut : ℤ) ≤ cfg.totalNodes * cfg.totalWriteOut :=
    Int.mul_le_mul_of_nonneg_right (by omega) (by omega)
  rw [Int.add_mul] at hle
  rw [Int.mul_comm (cfg.totalWriteOut : ℤ)]
  omega

/-- A page and its read-in slot lie at the same place in their groups of 16. -/
theorem index_eq (h : Fits cfg) {p j : ℤ} (hj : 0 ≤ j) (hj' : j < preFSize) :
    (preFFloor p + j) % cfg.totalReadIn = preFFloor (p % cfg.totalReadIn) + j := by
  obtain ⟨m, hm⟩ := h.readIn_groups
  have hpos := h.readIn_pos
  have hsize : preFSize = 16 := rfl
  have hR : (cfg.totalReadIn : ℤ) = 16 * m := by
    rw [hm, hsize]
    push_cast
    rfl
  have hr := Int.emod_nonneg p (b := cfg.totalReadIn) (by omega)
  have hr' := Int.emod_lt_of_pos p (b := cfg.totalReadIn) (by omega)
  -- whole turns of the cache are whole groups
  have hfloor : preFFloor p =
      preFFloor (p % cfg.totalReadIn) + cfg.totalReadIn * (p / cfg.totalReadIn) := by
    have hdiv := Int.emod_add_mul_ediv p cfg.totalReadIn
    have hgroups : (cfg.totalReadIn : ℤ) * (p / cfg.totalReadIn) =
        16 * (m * (p / cfg.totalReadIn)) := by rw [hR, Int.mul_assoc]
    unfold preFFloor
    generalize p % cfg.totalReadIn = r at *
    generalize (m : ℤ) * (p / cfg.totalReadIn) = t at *
    rw [hsize]
    omega
  unfold preFFloor at hfloor ⊢
  rw [hfloor, Int.add_right_comm, Int.add_mul_emod_self_left]
  rw [hsize] at hj' ⊢
  exact Int.emod_eq_of_lt (by omega) (by omega)

end Addresses

/-! ### The invariant -/

/-- Every copy the reader may find of a page that is swapped out is the latest one. -/
structure Inv (cfg : Config) (s : Node α) : Prop where
  head : ∀ d, 0 ≤ (s.ring d).head ∧ (s.ring d).head < cfg.totalWriteOut
  tail : ∀ d, 0 ≤ (s.ring d).tail ∧ (s.ring d).tail < cfg.totalWriteOut
  pages : ∀ d, ∀ x ∈ (s.group d).groups, 0 ≤ x.1
  home : ∀ n p a, s.latest n p = some a → 0 ≤ n ∧ n < cfg.totalNodes ∧ 0 ≤ p
  inSlot : ∀ n p a, s.latest n p = some a → ∀ i, s.InSlot cfg n i p →
    s.space (getWriteOutBuff cfg.totalWriteOut n i) = a
  away : ∀ n p a, s.latest n p = some a → (∀ i, ¬ s.InSlot cfg n i p) → s.remote n p = a
  fetched : ∀ k, (s.readIn k).status = .filled → 0 ≤ (s.readIn k).pageNO ∧
    k = (s.readIn k).pageNO % cfg.totalReadIn ∧
    ∀ a, s.latest (s.readIn k).nodeID (s.readIn k).pageNO = some a →
      s.space (getReadInBuff cfg k) = a

section SwapIn

variable {cfg : Config} {s : Node α} {n p : ℤ} {a : α}

theorem scanBuffer_spec (m : ℕ) : ∀ i : ℤ, 0 ≤ i → i + m = cfg.totalWriteOut →
    (∀ a, s.scanBuffer cfg n p m i = some a →
      ∃ j, s.InSlot cfg n j p ∧ s.space (getWriteOutBuff cfg.totalWriteOut n j) = a) ∧
    (s.scanBuffer cfg n p m i = none → ∀ j, i ≤ j → ¬ s.InSlot cfg n j p) := by
  induction m with
  | zero =>
    intro i _ hm
    refine ⟨fun a h => absurd h (by simp [scanBuffer]), fun _ j hj hslot => ?_⟩
    have := hslot.2.1
    omega
  | succ m ih =>
    intro i h0 hm
    obtain ⟨hsome, hnone⟩ := ih (i + 1) (by omega) (by omega)
    rw [scanBuffer]
    by_cases hhit : ((s.ring n).desc i).pageNO = p ∧ ((s.ring n).desc i).status = .filled
    · rw [if_pos hhit]
      refine ⟨fun a h => ⟨i, ⟨h0, by omega, hhit.2, hhit.1⟩, Option.some.inj h⟩, fun h => ?_⟩
      exact absurd h (by simp)
    · rw [if_neg hhit]
      refine ⟨hsome, fun h j hj hslot => ?_⟩
      rcases Int.lt_or_eq_of_le hj with hlt | rfl
      · exact hnone h j (by omega) hslot
      · exact hhit ⟨hslot.2.2.2, hslot.2.2.1⟩

/-- A hit in the ring copies some slot that holds the page. -/
theorem readFromBuffer_some (h : s.readFromBuffer cfg n p = some a) :
    ∃ i, s.InSlot cfg n i p ∧ s.space (getWriteOutBuff cfg.totalWriteOut n i) = a :=
  (scanBuffer_spec cfg.totalWriteOut 0 (by omega) (by omega)).1 a h

/-- The ring is missed when no slot holds the page. -/
theorem readFromBuffer_none (h : s.readFromBuffer cfg n p = none) (i : ℤ) :
    ¬ s.InSlot cfg n i p := fun hslot =>
  (scanBuffer_spec cfg.totalWriteOut 0 (by omega) (by omega)).2 h i hslot.1 hslot

theorem readFromPreFetch_some (hp : 0 ≤ p) (h : s.readFromPreFetch cfg n p = some a) :
    (s.readIn (p % cfg.totalReadIn)).status = .filled ∧
      (s.readIn (p % cfg.totalReadIn)).nodeID = n ∧
      (s.readIn (p % cfg.totalReadIn)).pageNO = p ∧
      s.space (getReadInBuff cfg (p % cfg.totalReadIn)) = a := by
  simp only [readFromPreFetch, Int.tmod_eq_emod_of_nonneg hp] at h
  split at h
  · next hhit => exact ⟨hhit.1, hhit.2.1, hhit.2.2, Option.some.inj h⟩
  · exact absurd h (by simp)

theorem floor_le (x : ℤ) : preFFloor x ≤ x ∧ x < preFFloor x + preFSize := by
  have hsize : preFSize = 16 := rfl
  unfold preFFloor
  rw [hsize]
  omega

/-- A page read over the network is the one asked for. -/
theorem readFromRemote_fst (h : Fits cfg) (hp : 0 ≤ p) :
    (s.readFromRemote cfg n p).1 = s.remote n p := by
  have hfloor := floor_le p
  have hfloor' := floor_le (p % cfg.totalReadIn)
  have hidx := index_eq h (p := p) (j := p - preFFloor p) (by omega) (by omega)
  have hp' : preFFloor p + (p - preFFloor p) = p := by omega
  rw [hp'] at hidx
  simp only [readFromRemote, Int.tmod_eq_emod_of_nonneg hp, getReadInBuff]
  rw [if_pos (by omega)]
  congr 1
  omega

/-- **What a swap-in yields** under the invariant. -/
theorem Inv.swapIn_eq (h : Inv cfg s) (hfit : Fits cfg) (ha : s.latest n p = some a) :
    (s.swapIn cfg n p).1 = a := by
  obtain ⟨-, -, hp⟩ := h.home n p a ha
  unfold swapIn
  cases hbuf : s.readFromBuffer cfg n p with
  | some b =>
    obtain ⟨i, hi, hb⟩ := readFromBuffer_some hbuf
    rw [← hb]
    exact h.inSlot n p a ha i hi
  | none =>
    cases hpre : s.readFromPreFetch cfg n p with
    | some b =>
      obtain ⟨hst, hn, hpg, hb⟩ := readFromPreFetch_some hp hpre
      rw [← hb]
      exact (h.fetched _ hst).2.2 a (by rw [hn, hpg]; exact ha)
    | none =>
      change (s.readFromRemote cfg n p).1 = a
      rw [readFromRemote_fst hfit hp]
      exact h.away n p a ha fun i => readFromBuffer_none hbuf i

end SwapIn

/-! ### What the operations do -/

/-- What a flush of `count` slots from the head on does. -/
structure Flushed (cfg : Config) (s : Node α) (d : ℤ) (count : ℕ) (s' : Node α) : Prop where
  desc : ∀ n i, (s'.ring n).desc i =
    if n = d ∧ (s.ring d).head ≤ i ∧ i < (s.ring d).head + count then .empty
    else (s.ring n).desc i
  head : ∀ n, (s'.ring n).head =
    if n = d then ((s.ring d).head + count) % cfg.totalWriteOut else (s.ring n).head
  tail : ∀ n, (s'.ring n).tail = (s.ring n).tail
  remote : ∀ n p, s'.remote n p =
    if n = d ∧ ((s.ring d).desc (s.ring d).head).pageNO ≤ p ∧
      p < ((s.ring d).desc (s.ring d).head).pageNO + count then
      s.space (getWriteOutBuff cfg.totalWriteOut d (s.ring d).head +
        (p - ((s.ring d).desc (s.ring d).head).pageNO))
    else s.remote n p
  space : s'.space = s.space
  readIn : s'.readIn = s.readIn
  latest : s'.latest = s.latest
  group : s'.group = s.group

section Flush

variable {cfg : Config} {s s' : Node α} {d : ℤ} {count : ℕ}

/-- **What `COMEX_flush_buff` does**: nothing, or it flushes a run.  The flush is taken whole
here: its slots are free again, and their pages are at the memory node. -/
theorem flushBuff_spec (hfit : Fits cfg)
    (hhead : 0 ≤ (s.ring d).head ∧ (s.ring d).head < cfg.totalWriteOut) :
    s.flushBuff cfg d = s ∨ ∃ count : ℕ,
      WriteOut.IsRun cfg.totalWriteOut (s.ring d).desc (s.ring d).head count ∧
        Flushed cfg s d count (s.flushBuff cfg d) := by
  unfold Node.flushBuff
  rcases WriteOut.flushBegin_spec cfg.totalWriteOut (s.ring d) d with
    hnone | ⟨count, -, hrun, hsome⟩
  · -- the head slot is not filled
    left
    rw [hnone]
    simp only [setRing, Function.update_eq_self]
  right
  refine ⟨count, hrun, ?_⟩
  rw [hsome]
  simp only
  refine ⟨fun n i => ?_, fun n => ?_, fun n => ?_, fun n p => ?_, rfl, rfl, rfl, rfl⟩
  · rw [setRing_ring]
    by_cases hn : n = d
    · subst hn
      rw [if_pos rfl, WriteOut.freeBuff_desc]
      by_cases hin : (s.ring n).head ≤ i ∧ i < (s.ring n).head + count
      · rw [if_pos hin, if_pos ⟨rfl, hin⟩]
      · rw [if_neg hin, if_neg fun hc => hin hc.2]
        exact if_neg hin
    · rw [if_neg hn, if_neg fun hc => hn hc.1]
      rfl
  · rw [setRing_ring]
    by_cases hn : n = d
    · subst hn
      rw [if_pos rfl, if_pos rfl, WriteOut.freeBuff_head]
      exact WriteOut.advance_eq hfit.ring_short hhead.1 hrun.in_range
    · rw [if_neg hn, if_neg hn]
      rfl
  · rw [setRing_ring]
    by_cases hn : n = d
    · subst hn
      rw [if_pos rfl, WriteOut.freeBuff_tail]
    · rw [if_neg hn]
      rfl
  · simp only [Node.setRing, Node.write, Function.update_apply]
    by_cases hn : n = d
    · subst hn
      simp
    · simp [hn]

/-- A slot holds a page after a flush if it did before and was not in the run. -/
theorem Flushed.inSlot_iff (h : Flushed cfg s d count s') {n i p : ℤ} :
    s'.InSlot cfg n i p ↔ s.InSlot cfg n i p ∧
      ¬ (n = d ∧ (s.ring d).head ≤ i ∧ i < (s.ring d).head + count) := by
  unfold InSlot
  rw [h.desc]
  constructor
  · intro hi
    by_cases hin : n = d ∧ (s.ring d).head ≤ i ∧ i < (s.ring d).head + count
    · rw [if_pos hin] at hi
      exact absurd hi.2.2.1 (by decide)
    · rw [if_neg hin] at hi
      exact ⟨hi, hin⟩
  · rintro ⟨hi, hout⟩
    rw [if_neg hout]
    exact hi

end Flush

/-- What storing content `a` in page `p` of node `d` does. -/
structure Stored (cfg : Config) (s : Node α) (d : ℤ) (a : α) (p : ℤ) (g : FreeGroup)
    (s' : Node α) : Prop where
  desc : ∀ n i, (s'.ring n).desc i =
    if n = d ∧ i = (s.ring d).tail then ⟨.filled, d, p⟩ else (s.ring n).desc i
  head : ∀ n, (s'.ring n).head = (s.ring n).head
  tail : ∀ n, (s'.ring n).tail =
    if n = d then ((s.ring d).tail + 1) % cfg.totalWriteOut else (s.ring n).tail
  space : ∀ k, s'.space k =
    if k = getWriteOutBuff cfg.totalWriteOut d (s.ring d).tail then a else s.space k
  remote : s'.remote = s.remote
  latest : ∀ n q, s'.latest n q = if n = d ∧ q = p then some a else s.latest n q
  group : s'.group = (s.setGroup d g).group
  readIn : s'.readIn = (s.voidPreFetch cfg d p).readIn

section Store

variable {cfg : Config} {s s' : Node α} {d p : ℤ} {a : α} {g : FreeGroup}

/-- **What `COMEX_move_to_Remote` does** with a page that the free list hands out: the slot at the
tail gets it, with the content, and the copy in the read-in cache, if there is one, is voided. -/
theorem storePage_spec (hfit : Fits cfg)
    (htail : 0 ≤ (s.ring d).tail ∧ (s.ring d).tail < cfg.totalWriteOut) {r : Node α × ℤ × ℤ}
    (hr : s.storePage cfg d a = some r) : ∃ p g,
      (s.group d).freelistGetpage = some (p, g) ∧ Stored cfg s d a p g r.1 := by
  unfold Node.storePage at hr
  rw [Option.map_eq_some_iff] at hr
  obtain ⟨⟨p, g⟩, hget, rfl⟩ := hr
  have hadv : (((s.ring d).reserve cfg.totalWriteOut).fill (s.ring d).tail d p).tail =
      ((s.ring d).tail + 1) % cfg.totalWriteOut :=
    WriteOut.advance_eq hfit.ring_short htail.1 (by omega)
  refine ⟨p, g, hget, fun n i => ?_, fun n => ?_, fun n => ?_, fun k => ?_, rfl, fun n q => ?_,
    rfl, rfl⟩
  · by_cases hn : n = d
    · subst hn
      by_cases hi : i = (s.ring n).tail
      · simp [setRing, Node.setGroup, Node.voidPreFetch, WriteOut.fill, hi]
      · simp [setRing, Node.setGroup, Node.voidPreFetch, WriteOut.fill, WriteOut.reserve, hi]
    · simp [setRing, Node.setGroup, Node.voidPreFetch, hn]
  · by_cases hn : n = d
    · subst hn
      simp [setRing, Node.setGroup, Node.voidPreFetch, WriteOut.fill, WriteOut.reserve]
    · simp [setRing, Node.setGroup, Node.voidPreFetch, hn]
  · by_cases hn : n = d
    · subst hn
      rw [if_pos rfl, ← hadv]
      simp [setRing, Node.setGroup, Node.voidPreFetch]
    · simp [setRing, Node.setGroup, Node.voidPreFetch, hn]
  · simp [setRing, Node.setGroup, Node.voidPreFetch, Function.update_apply]
  · by_cases hn : n = d
    · subst hn
      simp [setRing, Node.setGroup, Node.voidPreFetch, Function.update_apply]
    · simp [setRing, Node.setGroup, Node.voidPreFetch, hn]

/-- The slot at the tail holds the page afterwards, the other slots what they held. -/
theorem Stored.inSlot_iff (h : Stored cfg s d a p g s')
    (htail : 0 ≤ (s.ring d).tail ∧ (s.ring d).tail < cfg.totalWriteOut) {n i q : ℤ} :
    s'.InSlot cfg n i q ↔ (n = d ∧ i = (s.ring d).tail ∧ q = p) ∨
      ¬ (n = d ∧ i = (s.ring d).tail) ∧ s.InSlot cfg n i q := by
  unfold InSlot
  rw [h.desc]
  by_cases hin : n = d ∧ i = (s.ring d).tail
  · obtain ⟨rfl, rfl⟩ := hin
    rw [if_pos ⟨rfl, rfl⟩]
    constructor
    · rintro ⟨-, -, -, hq⟩
      exact Or.inl ⟨rfl, rfl, hq.symm⟩
    · rintro (⟨-, -, rfl⟩ | ⟨hne, -⟩)
      · exact ⟨htail.1, htail.2, rfl, rfl⟩
      · exact absurd ⟨rfl, rfl⟩ hne
  · rw [if_neg hin]
    constructor
    · exact fun hi => Or.inr ⟨hin, hi⟩
    · rintro (⟨hn, hi, -⟩ | ⟨-, hi⟩)
      · exact absurd ⟨hn, hi⟩ hin
      · exact hi

end Store

/-! ### Every operation keeps the invariant -/

namespace Inv

variable {cfg : Config} {s : Node α} {d n p : ℤ} {a : α}

theorem init (hfit : Fits cfg) (space : ℤ → α) (remote : ℤ → ℤ → α) :
    Inv cfg (init space remote) where
  head := fun d => ⟨Int.le_refl _, Int.natCast_pos.mpr hfit.ring_pos⟩
  tail := fun d => ⟨Int.le_refl _, Int.natCast_pos.mpr hfit.ring_pos⟩
  pages := fun d x hx => by simp [Node.init, FreeGroup.init] at hx
  home := fun n p a h => by simp [Node.init] at h
  inSlot := fun n p a h => by simp [Node.init] at h
  away := fun n p a h => by simp [Node.init] at h
  fetched := fun k h => by simp [Node.init, BuffDesc.empty] at h

/-- The free lists matter only for the sign of their pages. -/
theorem setGroup (h : Inv cfg s) {g : FreeGroup} (hg : ∀ x ∈ g.groups, 0 ≤ x.1) :
    Inv cfg (s.setGroup d g) where
  head := h.head
  tail := h.tail
  pages := by
    intro d' x hx
    rw [setGroup_group] at hx
    split at hx
    · exact hg x hx
    · exact h.pages d' x hx
  home := h.home
  inSlot := h.inSlot
  away := h.away
  fetched := h.fetched

theorem pageReceive (h : Inv cfg s) {k : ℕ} : Inv cfg (s.pageReceive cfg n p k) := by
  apply h.setGroup
  intro x hx
  have hold := h.pages n
  by_cases hp : 0 ≤ p
  · have hx' : x ∈ (s.group n).groups ++ [(p, p + 2 ^ k - 1)] := by
      simp only [FreeGroup.pageReceive, if_pos hp] at hx
      split at hx <;> exact hx
    rcases List.mem_append.mp hx' with hx' | hx'
    · exact hold x hx'
    · rw [List.mem_singleton.mp hx']
      exact hp
  · simp only [FreeGroup.pageReceive, if_neg hp] at hx
    split at hx <;> exact hold x hx

theorem request (h : Inv cfg s) :
    Inv cfg (s.setGroup d ((s.group d).request cfg.threshold).2) := by
  refine h.setGroup fun x hx => h.pages d x ?_
  unfold FreeGroup.request at hx
  split at hx
  · split at hx <;> exact hx
  · exact hx

/-- Forgetting that a page was swapped out, and touching the batch of freed pages. -/
theorem forget (h : Inv cfg s) (f : ℤ → FreeStruct) :
    Inv cfg { s with
      freeStruct := f
      latest := Function.update s.latest n (Function.update (s.latest n) p none) } := by
  have hlatest : ∀ {n' p' a'}, Function.update s.latest n
      (Function.update (s.latest n) p none) n' p' = some a' → s.latest n' p' = some a' := by
    intro n' p' a' h'
    by_cases hn : n' = n
    · subst hn
      rw [Function.update_self] at h'
      by_cases hp : p' = p
      · subst hp
        rw [Function.update_self] at h'
        exact absurd h' (by simp)
      · rwa [Function.update_of_ne hp] at h'
    · rwa [Function.update_of_ne hn] at h'
  exact
    { head := h.head
      tail := h.tail
      pages := h.pages
      home := fun n' p' a' h' => h.home n' p' a' (hlatest h')
      inSlot := fun n' p' a' h' => h.inSlot n' p' a' (hlatest h')
      away := fun n' p' a' h' => h.away n' p' a' (hlatest h')
      fetched := fun k hk => ⟨(h.fetched k hk).1, (h.fetched k hk).2.1,
        fun a' h' => (h.fetched k hk).2.2 a' (hlatest h')⟩ }

/-- A read over the network fills 16 read-in slots, none of them with a page whose
latest copy is in the ring: such a page would be fetched as it was before its last swap-out. -/
theorem readFromRemote (h : Inv cfg s) (hfit : Fits cfg) (hp : 0 ≤ p)
    (hclean : ∀ q, preFFloor q = preFFloor p → (s.latest n q).isSome →
      ∀ i, ¬ s.InSlot cfg n i q) : Inv cfg (s.readFromRemote cfg n p).2 := by
  have hpos := hfit.readIn_pos
  have hsize : preFSize = 16 := rfl
  have hidx0 := Int.emod_nonneg p (b := cfg.totalReadIn) (by omega)
  have hflr0 : 0 ≤ preFFloor (p % cfg.totalReadIn) := by
    unfold preFFloor
    rw [hsize]
    omega
  have hpage0 : 0 ≤ preFFloor p := by
    unfold preFFloor
    rw [hsize]
    omega
  have hspace : ∀ k, (s.readFromRemote cfg n p).2.space k =
      if getReadInBuff cfg (preFFloor (p % cfg.totalReadIn)) ≤ k ∧
        k < getReadInBuff cfg (preFFloor (p % cfg.totalReadIn)) + preFSize then
        s.remote n (preFFloor p + (k - getReadInBuff cfg (preFFloor (p % cfg.totalReadIn))))
      else s.space k := fun k => by
    simp only [Node.readFromRemote, Int.tmod_eq_emod_of_nonneg hp]
  have hreadIn : ∀ k, (s.readFromRemote cfg n p).2.readIn k =
      if preFFloor (p % cfg.totalReadIn) ≤ k ∧
        k < preFFloor (p % cfg.totalReadIn) + preFSize then
        ⟨.filled, n, preFFloor p + (k - preFFloor (p % cfg.totalReadIn))⟩
      else s.readIn k := fun k => by
    simp only [Node.readFromRemote, Int.tmod_eq_emod_of_nonneg hp]
  exact
    { head := h.head
      tail := h.tail
      pages := h.pages
      home := h.home
      inSlot := by
        intro n' p' a' h' i hi
        have hlt := writeOut_lt_readIn (h.home n' p' a' h').2.1 hi.2.1 hflr0
        rw [hspace, if_neg (by omega)]
        exact h.inSlot n' p' a' h' i hi
      away := h.away
      fetched := by
        intro k hk
        rw [hreadIn] at hk ⊢
        by_cases hin : preFFloor (p % cfg.totalReadIn) ≤ k ∧
            k < preFFloor (p % cfg.totalReadIn) + preFSize
        · rw [if_pos hin]
          obtain ⟨j, hj, hj', hjk⟩ : ∃ j, 0 ≤ j ∧ j < (preFSize : ℤ) ∧
              k = preFFloor (p % cfg.totalReadIn) + j :=
            ⟨k - preFFloor (p % cfg.totalReadIn), by omega, by omega, by omega⟩
          subst hjk
          have hq : preFFloor p + (preFFloor (p % cfg.totalReadIn) + j -
              preFFloor (p % cfg.totalReadIn)) = preFFloor p + j := by omega
          simp only [hq]
          refine ⟨by omega, (index_eq hfit hj hj').symm, fun a' h' => ?_⟩
          -- the slot has a page of the group, and that one is at the memory node
          have hgroup : preFFloor (preFFloor p + j) = preFFloor p := by
            unfold preFFloor
            rw [hsize] at hj' ⊢
            omega
          have haway := h.away n _ a' h'
            (hclean _ hgroup (by rw [show s.latest n _ = some a' from h']; rfl))
          rw [hspace]
          unfold getReadInBuff
          rw [if_pos (by omega), ← haway]
          congr 1
          omega
        · -- the other slots are left
          rw [if_neg hin] at hk ⊢
          obtain ⟨h0, hk', hlat⟩ := h.fetched k hk
          refine ⟨h0, hk', fun a' h' => ?_⟩
          rw [hspace]
          unfold getReadInBuff
          rw [if_neg (by omega)]
          exact hlat a' h' }

theorem swapIn (h : Inv cfg s) (hfit : Fits cfg) (hlegal : s.Legal (.swapIn n p))
    (hclean : s.Unstale cfg (.swapIn n p)) : Inv cfg (s.swapIn cfg n p).2 := by
  obtain ⟨a, ha⟩ := Option.isSome_iff_exists.mp hlegal
  obtain ⟨-, -, hp⟩ := h.home n p a ha
  unfold Node.swapIn
  cases hbuf : s.readFromBuffer cfg n p with
  | some b => exact h.forget _
  | none =>
    cases hpre : s.readFromPreFetch cfg n p with
    | some b => exact h.forget _
    | none => exact (h.readFromRemote hfit hp (hclean hbuf hpre)).forget _

/-- A flush of consecutive pages moves each of them to its own place: the transfer goes to the
pages that follow the first one, and these are the pages of the slots. -/
theorem flushed (h : Inv cfg s) (hfit : Fits cfg) (hclean : s.Unstale cfg (.flush d)) {count : ℕ}
    (hrun : WriteOut.IsRun cfg.totalWriteOut (s.ring d).desc (s.ring d).head count) {s' : Node α}
    (hf : Flushed cfg s d count s') : Inv cfg s' := by
  have hhead := (h.head d).1
  have hend := hrun.in_range
  have hpage := WriteOut.Consecutive.pageNO_eq hclean hrun
  exact
    { head := fun n => by
        have hW := hfit.ring_pos
        rw [hf.head]
        split
        · exact ⟨Int.emod_nonneg _ (by omega), Int.emod_lt_of_pos _ (by omega)⟩
        · exact h.head n
      tail := by
        intro n
        rw [hf.tail]
        exact h.tail n
      pages := by rw [hf.group]; exact h.pages
      home := by rw [hf.latest]; exact h.home
      inSlot := by
        intro n p a ha i hi
        rw [hf.latest] at ha
        rw [hf.space]
        exact h.inSlot n p a ha i (hf.inSlot_iff.mp hi).1
      away := by
        intro n p a ha hnone
        rw [hf.latest] at ha
        rw [hf.remote]
        by_cases hin : n = d ∧ ((s.ring d).desc (s.ring d).head).pageNO ≤ p ∧
            p < ((s.ring d).desc (s.ring d).head).pageNO + count
        · -- the page was in the run, so its slot held the latest content
          obtain ⟨rfl, hin1, hin2⟩ := hin
          obtain ⟨j, hj⟩ : ∃ j : ℕ, p = ((s.ring n).desc (s.ring n).head).pageNO + j :=
            ⟨(p - ((s.ring n).desc (s.ring n).head).pageNO).toNat, by omega⟩
          have hlt : j < count := by omega
          rw [if_pos ⟨rfl, hin1, hin2⟩,
            ← h.inSlot n p a ha ((s.ring n).head + j)
              ⟨by omega, by omega, hrun.filled j hlt, by rw [hpage j hlt, hj]⟩]
          congr 1
          unfold getWriteOutBuff
          omega
        · rw [if_neg hin]
          apply h.away n p a ha
          intro i hi
          by_cases hmark : n = d ∧ (s.ring d).head ≤ i ∧ i < (s.ring d).head + count
          · -- a slot of the run holds only pages of the run
            obtain ⟨rfl, h1, h2⟩ := hmark
            have hj := hpage (i - (s.ring n).head).toNat (by omega)
            have hcast : (s.ring n).head + ((i - (s.ring n).head).toNat : ℕ) = i := by omega
            rw [hcast, hi.2.2.2] at hj
            exact hin ⟨rfl, by omega, by omega⟩
          · exact hnone i (hf.inSlot_iff.mpr ⟨hi, hmark⟩)
      fetched := by
        rw [hf.readIn, hf.latest, hf.space]
        exact h.fetched }

theorem flushBuff (h : Inv cfg s) (hfit : Fits cfg) (hclean : s.Unstale cfg (.flush d)) :
    Inv cfg (s.flushBuff cfg d) := by
  rcases flushBuff_spec hfit (h.head d) with hsame | ⟨count, hrun, hf⟩
  · rw [hsame]
    exact h
  · exact h.flushed hfit hclean hrun hf

/-- A page that is handed out from a free list is the first of a group. -/
theorem freelistGetpage_nonneg (h : Inv cfg s) {g : FreeGroup}
    (hget : (s.group d).freelistGetpage = some (p, g)) : 0 ≤ p ∧ ∀ x ∈ g.groups, 0 ≤ x.1 := by
  have hold := h.pages d
  unfold FreeGroup.freelistGetpage at hget
  cases hgroups : (s.group d).groups with
  | nil => simp [hgroups] at hget
  | cons y rest =>
    obtain ⟨pageStart, pageEnd⟩ := y
    rw [hgroups] at hold
    simp only [hgroups, Option.some.injEq, Prod.mk.injEq] at hget
    obtain ⟨rfl, rfl⟩ := hget
    have h0 := hold _ (List.mem_cons_self ..)
    refine ⟨h0, fun x hx => ?_⟩
    simp only at hx
    split at hx
    · exact hold x (List.mem_cons_of_mem _ hx)
    · rcases List.mem_cons.mp hx with rfl | hx
      · simp only at h0 ⊢
        omega
      · exact hold x (List.mem_cons_of_mem _ hx)

/-- The read-in descriptors after a page has been handed out: none names the page. -/
theorem voidPreFetch_fetched (h : Inv cfg s) (hp : 0 ≤ p) {k : ℤ}
    (hk : ((s.voidPreFetch cfg d p).readIn k).status = .filled) :
    (s.voidPreFetch cfg d p).readIn k = s.readIn k ∧
      ¬ ((s.readIn k).nodeID = d ∧ (s.readIn k).pageNO = p) := by
  simp only [Node.voidPreFetch, Int.tmod_eq_emod_of_nonneg hp] at hk ⊢
  by_cases hhit : (s.readIn (p % cfg.totalReadIn)).nodeID = d ∧
      (s.readIn (p % cfg.totalReadIn)).pageNO = p
  · simp only [if_pos hhit, Function.update_apply] at hk ⊢
    by_cases hkp : k = p % cfg.totalReadIn
    · rw [if_pos hkp] at hk
      exact absurd hk (by decide)
    · rw [if_neg hkp] at hk ⊢
      refine ⟨rfl, fun hc => hkp ?_⟩
      rw [(h.fetched k hk).2.1, hc.2]
  · simp only [if_neg hhit] at hk ⊢
    refine ⟨trivial, fun hc => hhit ?_⟩
    have hkp := (h.fetched k hk).2.1
    rw [hc.2] at hkp
    rw [← hkp]
    exact hc

/-- A page is stored in the slot at the tail, and no older copy is left. -/
theorem stored (h : Inv cfg s) (hfit : Fits cfg) (hd : 0 ≤ d ∧ d < cfg.totalNodes)
    (hstore : s.CanStore d) {g : FreeGroup} (hget : (s.group d).freelistGetpage = some (p, g))
    (hnew : ∀ i, ¬ s.InSlot cfg d i p) {s' : Node α} (hs : Stored cfg s d a p g s') :
    Inv cfg s' := by
  obtain ⟨hp, hg⟩ := h.freelistGetpage_nonneg hget
  have htail := h.tail d
  exact
    { head := fun n => by
        rw [hs.head]
        exact h.head n
      tail := by
        intro n
        have hW := hfit.ring_pos
        rw [hs.tail]
        split
        · exact ⟨Int.emod_nonneg _ (by omega), Int.emod_lt_of_pos _ (by omega)⟩
        · exact h.tail n
      pages := by rw [hs.group]; exact (h.setGroup hg).pages
      home := by
        intro n q b hb
        rw [hs.latest] at hb
        by_cases hin : n = d ∧ q = p
        · obtain ⟨rfl, rfl⟩ := hin
          exact ⟨hd.1, hd.2, hp⟩
        · rw [if_neg hin] at hb
          exact h.home n q b hb
      inSlot := by
        intro n q b hb i hi
        rw [hs.latest] at hb
        rw [hs.space]
        rcases (hs.inSlot_iff htail).mp hi with ⟨rfl, rfl, rfl⟩ | ⟨hne, hi⟩
        · rw [if_pos ⟨rfl, rfl⟩, Option.some.injEq] at hb
          rw [if_pos rfl, hb]
        · rw [if_neg fun heq => hne (writeOut_inj ⟨hi.1, hi.2.1⟩ htail heq)]
          -- an older slot does not hold the page that was handed out
          rw [if_neg fun heq => hnew i (by rw [← heq.1, ← heq.2]; exact hi)] at hb
          exact h.inSlot n q b hb i hi
      away := by
        intro n q b hb hnone
        rw [hs.latest] at hb
        by_cases hin : n = d ∧ q = p
        · obtain ⟨rfl, rfl⟩ := hin
          exact absurd ((hs.inSlot_iff htail).mpr (Or.inl ⟨rfl, rfl, rfl⟩)) (hnone _)
        · rw [if_neg hin] at hb
          rw [hs.remote]
          refine h.away n q b hb fun i hi => hnone i ?_
          refine (hs.inSlot_iff htail).mpr (Or.inr ⟨?_, hi⟩)
          -- the slot that was taken was free
          rintro ⟨rfl, rfl⟩
          rw [InSlot, hstore.2] at hi
          exact absurd hi.2.2.1 (by decide)
      fetched := by
        intro k hk
        rw [hs.readIn] at hk ⊢
        obtain ⟨hsame, hne⟩ := h.voidPreFetch_fetched hp hk
        rw [hsame] at hk ⊢
        obtain ⟨h0, hk', hlat⟩ := h.fetched k hk
        refine ⟨h0, hk', fun b hb => ?_⟩
        rw [hs.latest, if_neg hne] at hb
        have hk0 : 0 ≤ k := by
          have hR := hfit.readIn_pos
          rw [hk']
          exact Int.emod_nonneg _ (by omega)
        have hlt := writeOut_lt_readIn hd.2 htail.2 hk0
        rw [hs.space, if_neg (by omega)]
        exact hlat b hb }

theorem storePage (h : Inv cfg s) (hfit : Fits cfg) (hd : 0 ≤ d ∧ d < cfg.totalNodes)
    (hstore : s.CanStore d) (hclean : s.Unstale cfg (.store d a)) {r : Node α × ℤ × ℤ}
    (hr : s.storePage cfg d a = some r) : Inv cfg r.1 := by
  obtain ⟨p, g, hget, hs⟩ := storePage_spec hfit (h.tail d) hr
  exact h.stored hfit hd hstore hget (hclean p g hget) hs

/-- **An operation that leaves no stale copy keeps the invariant.** -/
theorem step (h : Inv cfg s) (hfit : Fits cfg) {op : Op α} (hlegal : s.Legal op)
    (hclean : s.Unstale cfg op) {s' : Node α} (hs : s.step cfg op = some s') : Inv cfg s' := by
  unfold Node.step at hs
  split at hs
  swap
  · exact absurd hs (by simp)
  next hnode =>
  cases op with
  | pageReceive n p k =>
    rw [← Option.some.inj hs]
    exact h.pageReceive
  | request d =>
    rw [← Option.some.inj hs]
    exact h.request
  | flush d =>
    rw [← Option.some.inj hs]
    exact h.flushBuff hfit hclean
  | store d a =>
    simp only at hs
    split at hs
    · next hstore =>
      obtain ⟨r, hr, rfl⟩ := Option.map_eq_some_iff.mp hs
      exact h.storePage hfit hnode hstore hclean hr
    · exact absurd hs (by simp)
  | swapIn n p =>
    rw [← Option.some.inj hs]
    exact h.swapIn hfit hlegal hclean

end Inv

/-! ### Runs -/

/-- The states of a node whose operations meet a guard. -/
abbrev Reach (cfg : Config) (space : ℤ → α) (remote : ℤ → ℤ → α)
    (ok : Node α → Op α → Prop) (s : Node α) : Prop :=
  Machine.Reach (.ofPartial (init space remote) (step cfg)) ok s

/-- `COMEX_flush_buff` changes nothing that was swapped out. -/
theorem flushBuff_latest (cfg : Config) (s : Node α) (d : ℤ) :
    (s.flushBuff cfg d).latest = s.latest := by
  unfold flushBuff
  split <;> rfl

theorem storePage_latest {cfg : Config} {s : Node α} {d : ℤ} {a : α} {r : Node α × ℤ × ℤ}
    (hr : s.storePage cfg d a = some r) : r.1.latest d r.2.1 = some a := by
  obtain ⟨⟨p, g⟩, -, rfl⟩ := Option.map_eq_some_iff.mp hr
  simp only [Function.update_self]

/-- The probes of `COMEX_move_to_Remote` are operations, and the page they return is
the one the content was last swapped out to. -/
theorem probe_reach {cfg : Config} {space : ℤ → α} {remote : ℤ → ℤ → α} {a : α} : ∀ (n : ℕ)
    {dest : ℤ} {s : Node α} {r : Node α × Option (ℤ × ℤ)}, Reach cfg space remote Legal s →
    probe cfg a n dest s = some r →
    Reach cfg space remote Legal r.1 ∧ ∀ x, r.2 = some x → r.1.latest x.1 x.2 = some a := by
  intro n
  induction n with
  | zero =>
    intro dest s r h hr
    obtain rfl : (s, none) = r := Option.some.inj hr
    exact ⟨h, fun x hx => absurd hx (by simp)⟩
  | succ n ih =>
    intro dest s r h hr
    rw [probe] at hr
    by_cases hd : 0 ≤ dest ∧ dest < cfg.totalNodes
    swap
    · rw [if_neg hd] at hr
      exact absurd hr (by simp)
    rw [if_pos hd] at hr
    have hflush : ∀ {t : Node α}, Reach cfg space remote Legal t →
        Reach cfg space remote Legal (t.flushBuff cfg dest) := fun ht =>
      ht.next (a := .flush dest) trivial (if_pos hd)
    -- ask for pages, then flush a full ring
    have h₁ : Reach cfg space remote Legal
        (s.setGroup dest ((s.group dest).request cfg.threshold).2) :=
      h.next (a := .request dest) trivial (if_pos hd)
    revert h₁ hr
    generalize s.setGroup dest ((s.group dest).request cfg.threshold).2 = s₁
    intro hr h₁
    have h₂ : Reach cfg space remote Legal
        (if ((s₁.ring dest).desc (s₁.ring dest).tail).status = .filled then
          s₁.flushBuff cfg dest else s₁) := by
      split
      · exact hflush h₁
      · exact h₁
    simp only at hr
    revert h₂ hr
    generalize (if ((s₁.ring dest).desc (s₁.ring dest).tail).status = .filled then
      s₁.flushBuff cfg dest else s₁) = s₂
    intro h₂ hr
    by_cases hstore : s₂.CanStore dest
    · rw [if_pos hstore] at hr
      obtain ⟨⟨s₃, p, slot⟩, hs₃, rfl⟩ := Option.map_eq_some_iff.mp hr
      have hlatest := storePage_latest hs₃
      have hstep : s₂.step cfg (.store dest a) = some s₃ := by
        unfold step
        rw [if_pos (show 0 ≤ (Op.store dest a).node ∧
          (Op.store dest a).node < cfg.totalNodes from hd)]
        simp only [if_pos hstore, hs₃, Option.map_some]
      have h₃ : Reach cfg space remote Legal s₃ :=
        h₂.next (a := .store dest a) trivial hstep
      refine ⟨?_, fun x hx => ?_⟩
      · simp only
        split
        · exact hflush h₃
        · exact h₃
      · obtain rfl : (dest, p) = x := Option.some.inj hx
        simp only
        split
        · rw [flushBuff_latest]
          exact hlatest
        · exact hlatest
    · rw [if_neg hstore] at hr
      exact ih h₂ hr

/-- **`COMEX_move_to_Remote` is a run of operations.** -/
theorem moveToRemote_reach {cfg : Config} {space : ℤ → α} {remote : ℤ → ℤ → α} {s : Node α}
    (h : Reach cfg space remote Legal s) {pid : ℤ} {a : α} {r : Node α × Option (ℤ × ℤ)}
    (hr : s.moveToRemote cfg pid a = some r) :
    Reach cfg space remote Legal r.1 ∧ ∀ x, r.2 = some x → r.1.latest x.1 x.2 = some a :=
  probe_reach cfg.nMemNodes h hr

theorem reach_inv {cfg : Config} (hfit : Fits cfg) {space : ℤ → α} {remote : ℤ → ℤ → α}
    {s : Node α} (h : Reach cfg space remote (fun s op => s.Legal op ∧ s.Unstale cfg op) s) :
    Inv cfg s := by
  refine h.invariant (I := Inv cfg) ?_ ?_
  · rintro s rfl
    exact Inv.init hfit space remote
  · intro s op s' _ hinv hok hs
    exact hinv.step hfit hok.1 hok.2 hs

/-- **Remote swap is coherent** in every run that leaves no stale copy behind: whichever of
the ring, the read-in cache and the memory node a swap-in finds the page in, it reads what was
swapped out last. -/
theorem reach_coherent {cfg : Config} (hfit : Fits cfg) {space : ℤ → α} {remote : ℤ → ℤ → α}
    {s : Node α} (h : Reach cfg space remote (fun s op => s.Legal op ∧ s.Unstale cfg op) s) :
    Coherent cfg s := fun _ _ _ ha => (reach_inv hfit h).swapIn_eq hfit ha

/-- Pages are swapped out and flushed; one is read back from the memory node together with its
neighbours, one is found in the read-in cache, and one in the ring. -/
theorem reach_coherent_places : ∃ s : Node ℕ,
    Reach smallConfig (fun _ => 0) (fun _ _ => 0)
      (fun s op => s.Legal op ∧ s.Unstale smallConfig op) s ∧
    (s.latest 0 2 = some 102 ∧ s.latest 0 5 = some 105) ∧ Coherent smallConfig s := by
  obtain ⟨s, hs, hlatest⟩ := Machine.exists_reach_of_exec
    (init (fun _ => 0) (fun _ _ => 0) : Node ℕ)
    (fun s op => s.Legal op ∧ s.Unstale smallConfig op) (step smallConfig)
    (fun s => s.latest 0 2 = some 102 ∧ s.latest 0 5 = some 105)
    [.pageReceive 0 0 5, .store 0 100, .store 0 101, .flush 0, .store 0 102, .store 0 103,
      .flush 0, .swapIn 0 0, .swapIn 0 1, .store 0 104, .swapIn 0 4, .store 0 105] (by decide)
  exact ⟨s, hs, hlatest, reach_coherent ⟨by decide, by decide, by decide, by decide⟩ hs⟩

/-- **Without the condition a swap-in can yield an older content.** While pages 2 and 3
wait in the ring, the read of page 0 fetches them from the memory they have not been
written to yet; once they are flushed the read-in copies are hit. -/
theorem not_coherent : ¬ ∀ s : Node ℕ,
    Reach smallConfig (fun _ => 0) (fun _ _ => 0) Legal s → Coherent smallConfig s := by
  intro hall
  obtain ⟨s, hs, hlatest, hread⟩ := Machine.exists_reach_of_exec
    (init (fun _ => 0) (fun _ _ => 0) : Node ℕ) Legal (step smallConfig)
    (fun s => s.latest 0 2 = some 102 ∧ (s.swapIn smallConfig 0 2).1 = 0)
    [.pageReceive 0 0 5, .store 0 100, .store 0 101, .flush 0, .store 0 102, .store 0 103,
      .swapIn 0 0, .flush 0, .store 0 104] (by decide)
  rw [hall s hs 0 2 102 hlatest] at hread
  exact absurd hread (by decide)

end Node
end Comex
