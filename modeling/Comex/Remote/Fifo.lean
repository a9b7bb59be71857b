import Comex.Lib.Cyclic
import Comex.Lib.Runs
import Comex.Remote.WriteOut
import Mathlib.Data.List.Basic

/-!
# The write-out ring is a FIFO

The threads of a node reserve, fill and flush the slots of a ring in atomic
steps.  `mutex_FG` covers a reservation, `pos_mutex` is held from a flush's first
look at the head until its run has been freed, and nothing covers a fill.

The history of a run numbers the reservations.  The `j`-th one takes slot
`j % total`, and three counts order the whole ring: the reservations whose
transfer is done, those carried by a `PAGE_WRTE`, and all of them.  What lies
between the first two is being flushed, what lies between the last two is
reserved or filled, and the rest of the ring is free.

## Main definitions

* `Fifo` — a ring, the threads' progress, and the history of a run.
* `Fifo.Inv` — what the three counts say about every slot.

## Main results

* `Fifo.Inv.next` — every step keeps the invariant.
* `Fifo.reach_fifo` — **every run keeps the intervals and the order of reservation.**
-/

namespace Comex

/-- The ring of one memory node with the threads that work on it. -/
structure Fifo where
  ring : WriteOut
  /-- Threads between reservation and fill: their `buff_slot` and `*retPageNO`. -/
  copying : List (ℤ × ℤ)
  /-- The `PAGE_WRTE` of the flush that holds `pos_mutex`. -/
  inflight : Option PageWrte
  /-- History: slot and page of every reservation. -/
  reserved : List (ℤ × ℤ)
  /-- History: slot and page of everything a `PAGE_WRTE` carried. -/
  carried : List (ℤ × ℤ)
  /-- History: the `PAGE_WRTE`s. -/
  sent : List PageWrte
  /-- History: how many of the carried slots have been freed again. -/
  done : ℕ

/-- The slots a `PAGE_WRTE` carries. -/
def PageWrte.slots (m : PageWrte) : List ℤ := (List.range m.size).map fun i => m.bufIDX + (i : ℕ)

theorem PageWrte.mem_slots {m : PageWrte} {i : ℤ} :
    i ∈ m.slots ↔ m.bufIDX ≤ i ∧ i < m.bufIDX + m.size := by
  simp only [PageWrte.slots, List.mem_map, List.mem_range]
  constructor
  · rintro ⟨j, hj, rfl⟩
    omega
  · rintro ⟨h1, h2⟩
    exact ⟨(i - m.bufIDX).toNat, by omega, by omega⟩

namespace Fifo

/-- An atomic step on the ring. -/
inductive Step
  | reserve (pageNO : ℤ)
  | fill (slot pageNO : ℤ)
  | flushBegin
  | flushEnd
  deriving DecidableEq, Repr

/-- The ring after `COMEX_init_Remote`. -/
def init : Fifo := ⟨.init, [], none, [], [], [], 0⟩

/-- `COMEX_move_to_Remote` finds the slot at the tail free and takes it for a page. -/
def reserve (total : ℕ) (s : Fifo) (pageNO : ℤ) : Option Fifo :=
  if (s.ring.desc s.ring.tail).status = .free then
    some { s with
      ring := s.ring.reserve total
      copying := (s.ring.tail, pageNO) :: s.copying
      reserved := s.reserved ++ [(s.ring.tail, pageNO)] }
  else none

/-- A thread has copied its page into the slot it reserved. -/
def fill (nodeID : ℤ) (s : Fifo) (slot pageNO : ℤ) : Option Fifo :=
  if (slot, pageNO) ∈ s.copying then
    some { s with
      ring := s.ring.fill slot nodeID pageNO
      copying := s.copying.erase (slot, pageNO) }
  else none

/-- `COMEX_flush_buff` gets `pos_mutex` and goes as far as its `COMEX_RDMA` call. -/
def flushBegin (total : ℕ) (nodeID : ℤ) (s : Fifo) : Option Fifo :=
  if s.inflight = none then
    match s.ring.flushBegin total nodeID with
    | (none, ring) => some { s with ring := ring }
    | (some m, ring) => some { s with
        ring := ring
        inflight := some m
        carried := s.carried ++ m.slots.map fun i => (i, (s.ring.desc i).pageNO)
        sent := s.sent ++ [m] }
  else none

/-- The `PAGE_WRTE` succeeds, `COMEX_free_buff` frees the run and `pos_mutex` is released. -/
def flushEnd (s : Fifo) : Option Fifo :=
  s.inflight.map fun m => { s with
    ring := s.ring.freeBuff m.bufIDX m.size
    inflight := none
    done := s.done + m.size }

/-- One step, if it is enabled. -/
def next (total : ℕ) (nodeID : ℤ) (s : Fifo) : Step → Option Fifo
  | .reserve pageNO => s.reserve total pageNO
  | .fill slot pageNO => s.fill nodeID slot pageNO
  | .flushBegin => s.flushBegin total nodeID
  | .flushEnd => s.flushEnd

/-- The states of a ring whose transfers succeed. -/
abbrev Reach (total : ℕ) (nodeID : ℤ) (s : Fifo) : Prop :=
  Machine.Reach (.ofPartial init (next total nodeID)) Machine.free s

section Steps

variable {total : ℕ} {nodeID : ℤ} {s s' : Fifo}

theorem reserve_eq {pageNO : ℤ} (hs : s.reserve total pageNO = some s') :
    (s.ring.desc s.ring.tail).status = .free ∧
      s' = { s with
        ring := s.ring.reserve total
        copying := (s.ring.tail, pageNO) :: s.copying
        reserved := s.reserved ++ [(s.ring.tail, pageNO)] } := by
  unfold Fifo.reserve at hs
  split at hs
  · next hfree => exact ⟨hfree, (Option.some.inj hs).symm⟩
  · exact absurd hs (by simp)

theorem fill_eq {slot pageNO : ℤ} (hs : s.fill nodeID slot pageNO = some s') :
    (slot, pageNO) ∈ s.copying ∧
      s' = { s with
        ring := s.ring.fill slot nodeID pageNO
        copying := s.copying.erase (slot, pageNO) } := by
  unfold Fifo.fill at hs
  split at hs
  · next hmem => exact ⟨hmem, (Option.some.inj hs).symm⟩
  · exact absurd hs (by simp)

theorem flushEnd_eq (hs : s.flushEnd = some s') :
    s'.inflight = none ∧ s'.reserved = s.reserved ∧ s'.carried = s.carried := by
  obtain ⟨m, -, rfl⟩ := Option.map_eq_some_iff.mp hs
  exact ⟨rfl, rfl, rfl⟩

end Steps

/-! ### The invariant -/

/-- The state of a slot that holds reservation `x` and has not been flushed. -/
def Holds (s : Fifo) (x : ℤ × ℤ) : Prop :=
  (s.ring.desc x.1).status = .reserved ∧ x ∈ s.copying ∨
    (s.ring.desc x.1).status = .filled ∧ (s.ring.desc x.1).pageNO = x.2

/-- What the counts `done`, `carried.length` and `reserved.length` say about the ring. -/
structure Inv (total : ℕ) (s : Fifo) : Prop where
  done_le : s.done ≤ s.carried.length
  carried_le : s.carried.length ≤ s.reserved.length
  turn : s.reserved.length ≤ s.done + total
  carried_eq : s.carried = s.reserved.take s.carried.length
  head_eq : s.ring.head = (s.carried.length % total : ℕ)
  tail_eq : s.ring.tail = (s.reserved.length % total : ℕ)
  slot_eq : ∀ (j : ℕ) x, s.reserved[j]? = some x → x.1 = (j % total : ℕ)
  holds : ∀ (j : ℕ) x, s.carried.length ≤ j → s.reserved[j]? = some x → s.Holds x
  flushing : ∀ j, s.done ≤ j → j < s.carried.length →
    (s.ring.desc (j % total : ℕ)).status = .flushing
  free : ∀ j, s.reserved.length ≤ j → j < s.done + total →
    (s.ring.desc (j % total : ℕ)).status = .free
  copying : ∀ x ∈ s.copying, ∃ j, s.carried.length ≤ j ∧ s.reserved[j]? = some x ∧
    (s.ring.desc x.1).status = .reserved
  copying_nodup : s.copying.Nodup
  idle : s.inflight = none → s.done = s.carried.length
  busy : ∀ m, s.inflight = some m → m.bufIDX = (s.done % total : ℕ) ∧
    s.done + m.size = s.carried.length ∧ s.done % total + m.size ≤ total
  sent : s.sent.flatMap PageWrte.slots = s.carried.map Prod.fst

theorem getElem?_concat {α : Type*} {l : List α} {a x : α} {j : ℕ}
    (h : (l ++ [a])[j]? = some x) : l[j]? = some x ∨ j = l.length ∧ x = a := by
  rcases Nat.lt_or_ge j l.length with hj | hj
  · rw [List.getElem?_append_left hj] at h
    exact Or.inl h
  · rw [List.getElem?_append_right hj, List.getElem?_singleton] at h
    split at h
    · exact Or.inr ⟨by omega, (Option.some.inj h).symm⟩
    · exact absurd h (by simp)

namespace Inv

variable {total : ℕ} {nodeID : ℤ} {s s' : Fifo}

theorem init : Inv total init where
  done_le := Nat.le_refl _
  carried_le := Nat.le_refl _
  turn := Nat.zero_le _
  carried_eq := rfl
  head_eq := by simp [Fifo.init, WriteOut.init]
  tail_eq := by simp [Fifo.init, WriteOut.init]
  slot_eq := fun j x h => by simp [Fifo.init] at h
  holds := fun j x _ h => by simp [Fifo.init] at h
  flushing := fun j _ h => absurd h (Nat.not_lt_zero j)
  free := fun _ _ _ => rfl
  copying := fun x h => by simp [Fifo.init] at h
  copying_nodup := List.nodup_nil
  idle := fun _ => rfl
  busy := fun m h => by simp [Fifo.init] at h
  sent := rfl

/-- Reservations that are less than a turn apart have different slots. -/
theorem slot_ne (h : Inv total s) {j : ℕ} {x : ℤ × ℤ} (hj : s.carried.length ≤ j)
    (hx : s.reserved[j]? = some x) {i : ℕ} (hi : s.done ≤ i) (hi' : i < s.done + total)
    (hne : i ≠ j) : x.1 ≠ (i % total : ℕ) := by
  have hlt := (List.getElem?_eq_some_iff.mp hx).1
  have h1 := h.done_le
  have h2 := h.turn
  rw [h.slot_eq j x hx]
  exact fun heq => Cyclic.slot_ne hi hi' (by omega) (by omega) hne (by omega)

/-- A free slot at the tail leaves room for one more reservation. -/
theorem room (h : Inv total s) (hpos : 0 < total)
    (hfree : (s.ring.desc s.ring.tail).status = .free) :
    s.reserved.length < s.done + total := by
  by_contra hfull
  have hT : s.reserved.length = s.done + total := by
    have := h.turn
    omega
  have hslot : s.reserved.length % total = s.done % total := by
    rw [hT, Nat.add_mod_right]
  rw [h.tail_eq, hslot] at hfree
  rcases Nat.lt_or_ge s.done s.carried.length with hlt | hge
  · -- the slot at the tail is the first one being flushed
    rw [h.flushing s.done (Nat.le_refl _) hlt] at hfree
    exact absurd hfree (by decide)
  · -- nothing is being flushed, and the slot is the oldest one still held
    have hj : s.done < s.reserved.length := by omega
    have hx := List.getElem?_eq_getElem hj
    have hx1 := h.slot_eq _ _ hx
    have hhold := h.holds _ _ hge hx
    unfold Holds at hhold
    rw [hx1, hfree] at hhold
    rcases hhold with ⟨h1, -⟩ | ⟨h1, -⟩ <;> exact absurd h1 (by decide)

/-- A position that has reached use `j` moves to use `j + k`. -/
theorem advance_slot (htotal : total ≤ 32767) {pos : ℤ} {j k : ℕ} (hpos : pos = (j % total : ℕ))
    (h : j % total + k ≤ total) : WriteOut.advance total pos k = ((j + k) % total : ℕ) := by
  rw [WriteOut.advance_eq htotal (by omega) (by omega), hpos, ← Nat.mod_add_mod]
  push_cast
  rfl

theorem reserve (h : Inv total s) (hpos : 0 < total) (htotal : total ≤ 32767) {pageNO : ℤ}
    (hs : s.reserve total pageNO = some s') : Inv total s' := by
  obtain ⟨hfree, rfl⟩ := reserve_eq hs
  have hroom := h.room hpos hfree
  have hdone := h.done_le
  have hcarried := h.carried_le
  have htail := h.tail_eq
  have hlt : s.reserved.length % total < total := Nat.mod_lt _ hpos
  -- every slot but the one at the tail keeps its descriptor
  have hold : ∀ {i}, i ≠ s.ring.tail → (s.ring.reserve total).desc i = s.ring.desc i :=
    fun hi => Function.update_of_ne hi ..
  have hnew : ((s.ring.reserve total).desc s.ring.tail).status = .reserved := by
    simp only [WriteOut.reserve, Function.update_self]
  have hother : ∀ {j : ℕ} {x : ℤ × ℤ}, s.carried.length ≤ j → s.reserved[j]? = some x →
      x.1 ≠ s.ring.tail := fun hj hx => by
    rw [htail]
    have := (List.getElem?_eq_some_iff.mp hx).1
    exact h.slot_ne hj hx (by omega) hroom (by omega)
  have hslot : ∀ {j : ℕ}, s.done ≤ j → j < s.done + total → j ≠ s.reserved.length →
      ((j % total : ℕ) : ℤ) ≠ s.ring.tail := fun h1 h2 h3 => by
    rw [htail]
    exact fun heq => Cyclic.slot_ne h1 h2 (by omega) hroom h3 (by omega)
  exact
    { done_le := hdone
      carried_le := by simp only [List.length_append, List.length_singleton]; omega
      turn := by simp only [List.length_append, List.length_singleton]; omega
      carried_eq := by
        rw [List.take_append_of_le_length hcarried]
        exact h.carried_eq
      head_eq := h.head_eq
      tail_eq := by
        rw [List.length_append, List.length_singleton]
        exact advance_slot htotal htail (by omega)
      slot_eq := by
        intro j x hx
        rcases getElem?_concat hx with hx | ⟨rfl, rfl⟩
        · exact h.slot_eq j x hx
        · exact htail
      holds := by
        intro j x hj hx
        rcases getElem?_concat hx with hx | ⟨rfl, rfl⟩
        · have hdesc := hold (hother hj hx)
          refine (h.holds j x hj hx).imp ?_ ?_
          · exact fun ⟨h1, h2⟩ => ⟨by rw [hdesc]; exact h1, List.mem_cons_of_mem _ h2⟩
          · exact fun ⟨h1, h2⟩ => ⟨by rw [hdesc]; exact h1, by rw [hdesc]; exact h2⟩
        · exact Or.inl ⟨hnew, List.mem_cons_self ..⟩
      flushing := by
        intro j (h1 : s.done ≤ j) (h2 : j < s.carried.length)
        rw [hold (hslot h1 (by omega) (by omega))]
        exact h.flushing j h1 h2
      free := by
        intro j h1 (h2 : j < s.done + total)
        rw [List.length_append, List.length_singleton] at h1
        rw [hold (hslot (by omega) h2 (by omega))]
        exact h.free j (by omega) h2
      copying := by
        intro x hx
        rcases List.mem_cons.mp hx with rfl | hx
        · exact ⟨s.reserved.length, hcarried, List.getElem?_concat_length, hnew⟩
        · obtain ⟨j, hj, hxj, hst⟩ := h.copying x hx
          refine ⟨j, hj, ?_, by rw [hold (hother hj hxj)]; exact hst⟩
          rw [List.getElem?_append_left (List.getElem?_eq_some_iff.mp hxj).1]
          exact hxj
      copying_nodup := List.nodup_cons.mpr ⟨fun hmem => by
        obtain ⟨j, hj, hxj, -⟩ := h.copying _ hmem
        exact hother hj hxj rfl, h.copying_nodup⟩
      idle := h.idle
      busy := h.busy
      sent := h.sent }

/-- A slot whose copy is under way belongs to one reservation. -/
theorem copying_unique (h : Inv total s) {x y : ℤ × ℤ} (hx : x ∈ s.copying) {j : ℕ}
    (hj : s.carried.length ≤ j) (hy : s.reserved[j]? = some y) (hxy : x.1 = y.1) : x = y := by
  obtain ⟨i, hi, hxi, -⟩ := h.copying x hx
  have h1 := h.done_le
  have h2 := h.turn
  have hlt := (List.getElem?_eq_some_iff.mp hxi).1
  by_cases hij : i = j
  · subst hij
    exact Option.some.inj (hxi.symm.trans hy)
  · refine absurd ?_ (h.slot_ne hj hy (i := i) (by omega) (by omega) hij)
    rw [← hxy, h.slot_eq i x hxi]

/-- A fill makes one reserved slot a filled one; no other slot that counts is that slot. -/
theorem fill (h : Inv total s) {slot pageNO : ℤ} (hs : s.fill nodeID slot pageNO = some s') :
    Inv total s' := by
  obtain ⟨hmem, rfl⟩ := fill_eq hs
  obtain ⟨k, hk, hslot, hres⟩ := h.copying _ hmem
  have hdone := h.done_le
  have hturn := h.turn
  have hlen := (List.getElem?_eq_some_iff.mp hslot).1
  have hold : ∀ {i}, i ≠ slot → (s.ring.fill slot nodeID pageNO).desc i = s.ring.desc i :=
    fun hi => Function.update_of_ne hi ..
  have hnew : (s.ring.fill slot nodeID pageNO).desc slot = ⟨.filled, nodeID, pageNO⟩ :=
    Function.update_self ..
  have hother : ∀ {j : ℕ}, s.done ≤ j → j < s.done + total → j ≠ k →
      ((j % total : ℕ) : ℤ) ≠ slot := fun h1 h2 h3 =>
    (h.slot_ne hk hslot h1 h2 h3).symm
  exact
    { done_le := hdone
      carried_le := h.carried_le
      turn := hturn
      carried_eq := h.carried_eq
      head_eq := h.head_eq
      tail_eq := h.tail_eq
      slot_eq := h.slot_eq
      holds := by
        intro j x hj hx
        by_cases hsl : x.1 = slot
        · obtain rfl : (slot, pageNO) = x := h.copying_unique hmem hj hx hsl.symm
          exact Or.inr ⟨congrArg BuffDesc.status hnew, congrArg BuffDesc.pageNO hnew⟩
        · have hdesc := hold hsl
          refine (h.holds j x hj hx).imp ?_ ?_
          · exact fun ⟨h1, h2⟩ => ⟨by rw [hdesc]; exact h1, (List.mem_erase_of_ne
              fun heq => hsl (congrArg Prod.fst heq)).mpr h2⟩
          · exact fun ⟨h1, h2⟩ => ⟨by rw [hdesc]; exact h1, by rw [hdesc]; exact h2⟩
      flushing := by
        intro j (h1 : s.done ≤ j) (h2 : j < s.carried.length)
        rw [hold (hother h1 (by omega) (by omega))]
        exact h.flushing j h1 h2
      free := by
        intro j (h1 : s.reserved.length ≤ j) (h2 : j < s.done + total)
        rw [hold (hother (by omega) h2 (by omega))]
        exact h.free j h1 h2
      copying := by
        intro x hx
        obtain ⟨hne, hx⟩ := (h.copying_nodup.mem_erase_iff).mp hx
        obtain ⟨j, hj, hxj, hst⟩ := h.copying x hx
        refine ⟨j, hj, hxj, ?_⟩
        rw [hold fun heq => hne (h.copying_unique hmem hj hxj heq.symm).symm]
        exact hst
      copying_nodup := h.copying_nodup.erase _
      idle := h.idle
      busy := h.busy
      sent := h.sent }

/-- The slots a flush starts with hold the oldest reservations that were not carried. -/
theorem run_reserved (h : Inv total s) (hidle : s.inflight = none) {count : ℕ}
    (hrun : WriteOut.IsRun total s.ring.desc s.ring.head count) :
    s.carried.length % total + count ≤ total ∧ ∀ i < count,
      s.reserved[s.carried.length + i]? =
        some (s.ring.head + (i : ℕ), (s.ring.desc (s.ring.head + (i : ℕ))).pageNO) := by
  have hend := hrun.in_range
  have hhead := h.head_eq
  have hdone := h.idle hidle
  have hle : s.carried.length % total + count ≤ total := by omega
  refine ⟨hle, fun i hi => ?_⟩
  have hslot : ((s.carried.length + i) % total : ℕ) = s.ring.head + (i : ℕ) := by
    rw [Cyclic.slot_add (by omega), hhead]
    push_cast
    rfl
  have hfilled := hrun.filled i hi
  -- past the last reservation the slots are free
  have hlt : s.carried.length + i < s.reserved.length := by
    by_contra hge
    have hfree := h.free (s.carried.length + i) (by omega) (by omega)
    rw [hslot, hfilled] at hfree
    exact absurd hfree (by decide)
  have hx := List.getElem?_eq_getElem hlt
  have hx1 := h.slot_eq _ _ hx
  rw [hslot] at hx1
  have hhold := h.holds _ _ (by omega) hx
  unfold Holds at hhold
  rw [hx1, hfilled] at hhold
  rcases hhold with ⟨h1, -⟩ | ⟨-, h2⟩
  · exact absurd h1 (by decide)
  · rw [hx, h2, ← hx1]

end Inv

/-- The `PAGE_WRTE` of the next `count` slots. -/
def wrte (total : ℕ) (nodeID : ℤ) (s : Fifo) (count : ℕ) : PageWrte where
  localPage := getWriteOutBuff total nodeID s.ring.head
  remotePage := (s.ring.desc s.ring.head).pageNO
  size := count
  bufIDX := s.ring.head

/-- A flush has taken the next `count` slots. -/
def afterFlush (total : ℕ) (nodeID : ℤ) (s : Fifo) (count : ℕ) : Fifo :=
  { s with
    ring := { s.ring with
      desc := WriteOut.markFlushing s.ring.desc s.ring.head count
      head := WriteOut.advance total s.ring.head count }
    inflight := some (s.wrte total nodeID count)
    carried := s.carried ++ (s.wrte total nodeID count).slots.map
      fun i => (i, (s.ring.desc i).pageNO)
    sent := s.sent ++ [s.wrte total nodeID count] }

section FlushBegin

variable {total : ℕ} {nodeID : ℤ} {s s' : Fifo} {count : ℕ}

@[simp] theorem length_carried_afterFlush :
    (s.afterFlush total nodeID count).carried.length = s.carried.length + count := by
  simp [afterFlush, wrte, PageWrte.slots]

theorem flushBegin_cases (hs : s.flushBegin total nodeID = some s') : s.inflight = none ∧
      (s' = s ∨ ∃ count, 0 < count ∧ WriteOut.IsRun total s.ring.desc s.ring.head count ∧
        s' = s.afterFlush total nodeID count) := by
  unfold flushBegin at hs
  by_cases hidle : s.inflight = none
  · rw [if_pos hidle] at hs
    refine ⟨hidle, ?_⟩
    rcases WriteOut.flushBegin_spec total s.ring nodeID with
      hnone | ⟨count, hcount, hrun, hsome⟩
    · rw [hnone] at hs
      exact Or.inl (Option.some.inj hs).symm
    · rw [hsome] at hs
      exact Or.inr ⟨count, hcount, hrun, (Option.some.inj hs).symm⟩
  · rw [if_neg hidle] at hs
    exact absurd hs (by simp)

end FlushBegin

namespace Inv

variable {total : ℕ} {nodeID : ℤ} {s s' : Fifo}

private theorem take_extend {α : Type*} {l pre : List α} {c : ℕ} {f : ℕ → α}
    (hpre : pre = l.take pre.length) (h : ∀ i < c, l[pre.length + i]? = some (f i)) :
    pre ++ (List.range c).map f = l.take (pre.length + c) := by
  induction c with
  | zero => simpa using hpre
  | succ c ih =>
    rw [List.range_succ, List.map_append, ← List.append_assoc, ih fun i hi => h i (by omega),
      ← Nat.add_assoc, List.take_add_one, h c (Nat.lt_succ_self c)]
    rfl

theorem afterFlush (h : Inv total s) (htotal : total ≤ 32767) (hidle : s.inflight = none)
    {count : ℕ} (hcount : 0 < count)
    (hrun : WriteOut.IsRun total s.ring.desc s.ring.head count) :
    Inv total (s.afterFlush total nodeID count) := by
  obtain ⟨hend, hres⟩ := h.run_reserved hidle hrun
  have hhead := h.head_eq
  have hdone := h.idle hidle
  have hturn := h.turn
  have hlast : s.carried.length + count ≤ s.reserved.length := by
    have := (List.getElem?_eq_some_iff.mp (hres (count - 1) (by omega))).1
    omega
  -- the uses in the run are marked, the later ones are not
  have hin : ∀ {j}, s.carried.length ≤ j → j < s.carried.length + count →
      ((s.afterFlush total nodeID count).ring.desc (j % total : ℕ)).status = .flushing := by
    intro j h1 h2
    change (WriteOut.markFlushing _ _ _ _).status = _
    rw [WriteOut.markFlushing_status, if_pos ((Cyclic.mem_run_int hhead hend h1 (by omega)).mpr h2)]
  have hout : ∀ {j}, s.carried.length + count ≤ j → j < s.done + total →
      (s.afterFlush total nodeID count).ring.desc (j % total : ℕ)
        = s.ring.desc (j % total : ℕ) := by
    intro j h1 h2
    apply if_neg
    intro hmark
    have hlt := (Cyclic.mem_run_int hhead hend (by omega) (by omega)).mp hmark
    omega
  have hkeep : ∀ {j : ℕ} {x}, s.carried.length + count ≤ j → s.reserved[j]? = some x →
      (s.afterFlush total nodeID count).ring.desc x.1 = s.ring.desc x.1 := by
    intro j x hj hx
    have := (List.getElem?_eq_some_iff.mp hx).1
    rw [h.slot_eq j x hx, hout hj (by omega)]
  have hlen : (s.afterFlush total nodeID count).carried.length = s.carried.length + count :=
    length_carried_afterFlush
  exact
    { done_le := by rw [hlen]; exact Nat.le_trans h.done_le (Nat.le_add_right _ _)
      carried_le := by rw [hlen]; exact hlast
      turn := hturn
      carried_eq := by
        have htake := take_extend h.carried_eq hres
        rw [hlen]
        change s.carried ++ _ = List.take _ s.reserved
        rw [← htake, PageWrte.slots, List.map_map]
        rfl
      head_eq := by rw [hlen]; exact advance_slot htotal hhead hend
      tail_eq := h.tail_eq
      slot_eq := h.slot_eq
      holds := by
        intro j x hj hx
        rw [hlen] at hj
        unfold Holds
        rw [hkeep hj hx]
        exact h.holds j x (by omega) hx
      flushing := by
        intro j h1 h2
        rw [hlen] at h2
        exact hin (hdone.symm.trans_le h1) h2
      free := by
        intro j (h1 : s.reserved.length ≤ j) (h2 : j < s.done + total)
        rw [hout (by omega) h2]
        exact h.free j h1 h2
      copying := by
        intro x hx
        obtain ⟨j, hj, hxj, hst⟩ := h.copying x hx
        -- a slot that is still being copied into is not filled, so the run stops before it
        have hge : s.carried.length + count ≤ j := by
          by_contra hlt
          have hxi := hres (j - s.carried.length) (by omega)
          rw [Nat.add_sub_cancel' hj, hxj, Option.some.injEq] at hxi
          have hfilled := hrun.filled (j - s.carried.length) (by omega)
          rw [hxi, hfilled] at hst
          exact absurd hst (by decide)
        exact ⟨j, by rw [hlen]; exact hge, hxj, by rw [hkeep hge hxj]; exact hst⟩
      copying_nodup := h.copying_nodup
      idle := fun hc => absurd hc (by simp [Fifo.afterFlush])
      busy := by
        intro m hm
        obtain rfl : s.wrte total nodeID count = m := Option.some.inj hm
        rw [hlen]
        change s.ring.head = (s.done % total : ℕ) ∧ s.done + count = _ ∧ s.done % total + count ≤ _
        rw [hdone]
        exact ⟨hhead, rfl, hend⟩
      sent := by
        have hfst : (Prod.fst ∘ fun i => (i, (s.ring.desc i).pageNO)) = id := rfl
        simp only [Fifo.afterFlush, List.flatMap_append, h.sent, List.map_append, List.map_map,
          hfst, List.map_id, List.flatMap_singleton] }

theorem flushBegin (h : Inv total s) (htotal : total ≤ 32767)
    (hs : s.flushBegin total nodeID = some s') : Inv total s' := by
  obtain ⟨hidle, rfl | ⟨count, hcount, hrun, rfl⟩⟩ := flushBegin_cases hs
  · exact h
  · exact h.afterFlush htotal hidle hcount hrun

theorem flushEnd (h : Inv total s) (hs : s.flushEnd = some s') : Inv total s' := by
  obtain ⟨m, hm, rfl⟩ := Option.map_eq_some_iff.mp hs
  obtain ⟨hidx, hsize, hend⟩ := h.busy m hm
  have hturn := h.turn
  have hcarried := h.carried_le
  -- the freed slots are those of the uses that were being flushed
  have hin : ∀ {j}, s.done ≤ j → j < s.carried.length →
      ((s.ring.freeBuff m.bufIDX m.size).desc (j % total : ℕ)).status = .free := by
    intro j h1 h2
    rw [WriteOut.freeBuff_desc,
      if_pos ((Cyclic.mem_run_int hidx hend h1 (by omega)).mpr (by omega))]
    rfl
  have hout : ∀ {j}, s.carried.length ≤ j → j < s.done + total →
      (s.ring.freeBuff m.bufIDX m.size).desc (j % total : ℕ)
        = s.ring.desc (j % total : ℕ) := by
    intro j h1 h2
    rw [WriteOut.freeBuff_desc]
    apply if_neg
    intro hmark
    have hlt := (Cyclic.mem_run_int hidx hend (by omega) h2).mp hmark
    omega
  have hkeep : ∀ {j : ℕ} {x}, s.carried.length ≤ j → s.reserved[j]? = some x →
      (s.ring.freeBuff m.bufIDX m.size).desc x.1 = s.ring.desc x.1 := by
    intro j x hj hx
    have := (List.getElem?_eq_some_iff.mp hx).1
    rw [h.slot_eq j x hx, hout hj (by omega)]
  exact
    { done_le := Nat.le_of_eq hsize
      carried_le := hcarried
      turn := by
        change s.reserved.length ≤ s.done + m.size + total
        omega
      carried_eq := h.carried_eq
      head_eq := by
        change (s.ring.freeBuff m.bufIDX m.size).head = _
        rw [WriteOut.freeBuff_head]
        exact h.head_eq
      tail_eq := by
        change (s.ring.freeBuff m.bufIDX m.size).tail = _
        rw [WriteOut.freeBuff_tail]
        exact h.tail_eq
      slot_eq := h.slot_eq
      holds := by
        intro j x hj hx
        unfold Holds
        simp only [hkeep hj hx]
        exact h.holds j x hj hx
      flushing := fun j (h1 : s.done + m.size ≤ j) (h2 : j < s.carried.length) =>
        absurd h2 (by omega)
      free := by
        intro j (h1 : s.reserved.length ≤ j) (h2 : j < s.done + m.size + total)
        rcases Nat.lt_or_ge j (s.done + total) with hlt | hge
        · change ((s.ring.freeBuff m.bufIDX m.size).desc _).status = _
          rw [hout (by omega) hlt]
          exact h.free j h1 hlt
        · -- one turn after a freed slot
          have hmod : j % total = (j - total) % total := (Nat.mod_eq_sub_mod (by omega))
          rw [hmod]
          exact hin (by omega) (by omega)
      copying := by
        intro x hx
        obtain ⟨j, hj, hxj, hst⟩ := h.copying x hx
        refine ⟨j, hj, hxj, ?_⟩
        change ((s.ring.freeBuff _ _).desc _).status = _
        rw [hkeep hj hxj]
        exact hst
      copying_nodup := h.copying_nodup
      idle := fun _ => hsize
      busy := fun m' hm' => absurd hm' (by simp)
      sent := h.sent }

/-- **Every step keeps the invariant.** -/
theorem next (h : Inv total s) (hpos : 0 < total) (htotal : total ≤ 32767) {a : Step}
    (hs : s.next total nodeID a = some s') : Inv total s' := by
  cases a with
  | reserve pageNO => exact h.reserve hpos htotal hs
  | fill slot pageNO => exact h.fill hs
  | flushBegin => exact h.flushBegin htotal hs
  | flushEnd => exact h.flushEnd hs

end Inv

theorem reach_inv {total : ℕ} {nodeID : ℤ} {s : Fifo} (hpos : 0 < total)
    (htotal : total ≤ 32767) (h : Reach total nodeID s) : Inv total s := by
  refine h.invariant (I := Inv total) ?_ ?_
  · rintro s rfl
    exact Inv.init
  · intro s a s' _ hinv _ hs
    exact hinv.next hpos htotal hs

/-! ### The ring as a queue -/

/-- What every run keeps: of `live` held slots from the head on and `flushing` slots
before it, and of the reservations, in order, that the slots belong to. -/
structure IsFifo (total : ℕ) (s : Fifo) : Prop where
  head_range : 0 ≤ s.ring.head ∧ s.ring.head < total
  tail_range : 0 ≤ s.ring.tail ∧ s.ring.tail < total
  /-- The held slots are the interval from head to tail; at equal positions it is
  empty or the whole ring, and the slots being flushed end where it starts. -/
  intervals : ∃ live flushing : ℕ, live + flushing ≤ total ∧
    s.ring.tail = (s.ring.head + live) % total ∧
    ∀ i : ℤ, 0 ≤ i → i < total →
      (((s.ring.desc i).status = .reserved ∨ (s.ring.desc i).status = .filled) ↔
        (i - s.ring.head) % total < live) ∧
      ((s.ring.desc i).status = .flushing ↔ total - flushing ≤ (i - s.ring.head) % total)
  /-- Reservations whose `PAGE_WRTE` has not completed have different slots. -/
  distinct : ((s.reserved.drop s.done).map Prod.fst).Nodup
  /-- Of what was carried, all has completed but the transfer in flight. -/
  completed : s.done + (s.inflight.elim 0 PageWrte.size) = s.carried.length
  /-- What the `PAGE_WRTE`s carried are the oldest reservations, each once and in order. -/
  order : s.carried <+: s.reserved
  carried_once : s.sent.flatMap PageWrte.slots = s.carried.map Prod.fst
  /-- The reservations not carried yet are the held slots, from the head on. -/
  waiting : ∀ (k : ℕ) x, (s.reserved.drop s.carried.length)[k]? = some x →
    x.1 = (s.ring.head + k) % total ∧ s.Holds x

namespace Inv

variable {total : ℕ} {s : Fifo}

/-- **What a slot is used for**: a reservation that was not carried, nothing, or one that
was carried a turn earlier and is not back yet. -/
theorem use_cases (h : Inv total s) (hpos : 0 < total) {i : ℤ} (h0 : 0 ≤ i) (h1 : i < total) :
    ∃ j, s.carried.length ≤ j ∧ (i - s.ring.head) % total = (j - s.carried.length : ℕ) ∧
      ((∃ x, s.reserved[j]? = some x ∧ x.1 = i ∧ s.Holds x) ∨
        (s.reserved.length ≤ j ∧ j < s.done + total ∧ (s.ring.desc i).status = .free) ∨
          s.done + total ≤ j ∧ (s.ring.desc i).status = .flushing) := by
  obtain ⟨j, hj, hj', rfl, hoff⟩ := Cyclic.exists_use hpos h0 h1 h.head_eq
  have hdone := h.done_le
  refine ⟨j, hj, hoff, ?_⟩
  rcases Nat.lt_or_ge j s.reserved.length with hlt | hge
  · have hx := List.getElem?_eq_getElem hlt
    exact Or.inl ⟨_, hx, h.slot_eq _ _ hx, h.holds _ _ hj hx⟩
  rcases Nat.lt_or_ge j (s.done + total) with hlt | hge'
  · exact Or.inr (Or.inl ⟨hge, hlt, h.free j hge hlt⟩)
  · have hmod : j % total = (j - total) % total := Nat.mod_eq_sub_mod (by omega)
    have hfl := h.flushing (j - total) (by omega) (by omega)
    rw [← hmod] at hfl
    exact Or.inr (Or.inr ⟨hge', hfl⟩)

/-- The status of a slot, by its distance from the head. -/
theorem status_offset (h : Inv total s) (hpos : 0 < total) {i : ℤ} (h0 : 0 ≤ i) (h1 : i < total) :
    let o := (i - s.ring.head) % total
    let st := (s.ring.desc i).status
    (o < (s.reserved.length - s.carried.length : ℕ) ∧ (st = .reserved ∨ st = .filled)) ∨
      ((s.reserved.length - s.carried.length : ℕ) ≤ o ∧
        o < total - (s.carried.length - s.done : ℕ) ∧ st = .free) ∨
      (total - (s.carried.length - s.done : ℕ) ≤ o ∧ st = .flushing) := by
  intro o st
  obtain ⟨j, hj, hoff, hx | hfree | hfl⟩ := h.use_cases hpos h0 h1 <;> change o = _ at hoff
  · obtain ⟨x, hx, rfl, hhold⟩ := hx
    have hlt := (List.getElem?_eq_some_iff.mp hx).1
    exact Or.inl ⟨by omega, hhold.imp And.left And.left⟩
  · obtain ⟨hge, hlt, hst⟩ := hfree
    have hdone := h.done_le
    exact Or.inr (Or.inl ⟨by omega, by omega, hst⟩)
  · obtain ⟨hge, hst⟩ := hfl
    have hdone := h.done_le
    exact Or.inr (Or.inr ⟨by omega, hst⟩)

theorem distinct (h : Inv total s) : ((s.reserved.drop s.done).map Prod.fst).Nodup := by
  apply List.pairwise_iff_getElem.mpr
  intro i j hi hj hlt hij
  simp only [List.length_map, List.length_drop] at hi hj
  simp only [List.getElem_map, List.getElem_drop] at hij
  rw [h.slot_eq _ _ (List.getElem?_eq_getElem (by omega)),
    h.slot_eq _ _ (List.getElem?_eq_getElem (by omega))] at hij
  have hturn := h.turn
  have := Cyclic.slot_inj (a := s.done) (n := total) (by omega) (by omega) (by omega) (by omega)
    (Int.ofNat.inj hij)
  omega

/-- What the invariant says in the terms of the ring: the slots from the tail back to the head
are reserved or filled, those from the head back to what is completed are being flushed. -/
theorem isFifo (h : Inv total s) (hpos : 0 < total) : IsFifo total s where
  head_range := by
    rw [h.head_eq]
    exact ⟨Int.natCast_nonneg _, by exact_mod_cast Nat.mod_lt _ hpos⟩
  tail_range := by
    rw [h.tail_eq]
    exact ⟨Int.natCast_nonneg _, by exact_mod_cast Nat.mod_lt _ hpos⟩
  intervals := by
    have hdone := h.done_le
    have hcarried := h.carried_le
    have hturn := h.turn
    refine ⟨s.reserved.length - s.carried.length, s.carried.length - s.done, by omega, ?_, ?_⟩
    · rw [h.head_eq, h.tail_eq]
      norm_cast
      rw [Nat.mod_add_mod, Nat.add_sub_cancel' hcarried]
    · intro i h0 h1
      rcases h.status_offset hpos h0 h1 with ⟨ho, hst⟩ | ⟨ho, ho', hst⟩ | ⟨ho, hst⟩
      · refine ⟨iff_of_true hst ho, iff_of_false (fun hfl => ?_) (by omega)⟩
        rw [hfl] at hst
        simp at hst
      · rw [hst]
        exact ⟨iff_of_false (by simp) (by omega), iff_of_false (by simp) (by omega)⟩
      · rw [hst]
        exact ⟨iff_of_false (by simp) (by omega), iff_of_true rfl ho⟩
  distinct := h.distinct
  completed := by
    cases hm : s.inflight with
    | none => exact h.idle hm
    | some m => exact (h.busy m hm).2.1
  order := by
    rw [h.carried_eq]
    exact List.take_prefix _ _
  carried_once := h.sent
  waiting := by
    intro k x hx
    rw [List.getElem?_drop] at hx
    refine ⟨?_, h.holds _ x (Nat.le_add_right _ _) hx⟩
    rw [h.slot_eq _ x hx, h.head_eq]
    norm_cast
    rw [Nat.mod_add_mod]

end Inv

/-- **The write-out ring is a FIFO**, whatever the order of the atomic steps: the slots in use
are an interval that ends at the tail, and the `PAGE_WRTE`s carry the oldest reservations, each
once and in order. -/
theorem reach_fifo {total : ℕ} {nodeID : ℤ} {s : Fifo} (hpos : 0 < total)
    (htotal : total ≤ 32767) (h : Reach total nodeID s) : IsFifo total s :=
  (reach_inv hpos htotal h).isFifo hpos

/-- A ring of two slots that has gone round: the third page waits in the first slot
while the second one is being flushed. -/
theorem reach_fifo_round :
    ∃ s, Reach 2 5 s ∧ IsFifo 2 s ∧ s.carried = [(0, 40), (1, 41)] ∧ s.ring.tail = 1 := by
  obtain ⟨s, hs, hc, ht⟩ := Machine.exists_reach_of_exec init Machine.free (next 2 5)
    (fun s => s.carried = [(0, 40), (1, 41)] ∧ s.ring.tail = 1)
    [.reserve 40, .fill 0 40, .flushBegin, .reserve 41, .fill 1 41, .flushEnd, .reserve 7,
      .flushBegin, .fill 0 7] (by decide)
  exact ⟨s, hs, reach_fifo (by decide) (by decide) hs, hc, ht⟩

end Fifo
end Comex
