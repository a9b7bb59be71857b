import Mathlib.Data.Int.Notation
import Mathlib.Logic.Function.Basic
import Mathlib.Order.Basic
import Mathlib.Tactic.Common

/-!
# The write-out ring of a memory node

`comex_remote.h`: a ring `COMEX_writeOut_buff[nodeID][]` with its position
`buff_pos[nodeID]`.  `COMEX_move_to_Remote` reserves the slot at `tail`, copies a
page into it and marks it filled; `COMEX_flush_buff` takes a run of filled slots
from `head` on and sends it as one `PAGE_WRTE`; `COMEX_free_buff` frees the run
once the transfer is done.

The positions are C shorts, and indices are C ints into the descriptor array.
Addresses are counted in pages.

## Main definitions

* `WriteOut` — descriptors and positions of one ring.
* `flushRun` — the loop of `COMEX_flush_buff`, with the specification `flushRun_spec`.
-/

namespace Comex

/-- The value an integer has once it is stored in a `short`. -/
def toShort (x : ℤ) : ℤ := x.bmod 65536

theorem toShort_eq {x : ℤ} (h0 : 0 ≤ x) (h : x ≤ 32767) : toShort x = x := by
  unfold toShort
  rw [Int.bmod_def]
  omega

/-- `status` of a `buff_desc_t`: -1, 1, 2 and 3. -/
inductive BuffStatus
  | free
  | reserved
  | filled
  | flushing
  deriving DecidableEq, Repr

/-- `buff_desc_t`. -/
structure BuffDesc where
  status : BuffStatus
  nodeID : ℤ
  pageNO : ℤ
  deriving DecidableEq, Repr

/-- A descriptor that holds nothing. -/
def BuffDesc.empty : BuffDesc := ⟨.free, -1, -1⟩

/-- The `COMEX_address_t` of a `PAGE_WRTE`, with its addresses in pages. -/
structure PageWrte where
  /-- `local >> SHIFT_PAGE`. -/
  localPage : ℤ
  /-- `remote >> SHIFT_PAGE`. -/
  remotePage : ℤ
  size : ℕ
  bufIDX : ℤ
  deriving DecidableEq, Repr

/-- `get_writeOut_buff`, in pages. -/
def getWriteOutBuff (totalWriteOut : ℕ) (nodeID buffSlot : ℤ) : ℤ :=
  nodeID * totalWriteOut + buffSlot

/-- The ring of one memory node. -/
structure WriteOut where
  desc : ℤ → BuffDesc
  head : ℤ
  tail : ℤ

namespace WriteOut

/-- `COMEX_init_Remote` leaves the ring empty. -/
def init : WriteOut := ⟨fun _ => .empty, 0, 0⟩

/-- `pos += k; pos %= COMEX_total_writeOut` on a short. -/
def advance (total : ℕ) (pos : ℤ) (k : ℕ) : ℤ := (toShort (pos + k)).tmod total

/-- `COMEX_move_to_Remote` takes the slot at the tail. -/
def reserve (total : ℕ) (w : WriteOut) : WriteOut :=
  { w with
    desc := Function.update w.desc w.tail { w.desc w.tail with status := .reserved }
    tail := advance total w.tail 1 }

/-- `COMEX_move_to_Remote` has copied page `pageNO` into the slot. -/
def fill (w : WriteOut) (slot nodeID pageNO : ℤ) : WriteOut :=
  { w with desc := Function.update w.desc slot ⟨.filled, nodeID, pageNO⟩ }

/-- The test that ends a run before slot `i`: a filled slot whose page does not
follow the one before it. -/
def notContiguous (desc : ℤ → BuffDesc) (i : ℤ) : Bool :=
  (desc i).pageNO.tmod 1024 - 1 != (desc (i - 1)).pageNO.tmod 1024 && (desc i).status == .filled

/-- The loop of `COMEX_flush_buff` with `count` slots marked; at most `n` rounds
are left before the end of the array.  The loop is one step here: the source holds
`pos_mutex` in it but reads the status of a slot twice, in `notContiguous` and for the
next round, and a fill, which takes no lock, may come between the two. -/
def flushRun (total : ℕ) (head : ℤ) : ℕ → ℕ → (ℤ → BuffDesc) → ℕ × (ℤ → BuffDesc)
  | 0, count, desc => (count, desc)
  | n + 1, count, desc =>
    if (desc (head + count)).status = .filled then
      let desc := Function.update desc (head + count)
        { desc (head + count) with status := .flushing }
      let count := count + 1
      if head + count ≥ total then (count, desc)
      else if notContiguous desc (head + count) then (count, desc)
      else flushRun total head n count desc
    else (count, desc)

/-- `COMEX_flush_buff` up to its `COMEX_RDMA` call: the `PAGE_WRTE` it makes, if the
head slot is filled, and the ring with the run marked and the head past it. -/
def flushBegin (total : ℕ) (w : WriteOut) (nodeID : ℤ) : Option PageWrte × WriteOut :=
  let r := flushRun total w.head (total - w.head).toNat 0 w.desc
  if r.1 = 0 then (none, { w with desc := r.2 })
  else
    (some { localPage := getWriteOutBuff total nodeID w.head
            remotePage := (r.2 w.head).pageNO
            size := r.1
            bufIDX := w.head },
      { w with desc := r.2, head := advance total w.head r.1 })

/-- `COMEX_free_buff`. -/
def freeBuff (w : WriteOut) (slot : ℤ) : ℕ → WriteOut
  | 0 => w
  | n + 1 => ({ w with desc := Function.update w.desc slot .empty }).freeBuff (slot + 1) n

/-! ### The loops -/

/-- The descriptors with `n` slots from `a` on marked. -/
def markFlushing (desc : ℤ → BuffDesc) (a : ℤ) (n : ℕ) : ℤ → BuffDesc := fun i =>
  if a ≤ i ∧ i < a + n then { desc i with status := .flushing } else desc i

/-- Page numbers that follow one another as far as `COMEX_flush_buff` looks. -/
def Follows (p q : ℤ) : Prop := q.tmod 1024 - 1 = p.tmod 1024

instance (p q : ℤ) : Decidable (Follows p q) := inferInstanceAs (Decidable (_ = _))

theorem follows_iff {p q : ℤ} (hp : 0 ≤ p) (hq : 0 ≤ q) :
    Follows p q ↔ q % 1024 = p % 1024 + 1 := by
  unfold Follows
  rw [Int.tmod_eq_emod_of_nonneg hp, Int.tmod_eq_emod_of_nonneg hq]
  omega

/-- What one `PAGE_WRTE` may carry: filled slots before the end of the array whose
pages follow one another. -/
structure IsRun (total : ℕ) (desc : ℤ → BuffDesc) (head : ℤ) (count : ℕ) : Prop where
  filled : ∀ i : ℕ, i < count → (desc (head + i)).status = .filled
  follows : ∀ i : ℕ, i + 1 < count →
    Follows (desc (head + i)).pageNO (desc (head + i + 1)).pageNO
  in_range : head + count ≤ total

theorem markFlushing_pageNO (desc : ℤ → BuffDesc) (a i : ℤ) (n : ℕ) :
    (markFlushing desc a n i).pageNO = (desc i).pageNO := by
  unfold markFlushing
  split <;> rfl

theorem markFlushing_status (desc : ℤ → BuffDesc) (a i : ℤ) (n : ℕ) :
    (markFlushing desc a n i).status =
      if a ≤ i ∧ i < a + n then .flushing else (desc i).status := by
  unfold markFlushing
  split <;> rfl

@[simp] theorem markFlushing_zero (desc : ℤ → BuffDesc) (a : ℤ) : markFlushing desc a 0 = desc := by
  funext i
  unfold markFlushing
  rw [if_neg (by omega)]

theorem markFlushing_of_lt (desc : ℤ → BuffDesc) {a i : ℤ} {n : ℕ} (h : a + n ≤ i) :
    markFlushing desc a n i = desc i := by
  unfold markFlushing
  rw [if_neg (by omega)]

theorem markFlushing_succ (desc : ℤ → BuffDesc) (a : ℤ) (n : ℕ) :
    Function.update (markFlushing desc a n) (a + n)
      { markFlushing desc a n (a + n) with status := .flushing } =
      markFlushing desc a (n + 1) := by
  funext i
  by_cases hi : i = a + n
  · subst hi
    rw [Function.update_self, markFlushing_of_lt desc (Int.le_refl _)]
    unfold markFlushing
    rw [if_pos (by omega)]
  · rw [Function.update_of_ne hi]
    unfold markFlushing
    by_cases hin : a ≤ i ∧ i < a + n
    · rw [if_pos hin, if_pos (by omega)]
    · rw [if_neg hin, if_neg (by omega)]

/-- The pages of every run that may be flushed next are consecutive, and not only
modulo 1024. -/
def Consecutive (total : ℕ) (w : WriteOut) : Prop :=
  ∀ count, IsRun total w.desc w.head count → ∀ i : ℕ, i + 1 < count →
    (w.desc (w.head + i + 1)).pageNO = (w.desc (w.head + i)).pageNO + 1

private theorem cast_next (a : ℤ) (i : ℕ) : a + ((i + 1 : ℕ) : ℤ) = a + i + 1 := by omega

instance (total : ℕ) (desc : ℤ → BuffDesc) (head : ℤ) (count : ℕ) :
    Decidable (IsRun total desc head count) :=
  decidable_of_iff ((∀ i : ℕ, i < count → (desc (head + i)).status = .filled) ∧
      (∀ i : ℕ, i < count - 1 → Follows (desc (head + i)).pageNO (desc (head + i + 1)).pageNO) ∧
      head + count ≤ total)
    ⟨fun ⟨h1, h2, h3⟩ => ⟨h1, fun i hi => h2 i (by omega), h3⟩,
      fun h => ⟨h.filled, fun i hi => h.follows i (by omega), h.in_range⟩⟩

instance (total : ℕ) (w : WriteOut) : Decidable (Consecutive total w) :=
  decidable_of_iff (∀ count, count < (total - w.head).toNat + 1 →
      IsRun total w.desc w.head count → ∀ i : ℕ, i < count - 1 →
        (w.desc (w.head + i + 1)).pageNO = (w.desc (w.head + i)).pageNO + 1)
    ⟨fun h count hrun i hi => h count (by have := hrun.in_range; omega) hrun i (by omega),
      fun h count _ hrun i hi => h count hrun i (by omega)⟩

/-- The pages of such a run are counted up from the first one. -/
theorem Consecutive.pageNO_eq {total : ℕ} {w : WriteOut} (h : Consecutive total w) {count : ℕ}
    (hrun : IsRun total w.desc w.head count) : ∀ j : ℕ, j < count →
    (w.desc (w.head + j)).pageNO = (w.desc w.head).pageNO + j := by
  intro j
  induction j with
  | zero => simp
  | succ j ih =>
    intro hj
    rw [cast_next, h count hrun j hj, ih (by omega)]
    omega

/-- A round of the loop that marks its slot: it is the last one if the array ends or the
next filled slot does not follow. -/
theorem flushRun_filled {total : ℕ} {head : ℤ} {desc : ℤ → BuffDesc} (n : ℕ) {count : ℕ}
    (hst : (desc (head + count)).status = .filled) :
    flushRun total head (n + 1) count (markFlushing desc head count) =
      if head + (count + 1 : ℕ) ≥ total ∨ (desc (head + count + 1)).status = .filled ∧
          ¬ Follows (desc (head + count)).pageNO (desc (head + count + 1)).pageNO then
        (count + 1, markFlushing desc head (count + 1))
      else flushRun total head n (count + 1) (markFlushing desc head (count + 1)) := by
  have hmark := markFlushing_succ desc head count
  rw [markFlushing_of_lt desc (by omega)] at hmark
  have hnc : notContiguous (markFlushing desc head (count + 1)) (head + (count + 1 : ℕ)) ↔
      (desc (head + count + 1)).status = .filled ∧
        ¬ Follows (desc (head + count)).pageNO (desc (head + count + 1)).pageNO := by
    rw [notContiguous, markFlushing_pageNO, markFlushing_of_lt desc (Int.le_refl _),
      markFlushing_pageNO, cast_next, Int.add_sub_cancel, Bool.and_eq_true, bne_iff_ne, beq_iff_eq]
    exact And.comm
  rw [flushRun, markFlushing_of_lt desc (by omega)]
  simp only [if_pos hst, hmark, hnc]
  by_cases hend : head + (count + 1 : ℕ) ≥ total
  · rw [if_pos hend, if_pos (Or.inl hend)]
  · rw [if_neg hend]
    simp only [hend, false_or]

/-- **The loop marks a run.**  Of the slots marked so far the invariant is that of a
run, and that the slot after them, if filled, may join it. -/
theorem flushRun_spec {total : ℕ} {head : ℤ} {desc : ℤ → BuffDesc} : ∀ (n count : ℕ),
    head + count + n = total →
    (∀ i : ℕ, i < count → (desc (head + i)).status = .filled) →
    (∀ i : ℕ, i < count → (desc (head + i + 1)).status = .filled →
      Follows (desc (head + i)).pageNO (desc (head + i + 1)).pageNO) →
    let r := flushRun total head n count (markFlushing desc head count)
    IsRun total desc head r.1 ∧ r.2 = markFlushing desc head r.1 := by
  intro n
  induction n with
  | zero =>
    intro count hn hfilled hfollows
    refine ⟨⟨hfilled, fun i hi => ?_, ?_⟩, rfl⟩
    · change i + 1 < count at hi
      apply hfollows i (by omega)
      have := hfilled (i + 1) hi
      rwa [cast_next] at this
    · change head + count ≤ total
      omega
  | succ n ih =>
    intro count hn hfilled hfollows
    have hrun : ∀ c : ℕ, c ≤ count + 1 → (∀ i : ℕ, i < c → (desc (head + i)).status = .filled) →
        IsRun total desc head c := fun c hc hf => by
      refine ⟨hf, fun i hi => hfollows i (by omega) ?_, by omega⟩
      have := hf (i + 1) hi
      rwa [cast_next] at this
    by_cases hst : (desc (head + count)).status = .filled
    · -- the slot is marked; the loop goes on unless the array or the sequence ends
      have hfilled' : ∀ i : ℕ, i < count + 1 → (desc (head + i)).status = .filled := by
        intro i hi
        rcases Nat.lt_succ_iff_lt_or_eq.mp hi with hlt | rfl
        · exact hfilled i hlt
        · exact hst
      rw [flushRun_filled n hst]
      split
      · exact ⟨hrun _ (Nat.le_refl _) hfilled', rfl⟩
      · next hgo =>
        rw [not_or, not_and, not_not] at hgo
        apply ih (count + 1) (by omega) hfilled'
        intro i hi hf
        rcases Nat.lt_succ_iff_lt_or_eq.mp hi with hlt | rfl
        · exact hfollows i hlt hf
        · exact hgo.2 hf
    · -- the slot is not filled, and the loop ends with what it has
      rw [flushRun, markFlushing_of_lt desc (by omega)]
      rw [if_neg hst]
      exact ⟨hrun count (by omega) hfilled, rfl⟩

/-- **What a flush does**: nothing, or it marks a run, moves the head past it and
sends it to the page of its first slot. -/
theorem flushBegin_spec (total : ℕ) (w : WriteOut) (nodeID : ℤ) :
    w.flushBegin total nodeID = (none, w) ∨
      ∃ count : ℕ, 0 < count ∧ IsRun total w.desc w.head count ∧
        w.flushBegin total nodeID =
          (some { localPage := getWriteOutBuff total nodeID w.head
                  remotePage := (w.desc w.head).pageNO
                  size := count
                  bufIDX := w.head },
            { w with
              desc := markFlushing w.desc w.head count
              head := advance total w.head count }) := by
  rcases Int.lt_or_le w.head total with hlt | hle
  swap
  · -- past the end there is no round
    left
    rw [flushBegin, Int.toNat_eq_zero.mpr (by omega)]
    rfl
  obtain ⟨hrun, hdesc⟩ := @flushRun_spec total w.head w.desc (total - w.head).toNat 0
    (by omega) (fun i hi => absurd hi (by omega)) (fun i hi => absurd hi (by omega))
  rw [markFlushing_zero] at hrun hdesc
  unfold flushBegin
  cases hr : flushRun total w.head (total - w.head).toNat 0 w.desc with
  | mk count desc =>
    rw [hr] at hrun hdesc
    simp only at hrun hdesc
    subst hdesc
    by_cases hcount : count = 0
    · subst hcount
      exact Or.inl (by simp)
    · refine Or.inr ⟨count, by omega, hrun, ?_⟩
      simp [hcount, markFlushing_pageNO]

theorem freeBuff_desc (n : ℕ) : ∀ (w : WriteOut) (slot i : ℤ),
    (w.freeBuff slot n).desc i = if slot ≤ i ∧ i < slot + n then .empty else w.desc i := by
  induction n with
  | zero =>
    intro w slot i
    rw [if_neg (by omega)]
    rfl
  | succ n ih =>
    intro w slot i
    rw [freeBuff, ih]
    by_cases hi : i = slot
    · subst hi
      rw [if_neg (by omega), if_pos (by omega)]
      exact Function.update_self ..
    · by_cases hin : slot + 1 ≤ i ∧ i < slot + 1 + n
      · rw [if_pos hin, if_pos (by omega)]
      · rw [if_neg hin, if_neg (by omega)]
        exact Function.update_of_ne hi ..

@[simp] theorem freeBuff_head (n : ℕ) : ∀ (w : WriteOut) (slot : ℤ),
    (w.freeBuff slot n).head = w.head := by
  induction n with
  | zero => exact fun _ _ => rfl
  | succ n ih => exact fun w slot => ih _ _

@[simp] theorem freeBuff_tail (n : ℕ) : ∀ (w : WriteOut) (slot : ℤ),
    (w.freeBuff slot n).tail = w.tail := by
  induction n with
  | zero => exact fun _ _ => rfl
  | succ n ih => exact fun w slot => ih _ _

/-- A position that stays within a short moves round the ring. -/
theorem advance_eq {total : ℕ} (htotal : total ≤ 32767) {pos : ℤ} {k : ℕ} (h0 : 0 ≤ pos)
    (h : pos + k ≤ total) : advance total pos k = (pos + k) % total := by
  rw [advance, toShort_eq (by omega) (by omega), Int.tmod_eq_emod_of_nonneg (by omega)]

/-- Before the end of the array it moves on. -/
theorem advance_of_lt {total : ℕ} {pos : ℤ} {k : ℕ} (h0 : 0 ≤ pos) (hshort : pos + k ≤ 32767)
    (h : pos + k < total) : advance total pos k = pos + k := by
  rw [advance, toShort_eq (by omega) hshort, Int.tmod_eq_emod_of_nonneg (by omega),
    Int.emod_eq_of_lt (by omega) h]

end WriteOut
end Comex
