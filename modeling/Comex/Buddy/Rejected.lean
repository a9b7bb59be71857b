import Comex.Buddy.Invariant

/-!
# Calls the allocator gives up

`COMEX_checkCtr` moves a counter before it looks at it, and returns 0 in the middle
of the block without moving the counters back; `COMEX_rmqueue_smallest` has taken
the block off its list and split it by then.  So a call that is given up always
leaves a trace, from whatever state it is made.

## Main definitions

* `InArray` — a call that names any page and order whose block lies in the array.
* `Rejected s c` — `COMEX_checkCtr` complains during the call.
* `Counted s c` — every page the call recounts has the counter it should have.

## Main results

* `checkCtrLoop_iff` — when the check complains.
* `reach_untouched_iff` — **a call leaves no trace of a rejection exactly when the
  counters were right, that is, when there is no rejection.**
-/

namespace Comex
namespace Buddy

/-! ### What the list statements leave alone -/

/-- Only lists and the descriptors' orders have changed. -/
structure Relinked (s s' : Buddy) : Prop extends SameCtr s s' where
  pageNO : ∀ p, (s'.page p).pageNO = (s.page p).pageNO

section Relinked

variable {s t u : Buddy}

theorem Relinked.refl (s : Buddy) : Relinked s s := ⟨SameCtr.refl s, fun _ => rfl⟩

theorem Relinked.trans (h : Relinked s t) (h' : Relinked t u) : Relinked s u :=
  ⟨h.toSameCtr.trans h'.toSameCtr, fun p => (h'.pageNO p).trans (h.pageNO p)⟩

theorem relinked_setArea (s : Buddy) (k : ℕ) (a : FreeArea) : Relinked s (s.setArea k a) :=
  ⟨⟨rfl, rfl, fun _ => rfl⟩, fun _ => rfl⟩

theorem relinked_listDel (s : Buddy) (p : ℕ) : Relinked s (s.listDel p) :=
  ⟨⟨rfl, rfl, fun _ => rfl⟩, fun _ => rfl⟩

/-- An assignment to the order of a descriptor. -/
theorem relinked_setPage (s : Buddy) (p k : ℕ) (m : ℤ) :
    Relinked s (s.setPage p { s.page p with priv := k, mapcount := m }) := by
  refine ⟨⟨rfl, rfl, fun q => ?_⟩, fun q => ?_⟩
  · rw [setPage_page]
    split <;> simp_all
  · rw [setPage_page]
    split <;> simp_all

theorem relinked_expandLoop (page low : ℕ) : ∀ (high size area : ℕ) (s : Buddy),
    Relinked s (expandLoop page low high size area s) := by
  intro high
  induction high with
  | zero => exact fun _ _ s => Relinked.refl s
  | succ high ih =>
    intro size area s
    rw [expandLoop]
    split
    · refine Relinked.trans ?_ (ih _ _ _)
      exact ((relinked_setArea s _ _).trans (relinked_setArea _ _ _)).trans
        (relinked_setPage _ _ _ _)
    · exact Relinked.refl s

theorem relinked_mergeLoop : ∀ (n page pageIdx order : ℕ) (s : Buddy),
    Relinked s (mergeLoop n page pageIdx order s).1 := by
  intro n
  induction n with
  | zero => exact fun _ _ _ s => Relinked.refl s
  | succ n ih =>
    intro page pageIdx order s
    rw [mergeLoop]
    simp only
    split
    · refine Relinked.trans ?_ (ih _ _ _ _)
      exact (((relinked_listDel s _).trans (relinked_setPage _ _ _ _)).trans
        (relinked_setPage _ _ _ _)).trans (relinked_setArea _ _ _)
    · exact Relinked.refl s

end Relinked

/-! ### The check of the counters -/

/-- The check passes over a block exactly when all its counters are as expected; it
prints a line otherwise. -/
theorem checkCtrLoop_iff {val : ℤ} (hval : val = 1 ∨ val = -1) : ∀ (n i : ℕ) (s : Buddy),
    ((checkCtrLoop val n i s).1 = true ↔ ∀ j < n, (s.page (i + j)).cmxCntr = ctrBefore val) ∧
      ((checkCtrLoop val n i s).2.failed = s.failed ↔ (checkCtrLoop val n i s).1 = true) := by
  intro n
  induction n with
  | zero => exact fun i s => ⟨by simp [checkCtrLoop], by simp [checkCtrLoop]⟩
  | succ n ih =>
    intro i s
    rw [checkCtrLoop]
    simp only
    split
    · next hbad =>
      -- the first counter is not what it should be
      have hne : (s.page i).cmxCntr ≠ ctrBefore val := by
        intro heq
        rw [heq] at hbad
        rcases hval with rfl | rfl <;> simp [ctrBefore] at hbad
      exact ⟨iff_of_false (by simp) fun h => hne (h 0 (Nat.succ_pos n)),
        iff_of_false (List.cons_ne_self _ _) (by simp)⟩
    · next hgood =>
      have heq : (s.page i).cmxCntr = ctrBefore val := by
        rcases hval with rfl | rfl <;> simp [ctrBefore] at hgood ⊢ <;> omega
      obtain ⟨h1, h2⟩ := ih (i + 1)
        (s.setPage i { s.page i with cmxCntr := (s.page i).cmxCntr + val })
      refine ⟨h1.trans ?_, h2⟩
      constructor
      · intro h j hj
        cases j with
        | zero => exact heq
        | succ j =>
          have := h j (by omega)
          rwa [setPage_page, if_neg (by omega), Nat.add_assoc, Nat.add_comm 1 j] at this
      · intro h j hj
        rw [setPage_page, if_neg (by omega), Nat.add_assoc, Nat.add_comm 1 j]
        exact h (j + 1) (by omega)

/-- Pages before the block keep their descriptors. -/
theorem checkCtrLoop_page_of_lt {val : ℤ} {q : ℕ} : ∀ (n i : ℕ) (s : Buddy), q < i →
    (checkCtrLoop val n i s).2.page q = s.page q := by
  intro n
  induction n with
  | zero => exact fun _ _ _ => rfl
  | succ n ih =>
    intro i s hq
    rw [checkCtrLoop]
    simp only
    split
    · simp [Nat.ne_of_lt hq]
    · rw [ih (i + 1) _ (by omega), setPage_page, if_neg (Nat.ne_of_lt hq)]

/-- **The first counter moves whatever the check says.** -/
theorem checkCtrLoop_first (val : ℤ) {n : ℕ} (hn : 0 < n) (i : ℕ) (s : Buddy) :
    ((checkCtrLoop val n i s).2.page i).cmxCntr = (s.page i).cmxCntr + val := by
  obtain ⟨n, rfl⟩ := Nat.exists_eq_succ_of_ne_zero (Nat.ne_of_gt hn)
  rw [checkCtrLoop]
  simp only
  split
  · simp
  · rw [checkCtrLoop_page_of_lt n (i + 1) _ (Nat.lt_succ_self i)]
    simp

theorem checkCtrLoop_pageNO {val : ℤ} (q : ℕ) : ∀ (n i : ℕ) (s : Buddy),
    ((checkCtrLoop val n i s).2.page q).pageNO = (s.page q).pageNO := by
  intro n
  induction n with
  | zero => exact fun _ _ => rfl
  | succ n ih =>
    intro i s
    have hset : ∀ c : ℤ, ((s.setPage i { s.page i with cmxCntr := c }).page q).pageNO =
        (s.page q).pageNO := by
      intro c
      rw [setPage_page]
      split <;> simp_all
    rw [checkCtrLoop]
    simp only
    split
    · exact hset _
    · rw [ih, hset]

/-! ### The two calls -/

/-- The block `COMEX_rmqueue_smallest` takes: the first one on the first list that is
not empty. -/
def firstFit (s : Buddy) (order : ℕ) : Option ℕ :=
  (List.range' order (maxOrder - order)).findSome? fun k => (s.area k).freeList.head?

/-- Descriptors carry their index. -/
def Numbered (s : Buddy) : Prop := ∀ p, (s.page p).pageNO = p

/-- An allocation is a search, some relinking, and a check of the block found. -/
theorem rmqueueLoop_cases {s : Buddy} (hs : Numbered s) (order : ℕ) : ∀ n current,
    match (List.range' current n).findSome? (fun k => (s.area k).freeList.head?) with
    | none => rmqueueLoop order n current s = (none, s)
    | some p => ∃ t, Relinked s t ∧
        (rmqueueLoop order n current s).2 = (t.checkCtr p order 1).2 := by
  intro n
  induction n with
  | zero => exact fun current => rfl
  | succ n ih =>
    intro current
    rw [List.range'_succ, List.findSome?_cons, rmqueueLoop]
    cases hlist : (s.area current).freeList with
    | nil => exact ih (current + 1)
    | cons page rest =>
      have hre : Relinked s ((((s.listDel page).rmvPageOrder page).addNrFree current (-1)).expand
          page order current current) :=
        (((relinked_listDel s _).trans (relinked_setPage _ _ _ _)).trans
          (relinked_setArea _ _ _)).trans (relinked_expandLoop _ _ _ _ _ _)
      refine ⟨_, hre, ?_⟩
      simp only [hre.pageNO, hs page]

theorem rmqueueSmallest_cases {s : Buddy} (hs : Numbered s) (order : ℕ) :
    match s.firstFit order with
    | none => s.rmqueueSmallest order = (none, s)
    | some p => ∃ t, Relinked s t ∧
        (s.rmqueueSmallest order).2 = (t.checkCtr p order 1).2 :=
  rmqueueLoop_cases hs order _ _

/-- A free is a check of the block, and some relinking when it passes. -/
theorem freePage_cases (s : Buddy) (p order : ℕ) :
    if (s.checkCtr p order (-1)).1 = true then
      Relinked (s.checkCtr p order (-1)).2 (s.freePage p order)
    else s.freePage p order = (s.checkCtr p order (-1)).2 := by
  unfold Buddy.freePage
  split
  · next hok =>
    simp only [if_pos hok]
    refine Relinked.trans ?_ (((relinked_setPage _ _ _ _).trans (relinked_setArea _ _ _)).trans
      (relinked_setArea _ _ _))
    exact relinked_mergeLoop _ _ _ _ _
  · next hno => simp only [if_neg hno]

theorem Numbered.call {s : Buddy} (h : Numbered s) (c : Call) : Numbered (s.call c) := by
  cases c with
  | rmqueueSmallest order =>
    intro q
    have hcases := rmqueueSmallest_cases h order
    change ((s.rmqueueSmallest order).2.page q).pageNO = q
    cases hfit : s.firstFit order with
    | none =>
      simp only [hfit] at hcases
      rw [hcases]
      exact h q
    | some p =>
      simp only [hfit] at hcases
      obtain ⟨t, ht, heq⟩ := hcases
      rw [heq, checkCtr, checkCtrLoop_pageNO, ht.pageNO, h]
  | freePage p order =>
    intro q
    have hcases := freePage_cases s p order
    change ((s.freePage p order).page q).pageNO = q
    have hctr : ((s.checkCtr p order (-1)).2.page q).pageNO = q := by
      rw [checkCtr, checkCtrLoop_pageNO, h]
    split at hcases
    · rw [hcases.pageNO, hctr]
    · rw [hcases, hctr]

/-! ### Rejected calls -/

/-- A call that names a block of the array, allocated or not, aligned or not. -/
def InArray (s : Buddy) : Call → Prop
  | .rmqueueSmallest _ => True
  | .freePage p k => p + 2 ^ k ≤ s.totalPages

instance (s : Buddy) : (c : Call) → Decidable (InArray s c)
  | .rmqueueSmallest _ => inferInstanceAs (Decidable True)
  | .freePage p k => inferInstanceAs (Decidable (p + 2 ^ k ≤ s.totalPages))

/-- `COMEX_checkCtr` returned 0 during the call: it has printed a line. -/
def Rejected (s : Buddy) (c : Call) : Prop := (s.call c).failed ≠ s.failed

instance (s : Buddy) (c : Call) : Decidable (Rejected s c) :=
  inferInstanceAs (Decidable ((s.call c).failed ≠ s.failed))

/-- Every descriptor, list and count has the value it had. -/
structure Untouched (s s' : Buddy) : Prop where
  page : ∀ p, s'.page p = s.page p
  area : ∀ k, s'.area k = s.area k

/-- The pages the call recounts have the counters it expects. -/
def Counted (s : Buddy) : Call → Prop
  | .rmqueueSmallest k => ∀ p ∈ s.firstFit k, ∀ i < 2 ^ k, (s.page (p + i)).cmxCntr = 0
  | .freePage p k => ∀ i < 2 ^ k, (s.page (p + i)).cmxCntr = 1

/-- A free is rejected when some page of the block is not allocated. -/
theorem rejected_freePage_iff {s : Buddy} {p k : ℕ} :
    Rejected s (.freePage p k) ↔ ¬ Counted s (.freePage p k) := by
  have hcases := freePage_cases s p k
  obtain ⟨hiff, hfail⟩ := checkCtrLoop_iff (Or.inr rfl) (2 ^ k) p s
  rw [checkCtr, Nat.one_shiftLeft] at hcases
  apply not_congr
  change (s.freePage p k).failed = s.failed ↔ ∀ i < 2 ^ k, (s.page (p + i)).cmxCntr = 1
  refine Iff.trans ?_ hiff
  split at hcases
  · next hok => rw [hcases.failed, hfail]
  · rw [hcases, hfail]

/-- An allocation is rejected when some page of the block it finds is not free. -/
theorem rejected_rmqueueSmallest_iff {s : Buddy} (hs : Numbered s) {k : ℕ} :
    Rejected s (.rmqueueSmallest k) ↔ ¬ Counted s (.rmqueueSmallest k) := by
  have hcases := rmqueueSmallest_cases hs k
  apply not_congr
  change (s.rmqueueSmallest k).2.failed = s.failed ↔
    ∀ p ∈ s.firstFit k, ∀ i < 2 ^ k, (s.page (p + i)).cmxCntr = 0
  cases hfit : s.firstFit k with
  | none =>
    simp only [hfit] at hcases
    rw [hcases]
    simp
  | some p =>
    simp only [hfit] at hcases
    obtain ⟨t, ht, heq⟩ := hcases
    obtain ⟨hiff, hfail⟩ := checkCtrLoop_iff (Or.inl rfl) (2 ^ k) p t
    rw [heq, checkCtr, Nat.one_shiftLeft, ← ht.failed, hfail, hiff]
    simp only [ht.cmxCntr, Option.mem_some_iff, forall_eq']
    rfl

/-- **A rejected call is never without a trace**: the first counter of its block has moved.
`COMEX_checkCtr` adds `val` to a counter before it compares, and nothing takes the addition
back. -/
theorem Rejected.not_untouched {s : Buddy} (hs : Numbered s) {c : Call} (h : Rejected s c) :
    ¬ Untouched s (s.call c) := by
  intro hu
  cases c with
  | rmqueueSmallest k =>
    have hcases := rmqueueSmallest_cases hs k
    cases hfit : s.firstFit k with
    | none =>
      -- a call that finds no block is not rejected
      simp only [hfit] at hcases
      apply h
      change (s.rmqueueSmallest k).2.failed = s.failed
      rw [hcases]
    | some p =>
      simp only [hfit] at hcases
      obtain ⟨t, ht, heq⟩ := hcases
      have hfirst := checkCtrLoop_first 1 (Nat.two_pow_pos k) p t
      have hsame := congrArg Page.cmxCntr (hu.page p)
      change ((s.rmqueueSmallest k).2.page p).cmxCntr = _ at hsame
      rw [heq, checkCtr, Nat.one_shiftLeft, hfirst, ht.cmxCntr] at hsame
      omega
  | freePage p k =>
    have hcases := freePage_cases s p k
    have hno : ¬ (s.checkCtr p k (-1)).1 = true := by
      have hbad := rejected_freePage_iff.mp h
      rw [checkCtr, Nat.one_shiftLeft, (checkCtrLoop_iff (Or.inr rfl) _ _ _).1]
      exact hbad
    rw [if_neg hno] at hcases
    have hfirst := checkCtrLoop_first (-1) (Nat.two_pow_pos k) p s
    have hsame := congrArg Page.cmxCntr (hu.page p)
    change ((s.freePage p k).page p).cmxCntr = _ at hsame
    rw [hcases, checkCtr, Nat.one_shiftLeft, hfirst] at hsame
    omega

/-- A state reached by any calls, legal or not. -/
abbrev AnyReach (totalPages : ℕ) (s : Buddy) : Prop :=
  Machine.Reach (machine totalPages) InArray s

theorem anyReach_numbered {n : ℕ} {s : Buddy} (h : AnyReach n s) : Numbered s := by
  refine h.invariant ?_ ?_
  · rintro s rfl p
    rfl
  · intro s c s' _ hs _ hstep
    rw [← Option.some.inj hstep]
    exact hs.call c

/-- **When a rejection leaves no trace**: exactly when the counters the call moves are
right, so that it is not rejected at all. -/
theorem reach_untouched_iff {n : ℕ} {s : Buddy} (h : AnyReach n s) (c : Call) :
    (Rejected s c → Untouched s (s.call c)) ↔ Counted s c := by
  have hs := anyReach_numbered h
  have hiff : Rejected s c ↔ ¬ Counted s c := by
    cases c with
    | rmqueueSmallest k => exact rejected_rmqueueSmallest_iff hs
    | freePage p k => exact rejected_freePage_iff
  constructor
  · intro himp
    by_contra hbad
    have hrej := hiff.mpr hbad
    exact hrej.not_untouched hs (himp hrej)
  · intro hgood hrej
    exact absurd hgood (hiff.mp hrej)

/-- A page freed once: its second free is not without a trace. -/
theorem reach_untouched_iff_twice :
    let s := (initEmpty 4).call (.freePage 0 0)
    (Rejected s (.freePage 0 0) → Untouched s (s.call (.freePage 0 0))) ↔
      Counted s (.freePage 0 0) :=
  reach_untouched_iff (n := 4)
    (.next (a := .freePage 0 0) (.start (s := initEmpty 4) rfl) (by decide) rfl) _

/-- Page 0 freed twice: the second call is rejected, and the counter is at -1. -/
theorem not_untouched : ¬ ∀ n s, AnyReach n s → ∀ c, InArray s c → Rejected s c →
    Untouched s (s.call c) := by
  intro h
  have hs : AnyReach 4 ((initEmpty 4).call (.freePage 0 0)) :=
    .next (a := .freePage 0 0) (.start (s := initEmpty 4) rfl) (by decide) rfl
  have hctr := congrArg Page.cmxCntr
    ((h 4 _ hs (.freePage 0 0) (by decide) (by decide)).page 0)
  revert hctr
  decide

end Buddy
end Comex
