import Comex.Buddy.Canonical
import Mathlib.Data.Finset.Card

/-!
# Starting the allocator

`COMEX_init_ENV` frees every page, allocates one page after the other until the
allocator is empty, and frees again the pages that have memory behind them.

## Main definitions

* `freeEach`, `drain`, `drainPages` — the loops of `COMEX_init_ENV`.
* `startup` — the three of them.

## Main results

* `startup_spec` — **the loops end, and leave free just the pages with memory.**
* `startup_exact` — no counter check fails on the way, and the drain hands out each page once.
-/

namespace Comex
namespace Buddy

open Aligned

/-- The loops over `COMEX_free_page(i, 0)`, from page `i` on, with the test they make. -/
def freeEach (keep : ℕ → Bool) : ℕ → ℕ → Buddy → Buddy
  | 0, _, s => s
  | n + 1, i, s => freeEach keep n (i + 1) (if keep i then s.freePage i 0 else s)

/-- The loop over `COMEX_rmqueue_smallest(0)`; `none` when it takes more rounds. -/
def drain : ℕ → Buddy → Option Buddy
  | 0, _ => none
  | n + 1, s =>
    let r := s.rmqueueSmallest 0
    if r.1.isSome then drain n r.2 else some r.2

/-- The same loop with the page numbers it is handed. -/
def drainPages : ℕ → Buddy → Option (List ℕ × Buddy)
  | 0, _ => none
  | n + 1, s =>
    let r := s.rmqueueSmallest 0
    match r.1 with
    | some p => (drainPages n r.2).map fun d => (p :: d.1, d.2)
    | none => some ([], r.2)

theorem drainPages_snd : ∀ (n : ℕ) (s : Buddy), (drainPages n s).map Prod.snd = drain n s
  | 0, _ => rfl
  | n + 1, s => by
    have ih := drainPages_snd n (s.rmqueueSmallest 0).2
    rw [drainPages, drain]
    cases hr : (s.rmqueueSmallest 0).1 with
    | none => simp
    | some p =>
      simp only [Option.isSome_some, if_true]
      rw [← ih, Option.map_map]
      rfl

/-- The loops of `COMEX_init_ENV`, with the pages that have memory. -/
def startup (totalPages : ℕ) (backed : ℕ → Bool) : Option Buddy :=
  (drain (totalPages + 1) (freeEach (fun _ => true) totalPages 0 (initEmpty totalPages))).map
    (freeEach backed totalPages 0)

section Loops

variable {T : ℕ} {s : Buddy}

theorem reach_freeEach {keep : ℕ → Bool} {n : ℕ} : ∀ {i : ℕ} {s : Buddy}, Reach T s → i + n ≤ T →
    (∀ p, i ≤ p → p ∉ s.freePages) → Reach T (freeEach keep n i s) ∧
      ∀ p, p ∈ (freeEach keep n i s).freePages ↔
        p ∈ s.freePages ∨ i ≤ p ∧ p < i + n ∧ keep p = true := by
  induction n with
  | zero =>
    intro i s h _ _
    refine ⟨h, fun p => ?_⟩
    simp only [freeEach]
    constructor
    · exact Or.inl
    · rintro (hp | hp)
      · exact hp
      · omega
  | succ n ih =>
    intro i s h hn hused
    rw [freeEach]
    by_cases hkeep : keep i = true
    · obtain ⟨hinv, htot, -⟩ := reach_inv h
      -- the page is allocated, so its free is legal
      have hcan : CanFree s i 0 := by
        refine ⟨by decide, by simp, by rw [htot]; simp only [pow_zero]; omega, fun j hj => ?_⟩
        obtain rfl : j = 0 := by simpa using hj
        have hlt : i < s.totalPages := by omega
        apply (hinv.ctr_eq _ hlt).resolve_left
        intro hc
        exact hused i le_rfl ((hinv.free_iff i hlt).mp hc)
      have hf := hinv.freePage hcan
      have hmem : ∀ p, p ∈ (s.freePage i 0).freePages ↔ p ∈ s.freePages ∨ p = i := by
        intro p
        rw [hf.freePages, mem_around_iff (by simp)]
        exact or_congr_right (by omega)
      rw [if_pos hkeep]
      have hnext : Reach T (s.freePage i 0) := h.next (a := .freePage i 0) hcan rfl
      obtain ⟨hr, hfree⟩ := ih (i := i + 1) hnext (by omega) fun p hp hc => by
        rcases (hmem p).mp hc with hc | rfl
        · exact hused p (by omega) hc
        · omega
      refine ⟨hr, fun p => ?_⟩
      rw [hfree, hmem, or_assoc]
      refine or_congr_right ⟨?_, fun hp => ?_⟩
      · rintro (rfl | hp)
        · exact ⟨le_rfl, by omega, hkeep⟩
        · exact ⟨by omega, by omega, hp.2.2⟩
      · by_cases hpi : p = i
        · exact Or.inl hpi
        · exact Or.inr ⟨by omega, by omega, hp.2.2⟩
    · rw [if_neg hkeep]
      obtain ⟨hr, hfree⟩ := ih (i := i + 1) h (by omega) fun p hp => hused p (by omega)
      refine ⟨hr, fun p => ?_⟩
      rw [hfree]
      refine or_congr_right ⟨fun hp => ⟨by omega, by omega, hp.2.2⟩, fun hp => ?_⟩
      have hne : p ≠ i := by
        rintro rfl
        exact hkeep hp.2.2
      exact ⟨by omega, by omega, hp.2.2⟩

/-- The pages that are free, counted. -/
def freeCard (s : Buddy) : ℕ :=
  ((Finset.range s.totalPages).filter fun p => (s.page p).cmxCntr = 0).card

theorem freeCard_le (s : Buddy) : freeCard s ≤ s.totalPages := by
  unfold freeCard
  exact (Finset.card_filter_le _ _).trans_eq (Finset.card_range _)

/-- An allocated page is one page less. -/
theorem Allocated.freeCard_lt {k p : ℕ} {s' : Buddy} (ha : Allocated s k p s') (h : Inv s) :
    freeCard s' < freeCard s := by
  have hmem : ∀ {t : Buddy}, Inv t → ∀ q,
      q ∈ ((Finset.range t.totalPages).filter fun p => (t.page p).cmxCntr = 0) ↔
        q ∈ t.freePages := by
    intro t ht q
    rw [Finset.mem_filter, Finset.mem_range, ht.mem_freePages]
  refine Finset.card_lt_card ((Finset.ssubset_iff_of_subset fun q hq => ?_).mpr ⟨p, ?_, ?_⟩)
  · exact (hmem h q).mpr ((ha.freePages q).mp ((hmem ha.inv q).mp hq)).1
  · exact (hmem h p).mpr (ha.was_free p (Block.mem_around k p))
  · exact fun hc => ((ha.freePages p).mp ((hmem ha.inv p).mp hc)).2 (Block.mem_around k p)

/-- **Draining hands out each free page once**: one round for every free page, and one
that finds none. -/
theorem reach_drainPages {n : ℕ} : ∀ {s : Buddy}, Reach T s → freeCard s < n →
    ∃ l s', drainPages n s = some (l, s') ∧ Reach T s' ∧ (∀ p, p ∉ s'.freePages) ∧
      l.Nodup ∧ ∀ p, p ∈ l ↔ p ∈ s.freePages := by
  induction n with
  | zero => exact fun _ h => absurd h (Nat.not_lt_zero _)
  | succ n ih =>
    intro s h hlt
    obtain ⟨hinv, -, -⟩ := reach_inv h
    have hnext : Reach T (s.rmqueueSmallest 0).2 :=
      h.next (a := .rmqueueSmallest 0) (show 0 < maxOrder by decide) rfl
    rw [drainPages]
    rcases hinv.rmqueueSmallest (show 0 < maxOrder by decide) with ⟨hnone, hempty⟩ | ⟨p, hp, ha⟩
    · -- the round that gets no page is the last: every list is empty
      have hfree : ∀ p, p ∉ s.freePages := by
        rintro p ⟨b, hb, -⟩
        exact absurd (hempty b hb) (Nat.not_lt_zero _)
      exact ⟨[], s, by simp [hnone], h, hfree, List.nodup_nil, fun p => by simp [hfree p]⟩
    · obtain ⟨l, s', hs', hr, hfree, hnodup, hmem⟩ :=
        ih hnext (by have := ha.freeCard_lt hinv; omega)
      have hiff : ∀ q, q ∈ l ↔ q ∈ s.freePages ∧ q ≠ p := by
        intro q
        rw [hmem, ha.freePages, mem_around_iff ha.aligned, pow_zero]
        exact and_congr_right fun _ => by omega
      have hpfree : p ∈ s.freePages := ha.was_free p (Block.mem_around 0 p)
      refine ⟨p :: l, s', by simp [hp, hs'], hr, hfree, ?_, fun q => ?_⟩
      · exact List.nodup_cons.mpr ⟨fun hpl => ((hiff p).mp hpl).2 rfl, hnodup⟩
      · rw [List.mem_cons, hiff]
        by_cases hqp : q = p
        · simp [hqp, hpfree]
        · simp [hqp]

end Loops

/-- **What `COMEX_init_ENV` leaves**: a reachable state whose free pages are those with
memory behind them. -/
theorem startup_spec (T : ℕ) (backed : ℕ → Bool) :
    ∃ s, startup T backed = some s ∧ Reach T s ∧
      ∀ p, p ∈ s.freePages ↔ p < T ∧ backed p = true := by
  obtain ⟨hall, -⟩ := @reach_freeEach T (fun _ => true) T 0 _ (.start rfl) (by omega)
    fun p _ => not_mem_freePages_initEmpty T p
  obtain ⟨l, s, hs, hr, hempty, -⟩ := reach_drainPages hall
    (Nat.lt_succ_of_le ((freeCard_le _).trans_eq (reach_inv hall).2.1))
  obtain ⟨hlast, hfree⟩ := @reach_freeEach T backed T 0 _ hr (by omega)
    fun p _ => hempty p
  refine ⟨_, by rw [startup, ← drainPages_snd, hs]; rfl, hlast, fun p => ?_⟩
  rw [hfree, Nat.zero_add]
  constructor
  · rintro (hp | hp)
    · exact absurd hp (hempty p)
    · exact hp.2
  · exact fun hp => Or.inr ⟨Nat.zero_le p, hp⟩

/-- **The three loops in turn**: no counter check fails in any of them, the drain ends after
it was handed each page once, and what is free in the end is what has memory behind it. -/
theorem startup_exact (T : ℕ) (backed : ℕ → Bool) :
    ∃ l s₁ s, drainPages (T + 1) (freeEach (fun _ => true) T 0 (initEmpty T)) = some (l, s₁) ∧
      startup T backed = some s ∧ s = freeEach backed T 0 s₁ ∧
      (freeEach (fun _ => true) T 0 (initEmpty T)).failed = [] ∧ s₁.failed = [] ∧
      s.failed = [] ∧ l.Perm (List.range T) ∧
      (∀ p, s.InFreeBlock p ↔ p < T ∧ backed p = true) ∧
      (∀ p < T, backed p = true → (s.page p).cmxCntr = 0) ∧
      ∀ p < T, backed p = false → (s.page p).cmxCntr = 1 ∧ ∀ k, p ∉ (s.area k).freeList := by
  -- all pages are freed, then drained, then those with memory freed again
  obtain ⟨hall, hfull⟩ := @reach_freeEach T (fun _ => true) T 0 _ (.start rfl) (by omega)
    fun p _ => not_mem_freePages_initEmpty T p
  obtain ⟨l, s₁, hl, hr, -, hnodup, hmem⟩ := reach_drainPages hall
    (Nat.lt_succ_of_le ((freeCard_le _).trans_eq (reach_inv hall).2.1))
  obtain ⟨s, hs, hrs, hfree⟩ := startup_spec T backed
  obtain ⟨hwf, htot, hfail⟩ := reach_wellFormed hrs
  have heq : s = freeEach backed T 0 s₁ := by
    have hdrain := drainPages_snd (T + 1) (freeEach (fun _ => true) T 0 (initEmpty T))
    rw [hl] at hdrain
    rw [startup, ← hdrain] at hs
    exact (Option.some.inj hs).symm
  have hblock : ∀ p, s.InFreeBlock p ↔ p < T ∧ backed p = true := by
    intro p
    rw [(reach_inv hrs).1.links.inFreeBlock_iff, hfree]
  refine ⟨l, s₁, s, hl, hs, heq, (reach_inv hall).2.2, (reach_inv hr).2.2, hfail, ?_, hblock,
    fun p hp hb => ?_, fun p hp hb => ?_⟩
  · apply (List.perm_ext_iff_of_nodup hnodup List.nodup_range).mpr
    intro p
    rw [hmem, hfull, List.mem_range]
    simp [not_mem_freePages_initEmpty]
  · exact (hwf.ctr_free p (htot ▸ hp)).mpr ((hblock p).mpr ⟨hp, hb⟩)
  · have hout : ¬ s.InFreeBlock p := fun h => by simp [((hblock p).mp h).2] at hb
    refine ⟨(hwf.ctr_used p (htot ▸ hp)).mpr hout, fun k hk => hout ⟨k, p, hk, le_rfl, ?_⟩⟩
    exact Nat.lt_add_of_pos_right (Nat.two_pow_pos k)

/-- Five pages of which two have memory, drained as 4, 0, 1, 2, 3. -/
example : ((drainPages 6 (freeEach (fun _ => true) 5 0 (initEmpty 5))).map Prod.fst) =
    some [4, 0, 1, 2, 3] := by decide

end Buddy
end Comex
