import Comex.Lib.Runs
import Comex.Swap.PageTable

/-!
# Counting swap entries

Every address space counts the swap entries in its page tables in `MM_SWAPENTS`.
`try_to_unmap` and `copy_one_pte` add one for each entry they install, `do_swap_page` and
`unuse_pte` take one off for each they map, and `zap_pte_range` one for each it clears,
unless it is an entry of COMEX.

## Main definitions

* `Exact` — what one pass of `zap_pte_range` owes the counter.
* `excess` — what the counter of an address space holds too much.
* `Mms.machine` — any number of address spaces.

## Main results

* `Mms.reach_swapents` — in every run the counter is off by the COMEX entries cleared.
* `Mms.accounting_iff` — **which passes are exact, and that in runs of such passes the
  counter is.**
-/

namespace Comex
namespace Accounting

open Tally (number)

/-! ### Exact passes -/

/-- The swap entries in the range that a pass clears. -/
def cleared (T : SwapTypes) (mm mm' : Mm) (addr stop : ℕ) : ℕ :=
  number (fun x : Pte × Pte => x.1.isSwapent T && decide (x.2 = .none))
    (fun i => (mm.pte i, mm'.pte i)) addr (stop - addr)

/-- One pass of `zap_pte_range` with `details = NULL` takes one off `MM_SWAPENTS` for each swap
entry it clears. -/
def Exact (T : SwapTypes) (pages : Pages) (mm : Mm) (addr stop : ℕ) : Prop :=
  ∃ mm' freed, zapPteRange T pages none mm addr stop = some (mm', freed) ∧
    mm'.rss.swapents = mm.rss.swapents - cleared T mm mm' addr stop

/-- No entry of type 8 or 9 in the range. -/
def NoComex (mm : Mm) (addr stop : ℕ) : Prop :=
  ∀ i, addr ≤ i → i < stop → (mm.pte i).isComex = false

instance (mm : Mm) (addr stop : ℕ) : Decidable (NoComex mm addr stop) :=
  inferInstanceAs (Decidable (∀ i, addr ≤ i → i < stop → (mm.pte i).isComex = false))

/-- **Which passes are exact**: those over a range without an entry of COMEX.  A pass clears every
PTE of its range, and takes from `MM_SWAPENTS` only the entries it finds the type of. -/
theorem exact_iff (T : SwapTypes) (pages : Pages) (mm : Mm) (addr stop : ℕ) :
    Exact T pages mm addr stop ↔ NoComex mm addr stop := by
  obtain ⟨mm', freed, heq, hpass⟩ := zapPteRange_eq T pages none mm addr stop
  have hnone : ∀ i, addr ≤ i → i < addr + (stop - addr) → mm'.pte i = .none :=
    fun i h1 h2 => hpass.cleared rfl i h1 (by omega)
  have hswap : number (Pte.isSwapent T) mm'.pte addr (stop - addr) = 0 :=
    Tally.number_eq_zero_iff.mpr fun i h1 h2 => by rw [hnone i h1 h2]; rfl
  have hcomex : number Pte.isComex mm'.pte addr (stop - addr) = 0 :=
    Tally.number_eq_zero_iff.mpr fun i h1 h2 => by rw [hnone i h1 h2]; rfl
  have hcleared : cleared T mm mm' addr stop =
      number (Pte.isSwapent T) mm.pte addr (stop - addr) :=
    Tally.number_congr fun i h1 h2 => by simp [hnone i h1 h2]
  -- the pass keeps the counter less the entries of its range, those of COMEX left out
  have hledger := hpass.ledger_eq addr (stop - addr) le_rfl le_rfl
  simp only [ledger, hswap, hcomex] at hledger
  have hzero : NoComex mm addr stop ↔ number Pte.isComex mm.pte addr (stop - addr) = 0 := by
    rw [Tally.number_eq_zero_iff]
    exact forall_congr' fun i => imp_congr_right fun h1 => imp_congr_left (by omega)
  rw [hzero]
  constructor
  · rintro ⟨mm₁, freed₁, heq₁, hcount⟩
    rw [heq, Option.some.injEq, Prod.mk.injEq] at heq₁
    obtain ⟨rfl, rfl⟩ := heq₁
    rw [hcleared] at hcount
    omega
  · intro hno
    refine ⟨mm', freed, heq, ?_⟩
    rw [hcleared]
    omega

/-! ### What the counter holds too much -/

section Excess

variable {T : SwapTypes} {N addr : ℕ} {mm mm' : Mm}

/-- What `MM_SWAPENTS` holds beyond the number of swap entries. -/
def excess (T : SwapTypes) (N : ℕ) (mm : Mm) : ℤ :=
  mm.rss.swapents - number (Pte.isSwapent T) mm.pte 0 N

/-- An assignment to one entry that the counter follows. -/
theorem excess_update (h : addr < N) {x : Pte} {rss : Rss}
    (hcount : rss.swapents + ((mm.pte addr).isSwapent T).toNat =
      mm.rss.swapents + (x.isSwapent T).toNat) :
    excess T N ⟨Function.update mm.pte addr x, rss⟩ = excess T N mm := by
  have hnumber := Tally.number_update (p := Pte.isSwapent T) (f := mm.pte) (x := x)
    (Nat.zero_le addr) (show addr < 0 + N by omega)
  simp only [excess]
  omega

theorem mapEntry_excess (h : addr < N) (hswap : (mm.pte addr).isSwapent T = true) (pfn : ℕ) :
    excess T N (mm.mapEntry addr pfn) = excess T N mm := by
  apply excess_update h
  rw [hswap]
  simp only [Rss.addSwap_swapents, Rss.addPage_swapents, Pte.isSwapent, Bool.toNat_true,
    Bool.toNat_false]
  omega

theorem doSwapPage_excess (h : addr < N) {pfn : ℕ} (hs : doSwapPage T mm addr pfn = some mm') :
    excess T N mm' = excess T N mm := by
  unfold doSwapPage at hs
  split at hs
  · next hswap =>
    cases hs
    exact mapEntry_excess h hswap pfn
  · cases hs

theorem unusePte_excess (h : addr < N) {e : SwpEntry} {pfn : ℕ}
    (hs : unusePte T mm addr e pfn = some mm') : excess T N mm' = excess T N mm := by
  unfold unusePte at hs
  split at hs
  · next hsame =>
    cases hs
    refine mapEntry_excess h ?_ pfn
    rw [hsame.1, Pte.isSwapent, hsame.2]
    rfl
  · cases hs

theorem tryToUnmap_excess (h : addr < N) {e : SwpEntry}
    (hs : tryToUnmap T mm addr e = some mm') : excess T N mm' = excess T N mm := by
  unfold tryToUnmap at hs
  split at hs
  · next hpage =>
    cases hs
    apply excess_update h
    cases hold : mm.pte addr with
    | page pfn => simp [Pte.isSwapent, hpage.2]
    | _ =>
      rw [hold] at hpage
      cases hpage.1
  · cases hs

theorem copyPteRange_excess (T : SwapTypes) (src : Mm) {dst : Mm} {n : ℕ} (hN : addr + n ≤ N)
    (hnone : ∀ i < n, dst.pte (addr + i) = .none) (pages : Pages) (cow : Bool) :
    excess T N (copyPteRange T pages cow src dst addr n).1 = excess T N src ∧
      excess T N (copyPteRange T pages cow src dst addr n).2 = excess T N dst := by
  obtain ⟨hsrc, hdst⟩ := copyLoop_count T pages cow N n addr
    ⟨src.pte, dst.pte, .init⟩ hN fun i h1 h2 => by
      have hi := hnone (i - addr) (by omega)
      rwa [Nat.add_sub_cancel' h1] at hi
  simp only [Rss.init_swapents] at hsrc hdst
  simp only [excess, copyPteRange, Rss.add_swapents]
  exact ⟨by omega, by omega⟩

theorem Pass.excess_eq {stop : ℕ} {details : Option Details}
    (h : Pass T details addr stop mm mm') (hlt : addr < stop) (hN : stop ≤ N) :
    excess T N mm' =
      excess T N mm + number Pte.isComex mm.pte 0 N - number Pte.isComex mm'.pte 0 N := by
  have hledger := h.ledger_eq 0 N (Nat.zero_le addr) (by omega)
  simp only [ledger] at hledger
  simp only [excess]
  omega

/-- A pass that meets no entry of COMEX loses none. -/
theorem Pass.comex_eq {stop : ℕ} {details : Option Details}
    (h : Pass T details addr stop mm mm') (hno : details = none → NoComex mm addr stop) :
    number Pte.isComex mm'.pte 0 N = number Pte.isComex mm.pte 0 N := by
  apply Tally.number_congr
  intro i _ _
  rcases h.comex i with hsame | ⟨hnone, h1, h2, hold⟩
  · exact hsame
  · rw [hno hnone i h1 h2] at hold
    cases hold

end Excess

/-! ### Any number of address spaces -/

/-- Address spaces, and how many entries of COMEX passes over each have cleared. -/
structure Mms (ι : Type) where
  mm : ι → Mm
  lost : ι → ℤ

/-- A step on page table entries. -/
inductive MmStep (ι : Type)
  | copy (src dst : ι) (addr n : ℕ) (pages : Pages) (cow : Bool)
  | doSwapPage (m : ι) (addr pfn : ℕ)
  | unusePte (m : ι) (addr : ℕ) (e : SwpEntry) (pfn : ℕ)
  | tryToUnmap (m : ι) (addr : ℕ) (e : SwpEntry)
  /-- Anything else that happens to an entry: a fault on one that is not swapped out, the
  begin or end of a migration. -/
  | other (m : ι) (addr : ℕ) (x : Pte) (filepages anonpages : ℤ)
  | zap (m : ι) (addr stop : ℕ) (pages : Pages) (details : Option Details)

namespace Mms

variable {ι : Type} [DecidableEq ι]

/-- Empty address spaces. -/
def init : Mms ι := ⟨fun _ => ⟨fun _ => .none, .init⟩, fun _ => 0⟩

/-- Assign to an address space. -/
def set (s : Mms ι) (m : ι) (mm : Mm) : Mms ι := { s with mm := Function.update s.mm m mm }

variable (T : SwapTypes) (N : ℕ)

/-- One step, if it is enabled; an address space has `N` entries.  `fork` copies into an
address space that has nothing there yet. -/
def step (s : Mms ι) : MmStep ι → Option (Mms ι)
  | .copy src dst addr n pages cow =>
    if src ≠ dst ∧ addr + n ≤ N ∧ ∀ i < n, (s.mm dst).pte (addr + i) = .none then
      let r := copyPteRange T pages cow (s.mm src) (s.mm dst) addr n
      some ((s.set src r.1).set dst r.2)
    else none
  | .doSwapPage m addr pfn =>
    if addr < N then (doSwapPage T (s.mm m) addr pfn).map (s.set m) else none
  | .unusePte m addr e pfn =>
    if addr < N then (unusePte T (s.mm m) addr e pfn).map (s.set m) else none
  | .tryToUnmap m addr e =>
    if addr < N then (tryToUnmap T (s.mm m) addr e).map (s.set m) else none
  | .other m addr x filepages anonpages =>
    if addr < N ∧ ((s.mm m).pte addr).isSwapent T = false ∧ x.isSwapent T = false then
      some (s.set m {
        pte := Function.update (s.mm m).pte addr x
        rss := (s.mm m).rss.add ⟨filepages, anonpages, 0⟩ })
    else none
  | .zap m addr stop pages details =>
    if addr < stop ∧ stop ≤ N then
      (zapPteRange T pages details (s.mm m) addr stop).map fun r =>
        { s.set m r.1 with
          lost := Function.update s.lost m
            (s.lost m + number Pte.isComex (s.mm m).pte 0 N - number Pte.isComex r.1.pte 0 N) }
    else none

/-- Any number of address spaces. -/
def machine : Machine (Mms ι) (MmStep ι) := .ofPartial init (step T N)

/-- The passes that unmap memory meet no entry of COMEX. -/
def NoComexZapped (s : Mms ι) : MmStep ι → Prop
  | .zap m addr stop _ none => NoComex (s.mm m) addr stop
  | _ => True

instance (s : Mms ι) : ∀ a, Decidable (NoComexZapped s a)
  | .zap m addr stop _ none => inferInstanceAs (Decidable (NoComex (s.mm m) addr stop))
  | .zap _ _ _ _ (some _) => inferInstanceAs (Decidable True)
  | .copy .. => inferInstanceAs (Decidable True)
  | .doSwapPage .. => inferInstanceAs (Decidable True)
  | .unusePte .. => inferInstanceAs (Decidable True)
  | .tryToUnmap .. => inferInstanceAs (Decidable True)
  | .other .. => inferInstanceAs (Decidable True)

variable {T N} {s s' : Mms ι} {m : ι} {mm : Mm}

/-! ### The counter over a run -/

/-- The counter is off by the entries of COMEX that passes have cleared. -/
def Inv (T : SwapTypes) (N : ℕ) (s : Mms ι) : Prop := ∀ m, excess T N (s.mm m) = s.lost m

theorem Inv.set (h : Inv T N s) (hm : excess T N mm = excess T N (s.mm m)) :
    Inv T N (s.set m mm) := by
  intro k
  change excess T N (Function.update s.mm m mm k) = s.lost k
  by_cases hk : k = m
  · subst hk
    rw [Function.update_self, hm, h k]
  · rw [Function.update_of_ne hk, h k]

/-- A pass leaves behind what `Pass` says, and the count of what it has cleared. -/
theorem zap_eq {addr stop : ℕ} {pages : Pages} {details : Option Details}
    (hs : step T N s (.zap m addr stop pages details) = some s') :
    addr < stop ∧ stop ≤ N ∧ ∃ mm', Pass T details addr stop (s.mm m) mm' ∧
      s' = ⟨Function.update s.mm m mm', Function.update s.lost m
        (s.lost m + number Pte.isComex (s.mm m).pte 0 N - number Pte.isComex mm'.pte 0 N)⟩ := by
  simp only [Mms.step, Option.ite_none_right_eq_some, Option.map_eq_some_iff] at hs
  obtain ⟨⟨hlt, hN⟩, r, hr, rfl⟩ := hs
  obtain ⟨mm', freed, heq, hpass⟩ := zapPteRange_eq T pages details (s.mm m) addr stop
  rw [heq, Option.some.injEq] at hr
  subst hr
  exact ⟨hlt, hN, mm', hpass, rfl⟩

/-- Only a pass clears entries of COMEX. -/
theorem step_lost {a : MmStep ι} (hs : step T N s a = some s') : s'.lost = s.lost ∨
    ∃ m addr stop pages details, a = .zap m addr stop pages details := by
  cases a with
  | zap m addr stop pages details => exact .inr ⟨m, addr, stop, pages, details, rfl⟩
  | copy src dst addr n pages cow =>
    simp only [Mms.step, Option.ite_none_right_eq_some, Option.some.injEq] at hs
    obtain ⟨-, rfl⟩ := hs
    exact .inl rfl
  | other m addr x filepages anonpages =>
    simp only [Mms.step, Option.ite_none_right_eq_some, Option.some.injEq] at hs
    obtain ⟨-, rfl⟩ := hs
    exact .inl rfl
  | _ =>
    simp only [Mms.step, Option.ite_none_right_eq_some, Option.map_eq_some_iff] at hs
    obtain ⟨-, mm, -, rfl⟩ := hs
    exact .inl rfl

/-- **Every step keeps it.**  A zap is the only step that adds to what is lost; every other one
moves the counter as it moves the entries. -/
theorem Inv.step (h : Inv T N s) {a : MmStep ι} (hs : step T N s a = some s') : Inv T N s' := by
  cases a with
  | copy src dst addr n pages cow =>
    simp only [Mms.step, Option.ite_none_right_eq_some, Option.some.injEq] at hs
    obtain ⟨⟨hne, hN, hnone⟩, rfl⟩ := hs
    obtain ⟨hsrc, hdst⟩ := copyPteRange_excess T (s.mm src) hN hnone pages cow
    -- the child's PTEs are counted with the copy, the parent's are not touched
    apply (h.set hsrc).set
    change _ = excess T N (Function.update s.mm src _ dst)
    rw [Function.update_of_ne (Ne.symm hne)]
    exact hdst
  | doSwapPage m addr pfn =>
    simp only [Mms.step, Option.ite_none_right_eq_some, Option.map_eq_some_iff] at hs
    obtain ⟨hN, mm, hmm, rfl⟩ := hs
    exact h.set (doSwapPage_excess hN hmm)
  | unusePte m addr e pfn =>
    simp only [Mms.step, Option.ite_none_right_eq_some, Option.map_eq_some_iff] at hs
    obtain ⟨hN, mm, hmm, rfl⟩ := hs
    exact h.set (unusePte_excess hN hmm)
  | tryToUnmap m addr e =>
    simp only [Mms.step, Option.ite_none_right_eq_some, Option.map_eq_some_iff] at hs
    obtain ⟨hN, mm, hmm, rfl⟩ := hs
    exact h.set (tryToUnmap_excess hN hmm)
  | other m addr x filepages anonpages =>
    simp only [Mms.step, Option.ite_none_right_eq_some, Option.some.injEq] at hs
    obtain ⟨⟨hN, hold, hnew⟩, rfl⟩ := hs
    apply h.set
    apply excess_update hN
    rw [hold, hnew]
    simp
  | zap m addr stop pages details =>
    obtain ⟨hlt, hN, mm', hpass, rfl⟩ := zap_eq hs
    intro k
    change excess T N (Function.update s.mm m mm' k) = Function.update s.lost m _ k
    by_cases hk : k = m
    · subst hk
      rw [Function.update_self, Function.update_self, hpass.excess_eq hlt hN, h k]
    · rw [Function.update_of_ne hk, Function.update_of_ne hk, h k]

/-- **In every run the counter is off by the entries of COMEX cleared.** -/
theorem reach_swapents {ok : Mms ι → MmStep ι → Prop} (h : (machine T N).Reach ok s) (m : ι) :
    (s.mm m).rss.swapents = number (Pte.isSwapent T) (s.mm m).pte 0 N + s.lost m := by
  have hinv : Inv T N s := h.invariant
    (fun s hs => by
      intro m
      rw [show s = init from hs]
      simp [excess, init, Tally.number_eq_zero_iff, Pte.isSwapent])
    (fun _ _ _ _ hinv _ hstep => hinv.step hstep)
  have hm := hinv m
  rw [excess] at hm
  omega

theorem reach_lost (h : (machine T N).Reach NoComexZapped s) (m : ι) : s.lost m = 0 := by
  have hall : ∀ m, s.lost m = 0 := by
    refine Machine.Reach.invariant (I := fun s : Mms ι => ∀ m, s.lost m = 0) h ?_ ?_
    · intro s hs m
      rw [show s = init from hs]
      rfl
    intro s a s' _ hlost hok hs
    rcases step_lost hs with hsame | ⟨m, addr, stop, pages, details, rfl⟩
    · rw [hsame]
      exact hlost
    · obtain ⟨-, -, mm', hpass, rfl⟩ := zap_eq hs
      intro k
      change Function.update s.lost m _ k = 0
      by_cases hk : k = m
      · have hno : details = none → NoComex (s.mm m) addr stop := by
          intro hnone
          subst hnone
          exact hok
        rw [hk, Function.update_self, hlost m, hpass.comex_eq hno]
        omega
      · rw [Function.update_of_ne hk]
        exact hlost k
  exact hall m

/-- **The counter**: a pass is exact exactly if its range holds no entry of COMEX; in runs
whose passes are over such ranges `MM_SWAPENTS` is the number of swap entries, and 0
once there are none. -/
theorem accounting_iff (T : SwapTypes) (N : ℕ) :
    (∀ (pages : Pages) (mm : Mm) (addr stop : ℕ),
      Exact T pages mm addr stop ↔ NoComex mm addr stop) ∧
    ∀ s : Mms ι, (machine T N).Reach NoComexZapped s → ∀ m,
      (s.mm m).rss.swapents = number (Pte.isSwapent T) (s.mm m).pte 0 N ∧
      ((∀ i < N, (s.mm m).pte i = .none) → (s.mm m).rss.swapents = 0) := by
  refine ⟨exact_iff T, fun s h m => ?_⟩
  have hcount : (s.mm m).rss.swapents = number (Pte.isSwapent T) (s.mm m).pte 0 N := by
    rw [reach_swapents h m, reach_lost h m, Int.add_zero]
  refine ⟨hcount, fun hnone => ?_⟩
  have hzero : number (Pte.isSwapent T) (s.mm m).pte 0 N = 0 :=
    Tally.number_eq_zero_iff.mpr fun i _ hi => by rw [hnone i (by omega)]; rfl
  rw [hcount, hzero]
  rfl

/-- The theorem where a page goes to slot 5 of a disk before it is unmapped. -/
theorem accounting_iff_disk : ∃ s : Mms Unit, (machine .default 1).Reach NoComexZapped s ∧
    (s.mm ()).pte 0 = .none ∧ (s.mm ()).rss.swapents = 0 := by
  obtain ⟨s, hs, hnone⟩ := Machine.exists_reach_of_exec (init : Mms Unit) NoComexZapped
    (step .default 1) (fun s => (s.mm ()).pte 0 = .none)
    [.other () 0 (.page 3) 0 1,
      .tryToUnmap () 0 ⟨0, 5⟩,
      .zap () 0 1 ⟨fun _ => true, fun _ => true⟩ none] (by decide)
  refine ⟨s, hs, hnone, ((accounting_iff .default 1).2 s hs ()).2 fun i hi => ?_⟩
  rw [Nat.lt_one_iff.mp hi]
  exact hnone

/-- A page is mapped, swapped out to page 5 of memory node 0, and unmapped: its pass is not
exact, and the counter stays 1 with nothing left to count. -/
theorem not_accounting :
    (¬ ∀ (T : SwapTypes) (pages : Pages) (mm : Mm) (addr stop : ℕ),
      Exact T pages mm addr stop) ∧
    ¬ ∀ (T : SwapTypes) (N : ℕ) (s : Mms Unit), (machine T N).Reach Machine.free s → ∀ m,
      (s.mm m).rss.swapents = number (Pte.isSwapent T) (s.mm m).pte 0 N ∧
      ((∀ i < N, (s.mm m).pte i = .none) → (s.mm m).rss.swapents = 0) := by
  constructor
  · intro h
    have hexact := h .default ⟨fun _ => true, fun _ => true⟩
      ⟨fun _ => .swap ⟨8, 5120⟩, ⟨0, 0, 1⟩⟩ 0 1
    exact absurd ((exact_iff _ _ _ _ _).mp hexact 0 le_rfl (by decide)) (by decide)
  · intro h
    obtain ⟨s, hs, hbad⟩ := Machine.exists_reach_of_exec (init : Mms Unit) Machine.free
      (step .default 1)
      (fun s => (s.mm ()).pte 0 = .none ∧ (s.mm ()).rss.swapents = 1)
      [.other () 0 (.page 3) 0 1,
        .tryToUnmap () 0 ⟨8, 5120⟩,
        .zap () 0 1 ⟨fun _ => true, fun _ => true⟩ none] (by decide)
    have hzero := (h .default 1 s hs ()).2 fun i hi => by
      rw [Nat.lt_one_iff.mp hi]
      exact hbad.1
    rw [hbad.2] at hzero
    cases hzero

end Mms

end Accounting
end Comex
