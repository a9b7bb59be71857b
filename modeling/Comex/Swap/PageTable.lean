import Comex.Lib.Tally
import Comex.Swap.Machine

/-!
# Page tables and what the loops count

`zap_pte_range` and `copy_pte_range` go over a range of page table entries and collect in
`rss` what becomes of the counters of the address space; they may leave the loop and
start again at `again`.  For entries of types 8 and 9 `zap_pte_range` gives the COMEX page
back and jumps behind the counting.

## Main definitions

* `Pte`, `Rss`, `Mm` — page tables, counters, address spaces.
* `zapPteRange`, `copyPteRange` — the two loops, with the counts they collect.
* `doSwapPage`, `unusePte`, `tryToUnmap` — the steps on one entry.
* `ledger` — the counter, less the swap entries that are not COMEX's.

## Main results

* `zapPteRange_eq` — **a pass ends, clears its range and keeps the ledger.**
* `copyLoop_count` — a copy counts the swap entries the child gets.
-/

namespace Comex
namespace Accounting

open Tally (number)

/-! ### Entries and counters -/

/-- `swp_entry_t`. -/
structure SwpEntry where
  type : ℕ
  offset : ℕ
  deriving DecidableEq, Repr

/-- How the kernel numbers the types: swap files first, then poisoned pages, then pages under
migration, to be read and to be written. -/
structure SwapTypes where
  /-- `MAX_SWAPFILES`. -/
  maxSwapfiles : ℕ
  /-- `SWP_HWPOISON_NUM`. -/
  hwpoisonNum : ℕ
  /-- The types of COMEX are types of swap files. -/
  comex_lt : 9 < maxSwapfiles

/-- `MAX_SWAPFILES_SHIFT` is 5, and two types are for migration and one for poisoned pages. -/
def SwapTypes.default : SwapTypes := ⟨29, 1, by decide⟩

namespace SwapTypes

variable (T : SwapTypes) (e : SwpEntry)

/-- `non_swap_entry`. -/
def nonSwapEntry : Bool := decide (T.maxSwapfiles ≤ e.type)

/-- `is_write_migration_entry`. -/
def isWriteMigrationEntry : Bool := decide (e.type = T.maxSwapfiles + T.hwpoisonNum + 1)

/-- `is_migration_entry`. -/
def isMigrationEntry : Bool :=
  decide (e.type = T.maxSwapfiles + T.hwpoisonNum) || T.isWriteMigrationEntry e

/-- `make_migration_entry_read`. -/
def makeMigrationEntryRead : SwpEntry := ⟨T.maxSwapfiles + T.hwpoisonNum, e.offset⟩

end SwapTypes

/-- A page table entry. -/
inductive Pte
  | none
  /-- Present, but `vm_normal_page` finds no `struct page`. -/
  | special
  | page (pfn : ℕ)
  /-- `pte_file`. -/
  | file
  | swap (e : SwpEntry)
  deriving DecidableEq, Repr

/-- A swap entry that `MM_SWAPENTS` counts: not one of a page under migration or poisoned. -/
def Pte.isSwapent (T : SwapTypes) : Pte → Bool
  | .swap e => !T.nonSwapEntry e
  | _ => false

/-- An entry of type 8 or 9. -/
def Pte.isComex : Pte → Bool
  | .swap e => (Entry.ofSwp e.type e.offset).isSome
  | _ => false

/-- A page is mapped. -/
def Pte.isPage : Pte → Bool
  | .page _ => true
  | _ => false

/-- `rss[NR_MM_COUNTERS]`, and `rss_stat` with what the tasks have cached of it. -/
structure Rss where
  filepages : ℤ
  anonpages : ℤ
  swapents : ℤ
  deriving DecidableEq, Repr

namespace Rss

/-- `init_rss_vec`. -/
def init : Rss := ⟨0, 0, 0⟩

/-- `add_mm_rss_vec`. -/
def add (r r' : Rss) : Rss :=
  ⟨r.filepages + r'.filepages, r.anonpages + r'.anonpages, r.swapents + r'.swapents⟩

/-- `rss[MM_ANONPAGES]` or `rss[MM_FILEPAGES]` changes by `d`. -/
def addPage (r : Rss) (anon : Bool) (d : ℤ) : Rss :=
  if anon then { r with anonpages := r.anonpages + d }
  else { r with filepages := r.filepages + d }

/-- `rss[MM_SWAPENTS]` changes by `d`. -/
def addSwap (r : Rss) (d : ℤ) : Rss := { r with swapents := r.swapents + d }

@[simp] theorem init_swapents : init.swapents = 0 := rfl

@[simp] theorem add_swapents (r r' : Rss) : (r.add r').swapents = r.swapents + r'.swapents := rfl

@[simp] theorem addPage_swapents (r : Rss) (anon : Bool) (d : ℤ) :
    (r.addPage anon d).swapents = r.swapents := by
  cases anon <;> rfl

@[simp] theorem addSwap_swapents (r : Rss) (d : ℤ) :
    (r.addSwap d).swapents = r.swapents + d := rfl

end Rss

/-- `struct mm_struct`: the page tables, by page number, and the counters. -/
structure Mm where
  pte : ℕ → Pte
  rss : Rss

/-- What a loop over page table entries finds of pages. -/
structure Pages where
  /-- `PageAnon`. -/
  pageAnon : ℕ → Bool
  /-- `__tlb_remove_page`: the batch has room after the page at this address. -/
  room : ℕ → Bool

/-- `struct zap_details`. -/
structure Details where
  /-- The page, at this address, is not one to unmap. -/
  leaves : ℕ → ℕ → Bool
  /-- Its place in a nonlinear mapping is to be kept. -/
  refiles : ℕ → ℕ → Bool

/-! ### `zap_pte_range` -/

/-- Page tables and counts in the loop of `zap_pte_range`, and the COMEX pages given back. -/
structure Zap where
  pte : ℕ → Pte
  rss : Rss
  freed : List Entry

/-- Assign to the entry of an address. -/
def Zap.set (z : Zap) (addr : ℕ) (x : Pte) : Zap :=
  { z with pte := Function.update z.pte addr x }

section Zap

variable (T : SwapTypes) (pages : Pages) (details : Option Details)

/-- One round of `zap_pte_range`, and whether it sets `force_flush`. -/
def zapOne (addr : ℕ) (z : Zap) : Zap × Bool :=
  match z.pte addr with
  | .none => (z, false)
  | .special => (z.set addr .none, false)
  | .page pfn =>
    if details.any (·.leaves addr pfn) then (z, false)
    else
      let z := z.set addr (if details.any (·.refiles addr pfn) then .file else .none)
      ({ z with rss := z.rss.addPage (pages.pageAnon pfn) (-1) }, !pages.room addr)
  | .file => (if details.isSome then z else z.set addr .none, false)
  | .swap e =>
    if details.isSome then (z, false)
    else
      match Entry.ofSwp e.type e.offset with
      -- `goto COMEX_zap`
      | some c => ({ z.set addr .none with freed := z.freed ++ [c] }, false)
      | none =>
        let rss :=
          if T.nonSwapEntry e = false then z.rss.addSwap (-1)
          else if T.isMigrationEntry e then z.rss.addPage (pages.pageAnon e.offset) (-1)
          else z.rss
        ({ z.set addr .none with rss := rss }, false)

/-- The loop of `zap_pte_range`, `n` rounds from `addr`: where it ends, and `force_flush`. -/
def zapLoop : ℕ → ℕ → Zap → Zap × ℕ × Bool
  | 0, addr, z => (z, addr, false)
  | n + 1, addr, z =>
    let r := zapOne T pages details addr z
    if r.2 then (r.1, addr, true) else zapLoop n (addr + 1) r.1

/-- From the label `again` on; `none` if `fuel` runs do not do. -/
def zapAgain (stop : ℕ) : ℕ → ℕ → Mm → List Entry → Option (Mm × List Entry)
  | 0, _, _, _ => none
  | fuel + 1, addr, mm, freed =>
    let r := zapLoop T pages details (stop - addr) addr ⟨mm.pte, .init, freed⟩
    let mm := ⟨r.1.pte, mm.rss.add r.1.rss⟩
    if r.2.2 ∧ r.2.1 ≠ stop then zapAgain stop fuel r.2.1 mm r.1.freed
    else some (mm, r.1.freed)

/-- `zap_pte_range` from `addr` to `stop`: the address space and the COMEX pages given back. -/
def zapPteRange (mm : Mm) (addr stop : ℕ) : Option (Mm × List Entry) :=
  zapAgain T pages details stop (stop - addr + 2) addr mm []

end Zap

/-! ### `copy_pte_range` -/

/-- Page tables of parent and child in `copy_pte_range`, and what the child is to count. -/
structure Copy where
  src : ℕ → Pte
  dst : ℕ → Pte
  rss : Rss

section Copy

variable (T : SwapTypes) (pages : Pages) (cow : Bool)

/-- `copy_one_pte`, with `swap_duplicate` succeeding; `cow` is `is_cow_mapping`. -/
def copyOnePte (addr : ℕ) (c : Copy) : Copy :=
  match c.src addr with
  | .swap e =>
    if T.nonSwapEntry e = false then
      { c with
        dst := Function.update c.dst addr (.swap e)
        rss := c.rss.addSwap 1 }
    else if T.isMigrationEntry e then
      let rss := c.rss.addPage (pages.pageAnon e.offset) 1
      if T.isWriteMigrationEntry e ∧ cow then
        let e := T.makeMigrationEntryRead e
        { src := Function.update c.src addr (.swap e)
          dst := Function.update c.dst addr (.swap e)
          rss }
      else { c with dst := Function.update c.dst addr (.swap e), rss }
    else { c with dst := Function.update c.dst addr (.swap e) }
  | .page pfn =>
    { c with
      dst := Function.update c.dst addr (.page pfn)
      rss := c.rss.addPage (pages.pageAnon pfn) 1 }
  | x => { c with dst := Function.update c.dst addr x }

/-- The loop of `copy_pte_range`, `n` rounds from `addr`. -/
def copyLoop : ℕ → ℕ → Copy → Copy
  | 0, _, c => c
  | n + 1, addr, c =>
    copyLoop n (addr + 1) (if c.src addr = .none then c else copyOnePte T pages cow addr c)

/-- `copy_pte_range` from one `again` to the unlocking, after `n` rounds: parent and child.
A failing `swap_duplicate` or the wish to reschedule end it early. -/
def copyPteRange (src dst : Mm) (addr n : ℕ) : Mm × Mm :=
  let c := copyLoop T pages cow n addr ⟨src.pte, dst.pte, .init⟩
  (⟨c.src, src.rss⟩, ⟨c.dst, dst.rss.add c.rss⟩)

end Copy

/-! ### Single entries -/

section Single

variable (T : SwapTypes) (mm : Mm) (addr : ℕ)

/-- A page is mapped in the place of a swap entry. -/
def Mm.mapEntry (pfn : ℕ) : Mm where
  pte := Function.update mm.pte addr (.page pfn)
  rss := (mm.rss.addPage true 1).addSwap (-1)

/-- `do_swap_page`, where it gets to map the page `pfn`. -/
def doSwapPage (pfn : ℕ) : Option Mm :=
  if (mm.pte addr).isSwapent T then some (mm.mapEntry addr pfn) else none

/-- `unuse_pte` for an entry of a swap file. -/
def unusePte (e : SwpEntry) (pfn : ℕ) : Option Mm :=
  if mm.pte addr = .swap e ∧ T.nonSwapEntry e = false then some (mm.mapEntry addr pfn) else none

/-- `try_to_unmap` of a page that is in the swap cache under the entry `e`. -/
def tryToUnmap (e : SwpEntry) : Option Mm :=
  if (mm.pte addr).isPage ∧ T.nonSwapEntry e = false then
    some {
      pte := Function.update mm.pte addr (.swap e)
      rss := (mm.rss.addPage true (-1)).addSwap 1 }
  else none

end Single

/-! ### What the loop of `zap_pte_range` does -/

section ZapLoop

variable {T : SwapTypes} {pages : Pages} {details : Option Details}

/-- An entry of COMEX is one that the counter is for. -/
theorem Pte.isSwapent_of_isComex {x : Pte} (h : x.isComex = true) : x.isSwapent T = true := by
  cases x with
  | swap e =>
    have hlt := T.comex_lt
    simp only [isComex, Entry.ofSwp] at h
    simp only [isSwapent, SwapTypes.nonSwapEntry, Bool.not_eq_true', decide_eq_false_iff_not]
    split at h
    · omega
    · split at h
      · omega
      · cases h
  | _ => cases h

/-- Entries of COMEX come and go only where a pass with `details = NULL` clears them. -/
def ComexKept (details : Option Details) (addr stop : ℕ) (f g : ℕ → Pte) : Prop :=
  ∀ i, (g i).isComex = (f i).isComex ∨
    details = none ∧ addr ≤ i ∧ i < stop ∧ (f i).isComex = true

theorem ComexKept.trans {addr stop addr' stop' : ℕ} {f g h : ℕ → Pte}
    (hfg : ComexKept details addr stop f g) (hgh : ComexKept details addr' stop' g h)
    (haddr : addr ≤ addr') (hstop : stop' ≤ stop) : ComexKept details addr stop f h := by
  intro i
  rcases hgh i with hsame | ⟨hnone, h1, h2, hold⟩
  · rw [hsame]
    exact hfg i
  · rcases hfg i with hsame' | hcleared
    · exact .inr ⟨hnone, by omega, by omega, by rw [← hsame', hold]⟩
    · exact .inr hcleared

/-- A round of the loop at `addr`: the entry becomes `x`, and the count changes with the
swap entries, those of COMEX left out. -/
structure Round (T : SwapTypes) (details : Option Details) (addr : ℕ) (z : Zap) (r : Zap × Bool)
    (x : Pte) : Prop where
  pte : r.1.pte = Function.update z.pte addr x
  cleared : details = none → x = .none
  flush : r.2 = true → (z.pte addr).isPage = true ∧ x.isPage = false
  comex : x.isComex = (z.pte addr).isComex ∨ details = none ∧ (z.pte addr).isComex = true
  swapents : r.1.rss.swapents + ((z.pte addr).isSwapent T).toNat + x.isComex.toNat =
    z.rss.swapents + (x.isSwapent T).toNat + (z.pte addr).isComex.toNat

/-- A round that leaves the entry. -/
theorem Round.stay {addr : ℕ} {z : Zap} (h : details = none → z.pte addr = .none) :
    Round T details addr z (z, false) (z.pte addr) where
  pte := (Function.update_eq_self addr z.pte).symm
  cleared := h
  flush := fun hf => absurd hf Bool.false_ne_true
  comex := .inl rfl
  swapents := rfl

/-- A round that skips the entry, as only one with `details` does. -/
theorem Round.skip {addr : ℕ} {z : Zap} (h : details.isSome = true) :
    Round T details addr z (z, false) (z.pte addr) := by
  apply Round.stay
  intro hnone
  rw [hnone] at h
  cases h

theorem zapOne_round (T : SwapTypes) (pages : Pages) (details : Option Details) (addr : ℕ)
    (z : Zap) :
    ∃ x, Round T details addr z (zapOne T pages details addr z) x := by
  unfold zapOne
  split
  · next h => exact ⟨_, .stay fun _ => h⟩
  · next h =>
    refine ⟨.none, rfl, fun _ => rfl, fun hf => absurd hf Bool.false_ne_true, .inl ?_, ?_⟩ <;>
      rw [h] <;> rfl
  · next pfn h =>
    split
    · next hleave =>
      refine ⟨_, .stay fun hnone => ?_⟩
      rw [hnone] at hleave
      cases hleave
    · refine ⟨_, rfl, fun hnone => by rw [hnone]; rfl, fun _ => ⟨by rw [h]; rfl, ?_⟩, .inl ?_, ?_⟩
      · split <;> rfl
      · rw [h]
        split <;> rfl
      · rw [h]
        split <;> simp [Zap.set, Pte.isSwapent, Pte.isComex]
  · next h =>
    split
    · next hsome => exact ⟨_, .skip hsome⟩
    · refine ⟨.none, rfl, fun _ => rfl, fun hf => absurd hf Bool.false_ne_true, .inl ?_, ?_⟩ <;>
        rw [h] <;> rfl
  · next e h =>
    split
    · next hsome => exact ⟨_, .skip hsome⟩
    · next hsome =>
      have hnone : details = none := Option.not_isSome_iff_eq_none.mp hsome
      split
      · next c hc =>
        -- the counter is not touched
        have hcomex : (z.pte addr).isComex = true := by rw [h, Pte.isComex, hc]; rfl
        refine ⟨.none, rfl, fun _ => rfl, fun hf => absurd hf Bool.false_ne_true,
          .inr ⟨hnone, hcomex⟩, ?_⟩
        rw [hcomex, Pte.isSwapent_of_isComex hcomex]
        simp [Zap.set, Pte.isSwapent, Pte.isComex]
      · next hc =>
        refine ⟨.none, rfl, fun _ => rfl, fun hf => absurd hf Bool.false_ne_true,
          .inl (by rw [h]; simp [Pte.isComex, hc]), ?_⟩
        rw [h]
        simp only [Pte.isSwapent, Pte.isComex, hc]
        split
        · next hswap =>
          simp only [hswap, Rss.addSwap_swapents, Bool.not_false, Bool.toNat_true,
            Option.isSome_none, Bool.toNat_false]
          omega
        · next hswap =>
          have hnon : T.nonSwapEntry e = true := by simpa using hswap
          split <;> simp [hnon]

/-- What the counter holds beyond the swap entries in the window of `n` from `a`, those of
COMEX left out. -/
def ledger (T : SwapTypes) (a n : ℕ) (pte : ℕ → Pte) (rss : Rss) : ℤ :=
  rss.swapents - number (Pte.isSwapent T) pte a n + number Pte.isComex pte a n

/-- **A round keeps it.** -/
theorem Round.ledger_eq {addr a n : ℕ} {z : Zap} {r : Zap × Bool} {x : Pte}
    (h : Round T details addr z r x) (ha : a ≤ addr) (hn : addr < a + n) :
    ledger T a n r.1.pte r.1.rss = ledger T a n z.pte z.rss := by
  have hswap := Tally.number_update (p := Pte.isSwapent T) (f := z.pte) (x := x) ha hn
  have hcomex := Tally.number_update (p := Pte.isComex) (f := z.pte) (x := x) ha hn
  have hcount := h.swapents
  unfold ledger
  rw [h.pte]
  omega

/-- The loop of `n` rounds from `addr`. -/
structure Rounds (T : SwapTypes) (details : Option Details) (addr n : ℕ) (z : Zap)
    (r : Zap × ℕ × Bool) : Prop where
  le : addr ≤ r.2.1
  finish : r.2.2 = false → r.2.1 = addr + n
  flush : r.2.2 = true → r.2.1 < addr + n ∧ (r.1.pte r.2.1).isPage = false
  moves : r.2.2 = true → (z.pte addr).isPage = false → addr < r.2.1
  before : ∀ i < addr, r.1.pte i = z.pte i
  cleared : details = none → ∀ i, addr ≤ i → i < r.2.1 → r.1.pte i = .none
  comex : ComexKept details addr (addr + n) z.pte r.1.pte
  ledger_eq : ∀ a k, a ≤ addr → addr + n ≤ a + k →
    ledger T a k r.1.pte r.1.rss = ledger T a k z.pte z.rss

/-- What the loop does, by induction on its rounds: a round clears one PTE, and the loop stops
behind it if a batch of pages has to be flushed. -/
theorem zapLoop_rounds (T : SwapTypes) (pages : Pages) (details : Option Details) (n : ℕ) :
    ∀ (addr : ℕ) (z : Zap),
    Rounds T details addr n z (zapLoop T pages details n addr z) := by
  induction n with
  | zero =>
    intro addr z
    exact {
      le := le_rfl
      finish := fun _ => rfl
      flush := fun hf => absurd hf Bool.false_ne_true
      moves := fun hf => absurd hf Bool.false_ne_true
      before := fun _ _ => rfl
      cleared := fun _ i h1 h2 => absurd h2 (Nat.not_lt.mpr h1)
      comex := fun _ => .inl rfl
      ledger_eq := fun _ _ _ _ => rfl }
  | succ n ih =>
    intro addr z
    obtain ⟨x, hx⟩ := zapOne_round T pages details addr z
    have hrest := ih (addr + 1) (zapOne T pages details addr z).1
    have hone : ComexKept details addr (addr + (n + 1)) z.pte
        (zapOne T pages details addr z).1.pte := by
      intro i
      rw [hx.pte]
      by_cases hi : i = addr
      · rw [hi, Function.update_self]
        exact hx.comex.imp_right fun h => ⟨h.1, le_rfl, by omega, h.2⟩
      · rw [Function.update_of_ne hi]
        exact .inl rfl
    rw [zapLoop]
    split
    · -- the batch is full: the loop breaks before `addr += PAGE_SIZE`
      next hflush =>
      obtain ⟨hpage, hnew⟩ := hx.flush hflush
      exact {
        le := le_rfl
        finish := fun hf => absurd hf (by simp)
        flush := fun _ => ⟨by simp, by rw [hx.pte, Function.update_self]; exact hnew⟩
        moves := fun _ hnot => absurd hpage (by simp [hnot])
        before := fun i hi => by rw [hx.pte, Function.update_of_ne (by omega)]
        cleared := fun _ i h1 h2 => absurd h2 (Nat.not_lt.mpr h1)
        comex := hone
        ledger_eq := fun a k ha hk => hx.ledger_eq ha (by omega) }
    · -- the rest of the loop starts behind this PTE
      next hflush =>
      exact {
        le := Nat.le_of_succ_le hrest.le
        finish := fun hf => by rw [hrest.finish hf]; omega
        flush := fun hf => ⟨by have := (hrest.flush hf).1; omega, (hrest.flush hf).2⟩
        moves := fun _ _ => hrest.le
        before := by
          intro i hi
          rw [hrest.before i (by omega), hx.pte, Function.update_of_ne (by omega)]
        cleared := by
          intro hnone i h1 h2
          rcases Nat.lt_or_eq_of_le h1 with hlt | rfl
          · exact hrest.cleared hnone i hlt h2
          · rw [hrest.before addr (by omega), hx.pte, Function.update_self, hx.cleared hnone]
        comex := hone.trans hrest.comex (by omega) (by omega)
        ledger_eq := by
          intro a k ha hk
          rw [hrest.ledger_eq a k (by omega) (by omega)]
          exact hx.ledger_eq ha (by omega) }

theorem ledger_add (a k : ℕ) (pte : ℕ → Pte) (r r' : Rss) :
    ledger T a k pte (r.add r') = r.swapents + ledger T a k pte r' := by
  simp only [ledger, Rss.add_swapents]
  omega

/-- A pass of `zap_pte_range` from `addr` to `stop`. -/
structure Pass (T : SwapTypes) (details : Option Details) (addr stop : ℕ) (mm mm' : Mm) : Prop where
  before : ∀ i < addr, mm'.pte i = mm.pte i
  cleared : details = none → ∀ i, addr ≤ i → i < stop → mm'.pte i = .none
  comex : ComexKept details addr stop mm.pte mm'.pte
  ledger_eq : ∀ a k, a ≤ addr → addr + (stop - addr) ≤ a + k →
    ledger T a k mm'.pte mm'.rss = ledger T a k mm.pte mm.rss

/-- Each run from `again` but the last ends at a page that is then unmapped, and the next one
gets past it. -/
theorem zapAgain_pass (stop : ℕ) : ∀ (fuel addr : ℕ) (mm : Mm) (freed : List Entry),
    stop - addr + (mm.pte addr).isPage.toNat < fuel →
      ∃ mm' freed', zapAgain T pages details stop fuel addr mm freed = some (mm', freed') ∧
        Pass T details addr stop mm mm' := by
  intro fuel
  induction fuel with
  | zero => exact fun _ _ _ h => absurd h (Nat.not_lt_zero _)
  | succ fuel ih =>
    intro addr mm freed hfuel
    have hr := zapLoop_rounds T pages details (stop - addr) addr ⟨mm.pte, .init, freed⟩
    rw [zapAgain]
    generalize zapLoop T pages details (stop - addr) addr ⟨mm.pte, .init, freed⟩ = r at *
    have hledger : ∀ a k, a ≤ addr → addr + (stop - addr) ≤ a + k →
        ledger T a k r.1.pte (mm.rss.add r.1.rss) = ledger T a k mm.pte mm.rss := by
      intro a k ha hk
      rw [ledger_add, hr.ledger_eq a k ha hk]
      simp only [ledger, Rss.init_swapents]
      omega
    have hcomex : ComexKept details addr stop mm.pte r.1.pte := fun i =>
      (hr.comex i).imp_right fun h => ⟨h.1, h.2.1, by omega, h.2.2.2⟩
    split
    · -- `force_flush`, and `again` from the page that filled the batch
      next hagain =>
      obtain ⟨hlt, hpage⟩ := hr.flush hagain.1
      have hle := hr.le
      have hless : stop - r.2.1 < fuel := by
        cases hfirst : (mm.pte addr).isPage with
        | true =>
          rw [hfirst, Bool.toNat_true] at hfuel
          omega
        | false =>
          have := hr.moves hagain.1 hfirst
          omega
      obtain ⟨mm', freed', heq, hpass⟩ := ih r.2.1 ⟨r.1.pte, mm.rss.add r.1.rss⟩ r.1.freed
        (by rw [hpage]; exact hless)
      refine ⟨mm', freed', heq, ?_, ?_, ?_, ?_⟩
      · intro i hi
        exact (hpass.before i (by omega)).trans (hr.before i hi)
      · intro hnone i h1 h2
        rcases Nat.lt_or_ge i r.2.1 with hi | hi
        · rw [hpass.before i hi]
          exact hr.cleared hnone i h1 hi
        · exact hpass.cleared hnone i hi h2
      · exact hcomex.trans hpass.comex (by omega) le_rfl
      · intro a k ha hk
        rw [hpass.ledger_eq a k (by omega) (by omega)]
        exact hledger a k ha hk
    · -- no flush, or one that is due behind the last page
      next hdone =>
      have hfinish : r.2.1 = addr + (stop - addr) := by
        cases hflush : r.2.2 with
        | true =>
          have hlt := (hr.flush hflush).1
          have hle := hr.le
          by_contra hne
          exact hdone ⟨hflush, by omega⟩
        | false => exact hr.finish hflush
      refine ⟨_, _, rfl, hr.before, ?_, hcomex, hledger⟩
      intro hnone i h1 h2
      exact hr.cleared hnone i h1 (by omega)

/-- **A pass ends**, and with `details = NULL` it clears the range.  The fuel is one round for
every page and one more, since a run from `again` gets past the page it starts at. -/
theorem zapPteRange_eq (T : SwapTypes) (pages : Pages) (details : Option Details) (mm : Mm)
    (addr stop : ℕ) : ∃ mm' freed,
    zapPteRange T pages details mm addr stop = some (mm', freed) ∧
      Pass T details addr stop mm mm' :=
  zapAgain_pass stop _ addr mm [] (by have := Bool.toNat_le (mm.pte addr).isPage; omega)

end ZapLoop

/-! ### Copies -/

section CopyLoop

variable {T : SwapTypes} {pages : Pages} {cow : Bool}

/-- A round that copies the entry at `addr`: it stays a swap entry or none, and the count is
that of the copy. -/
theorem copyOnePte_eq (T : SwapTypes) (pages : Pages) (cow : Bool) (addr : ℕ) (c : Copy) : ∃ x y,
    copyOnePte T pages cow addr c =
      ⟨Function.update c.src addr x, Function.update c.dst addr y,
        (copyOnePte T pages cow addr c).rss⟩ ∧
    x.isSwapent T = (c.src addr).isSwapent T ∧
    (copyOnePte T pages cow addr c).rss.swapents = c.rss.swapents + (y.isSwapent T).toNat := by
  have hsame : Function.update c.src addr (c.src addr) = c.src :=
    Function.update_eq_self addr c.src
  unfold copyOnePte
  split
  · next e h =>
    split
    · next hswap =>
      refine ⟨c.src addr, .swap e, by rw [hsame], rfl, ?_⟩
      simp [Pte.isSwapent, hswap]
    · next hswap =>
      have hnon : T.nonSwapEntry e = true := by simpa using hswap
      split
      · split
        · -- the entry of the parent is made one to be read
          refine ⟨_, _, rfl, ?_, ?_⟩
          · have hmax : T.maxSwapfiles ≤ e.type := of_decide_eq_true hnon
            rw [h]
            simp [Pte.isSwapent, SwapTypes.nonSwapEntry, SwapTypes.makeMigrationEntryRead, hmax]
          · simp [Pte.isSwapent, SwapTypes.nonSwapEntry, SwapTypes.makeMigrationEntryRead]
        · exact ⟨c.src addr, .swap e, by rw [hsame], rfl, by simp [Pte.isSwapent, hnon]⟩
      · exact ⟨c.src addr, .swap e, by rw [hsame], rfl, by simp [Pte.isSwapent, hnon]⟩
  · next pfn h => exact ⟨c.src addr, .page pfn, by rw [hsame], rfl, by simp [Pte.isSwapent]⟩
  · next x hswap _ =>
    refine ⟨c.src addr, c.src addr, by rw [hsame], rfl, ?_⟩
    cases hx : c.src addr with
    | swap e => exact absurd hx (hswap e)
    | _ => simp [Pte.isSwapent]

/-- **The copies counted are the swap entries the child gets**; the parent keeps its own, though
one of them may be made an entry to be read. -/
theorem copyLoop_count (T : SwapTypes) (pages : Pages) (cow : Bool) (N n : ℕ) :
    ∀ (addr : ℕ) (c : Copy), addr + n ≤ N →
    (∀ i, addr ≤ i → i < addr + n → c.dst i = .none) →
      number (Pte.isSwapent T) (copyLoop T pages cow n addr c).src 0 N =
        number (Pte.isSwapent T) c.src 0 N ∧
      (copyLoop T pages cow n addr c).rss.swapents + number (Pte.isSwapent T) c.dst 0 N =
        c.rss.swapents +
          number (Pte.isSwapent T) (copyLoop T pages cow n addr c).dst 0 N := by
  induction n with
  | zero => exact fun _ _ _ _ => ⟨rfl, rfl⟩
  | succ n ih =>
    intro addr c hN hnone
    rw [copyLoop]
    split
    · -- an empty PTE is passed over
      exact ih (addr + 1) c (by omega) fun i h1 h2 => hnone i (by omega) (by omega)
    · obtain ⟨x, y, heq, hx, hcount⟩ := copyOnePte_eq T pages cow addr c
      have hsrc := Tally.number_update (p := Pte.isSwapent T) (f := c.src) (x := x)
        (Nat.zero_le addr) (show addr < 0 + N by omega)
      have hdst := Tally.number_update (p := Pte.isSwapent T) (f := c.dst) (x := y)
        (Nat.zero_le addr) (show addr < 0 + N by omega)
      rw [hx] at hsrc
      rw [hnone addr le_rfl (by omega)] at hdst
      have hold : (Pte.isSwapent T .none).toNat = 0 := rfl
      generalize copyOnePte T pages cow addr c = c' at *
      rw [heq]
      obtain ⟨h1, h2⟩ := ih (addr + 1)
        ⟨Function.update c.src addr x, Function.update c.dst addr y, c'.rss⟩ (by omega)
        fun i hi hi' => by
          change Function.update c.dst addr y i = .none
          rw [Function.update_of_ne (by omega)]
          exact hnone i (by omega) (by omega)
      dsimp only at h1 h2
      exact ⟨by omega, by omega⟩

end CopyLoop

end Accounting
end Comex
