import Comex.Lib.Ledger
import Mathlib.Algebra.Order.Ring.Int

/-!
# Pages on loan and pages to give back

`comex_remote.h`: for every memory node a compute node keeps a list of ranges of
pages it has been lent (`COMEX_free_group`), and collects the pages it no longer
needs in a batch of ranges (`COMEX_free_struct`) until the batch is full.

## Main definitions

* `FreeGroup` with `pageReceive`, `freelistGetpage` and the request of a new block.
* `FreeStruct` with `freeToRemote`.

## Main results

* `FreeGroup.Ok.pageReceive`, `FreeGroup.Ok.freelistGetpage` — what is received is
  appended, what is handed out is the first page.
* `FreeStruct.Ok.freeToRemote` — the batch takes the page in, or is sent whole.
-/

namespace Comex

open Ledger (span mem_span)

/-! ### The free list of a memory node -/

/-- `COMEX_R_free_group_t`; a group is its `page_start` and `page_end`. -/
structure FreeGroup where
  totalPage : ℤ
  backOff : ℤ
  groups : List (ℤ × ℤ)
  deriving DecidableEq, Repr

namespace FreeGroup

/-- `COMEX_init_Remote`. -/
def init : FreeGroup := ⟨0, 0, []⟩

/-- `COMEX_page_receive`, with `kzalloc` succeeding. -/
def pageReceive (refill : ℤ) (g : FreeGroup) (pageNO : ℤ) (groupSize : ℕ) : FreeGroup :=
  let g :=
    if 0 ≤ pageNO then
      { totalPage := g.totalPage + 2 ^ groupSize
        backOff := 0
        groups := g.groups ++ [(pageNO, pageNO + 2 ^ groupSize - 1)] }
    else g
  if groupSize ≤ refill - 2 ∨ pageNO < 0 then { g with backOff := 100000 } else g

/-- `COMEX_freelist_getpage`; on an empty list the source would read the list head
as a group. -/
def freelistGetpage (g : FreeGroup) : Option (ℤ × FreeGroup) :=
  match g.groups with
  | [] => none
  | (pageStart, pageEnd) :: rest =>
    let groups := if pageStart + 1 > pageEnd then rest else (pageStart + 1, pageEnd) :: rest
    some (pageStart, { g with totalPage := g.totalPage - 1, groups := groups })

/-- `COMEX_move_to_Remote` looks at the level of the list: whether it asks for a
block, and the list with the back-off counted. -/
def request (threshold : ℤ) (g : FreeGroup) : Bool × FreeGroup :=
  if g.totalPage ≤ threshold then
    if g.backOff ≤ 0 then (true, { g with backOff := 10000 })
    else (false, { g with backOff := g.backOff - 1 })
  else (false, g)

/-- A page of some group. -/
def Has (g : FreeGroup) (p : ℤ) : Prop := ∃ x ∈ g.groups, x.1 ≤ p ∧ p ≤ x.2

instance (g : FreeGroup) (p : ℤ) : Decidable (g.Has p) :=
  inferInstanceAs (Decidable (∃ x ∈ g.groups, x.1 ≤ p ∧ p ≤ x.2))

end FreeGroup

namespace FreeGroup

/-- The pages of a list, in the order they are handed out. -/
def pages (g : FreeGroup) : List ℤ := g.groups.flatMap fun x => span x.1 (x.2 - x.1 + 1).toNat

/-- Groups are not empty, their pages are page numbers, and `total_page` counts them. -/
structure Ok (g : FreeGroup) : Prop where
  group : ∀ x ∈ g.groups, 0 ≤ x.1 ∧ x.1 ≤ x.2
  total : g.totalPage = g.pages.length

theorem Ok.init : Ok init := ⟨fun x hx => by simp [FreeGroup.init] at hx, rfl⟩

variable {g : FreeGroup}

theorem Ok.request (h : Ok g) (threshold : ℤ) :
    Ok (g.request threshold).2 ∧ (g.request threshold).2.pages = g.pages := by
  unfold FreeGroup.request
  split
  · split
    · exact ⟨⟨h.group, h.total⟩, rfl⟩
    · exact ⟨⟨h.group, h.total⟩, rfl⟩
  · exact ⟨h, rfl⟩

/-- The pages of a block that is received join at the end; a reply without a block only sets
`back_off`. -/
theorem Ok.pageReceive (h : Ok g) (refill pageNO : ℤ) (k : ℕ) :
    Ok (g.pageReceive refill pageNO k) ∧ (g.pageReceive refill pageNO k).pages =
      g.pages ++ if 0 ≤ pageNO then span pageNO (2 ^ k) else [] := by
  have hpow : 0 < 2 ^ k := Nat.two_pow_pos k
  have hcast : ((2 ^ k : ℕ) : ℤ) = 2 ^ k := by push_cast; rfl
  by_cases hp : 0 ≤ pageNO
  · have hlen : (pageNO + 2 ^ k - 1 - pageNO + 1).toNat = 2 ^ k := by omega
    have hpages : pages ⟨g.totalPage + 2 ^ k, 0, g.groups ++ [(pageNO, pageNO + 2 ^ k - 1)]⟩ =
        g.pages ++ span pageNO (2 ^ k) := by
      simp only [pages, List.flatMap_append, List.flatMap_singleton, hlen]
    have hok : Ok ⟨g.totalPage + 2 ^ k, 0, g.groups ++ [(pageNO, pageNO + 2 ^ k - 1)]⟩ := by
      refine ⟨fun x hx => ?_, ?_⟩
      · rcases List.mem_append.mp hx with hx | hx
        · exact h.group x hx
        · rw [List.mem_singleton.mp hx]
          exact ⟨hp, by simp only; omega⟩
      · rw [hpages, List.length_append, Int.natCast_add, ← h.total]
        simp [span]
    unfold FreeGroup.pageReceive
    simp only [if_pos hp]
    split
    · exact ⟨⟨hok.group, hok.total⟩, hpages⟩
    · exact ⟨hok, hpages⟩
  · unfold FreeGroup.pageReceive
    simp only [if_neg hp, List.append_nil]
    split
    · exact ⟨⟨h.group, h.total⟩, rfl⟩
    · exact ⟨h, rfl⟩

/-- The page handed out is the first one. -/
theorem Ok.freelistGetpage (h : Ok g) {p : ℤ} {g' : FreeGroup}
    (hget : g.freelistGetpage = some (p, g')) : Ok g' ∧ g.pages = p :: g'.pages := by
  unfold FreeGroup.freelistGetpage at hget
  cases hgroups : g.groups with
  | nil => simp [hgroups] at hget
  | cons x rest =>
    obtain ⟨pageStart, pageEnd⟩ := x
    obtain ⟨h0, hle⟩ := h.group (pageStart, pageEnd) (by simp [hgroups])
    simp only [hgroups, Option.some.injEq, Prod.mk.injEq] at hget
    obtain ⟨rfl, rfl⟩ := hget
    have hrest : ∀ x ∈ rest, 0 ≤ x.1 ∧ x.1 ≤ x.2 := fun x hx =>
      h.group x (by rw [hgroups]; exact List.mem_cons_of_mem _ hx)
    have hlen : (pageEnd - pageStart + 1).toNat = (pageEnd - pageStart).toNat + 1 := by
      simp only at hle
      omega
    -- the first group loses its first page
    have hpages : g.pages = pageStart :: pages { g with
        totalPage := g.totalPage - 1
        groups := if pageStart + 1 > pageEnd then rest else (pageStart + 1, pageEnd) :: rest } := by
      unfold pages
      rw [hgroups, List.flatMap_cons, hlen, Ledger.span_cons, List.cons_append]
      congr 1
      simp only
      split
      · have hzero : (pageEnd - pageStart).toNat = 0 := by omega
        rw [hzero, Ledger.span_zero, List.nil_append]
      · rw [List.flatMap_cons]
        congr 2
        simp only
        omega
    refine ⟨⟨fun x hx => ?_, ?_⟩, hpages⟩
    · simp only at hx
      split at hx
      · exact hrest x hx
      · rcases List.mem_cons.mp hx with rfl | hx
        · simp only at h0 ⊢
          omega
        · exact hrest x hx
    · have htotal := h.total
      rw [hpages, List.length_cons] at htotal
      simp only
      omega

/-- A list with pages hands one out. -/
theorem Ok.getpage_isSome (h : Ok g) (hpos : 0 < g.totalPage) : g.freelistGetpage.isSome := by
  unfold FreeGroup.freelistGetpage
  cases hgroups : g.groups with
  | nil =>
    rw [h.total, pages, hgroups] at hpos
    exact absurd hpos (by simp)
  | cons x rest => rfl

end FreeGroup

/-! ### The batch of freed pages -/

/-- `MAX_FREE`. -/
def maxFree : ℕ := 16

/-- `free_struct_t`: `pageNO[i]` and `count[i]`. -/
abbrev FreeStruct := List (ℤ × ℤ)

namespace FreeStruct

/-- `clean_free_struct`. -/
def clean : FreeStruct := List.replicate maxFree (-1, 0)

/-- The loop of `COMEX_free_to_remote`: the page extends a range upwards or
downwards or starts one in the first unused entry; `none` if no entry takes it. -/
def add (pageNO : ℤ) : FreeStruct → Option FreeStruct
  | [] => none
  | (p, count) :: rest =>
    if p + count = pageNO ∧ count < 16383 then some ((p, count + 1) :: rest)
    else if p - 1 = pageNO ∧ count < 16383 then some ((p - 1, count + 1) :: rest)
    else if p = -1 then some ((pageNO, 1) :: rest)
    else (add pageNO rest).map ((p, count) :: ·)

/-- `COMEX_free_to_remote`: the batch sent as a `PAGE_FREE`, if it was full, and the
batch with the page. -/
def freeToRemote (f : FreeStruct) (pageNO : ℤ) : Option FreeStruct × FreeStruct :=
  match f.add pageNO with
  | some f' => (none, f')
  | none => (some f, (pageNO, 1) :: clean.tail)

/-- The pages of a batch. -/
def pages (f : FreeStruct) : List ℤ := f.flatMap fun x => span x.1 x.2.toNat

/-- An unused entry is cleared, a used one is a range of page numbers. -/
def Ok (f : FreeStruct) : Prop := ∀ x ∈ f, x = (-1, 0) ∨ 0 ≤ x.1 ∧ 1 ≤ x.2

theorem Ok.clean : Ok clean := fun _ hx => Or.inl (List.eq_of_mem_replicate hx)

@[simp] theorem pages_clean : clean.pages = [] := rfl

theorem pages_cons (x : ℤ × ℤ) (f : FreeStruct) :
    pages (x :: f) = span x.1 x.2.toNat ++ pages f := rfl

/-- The loop takes the page into the batch: it grows a range of the batch by one page at either
end, or starts one in an unused entry. -/
theorem Ok.add {f f' : FreeStruct} (h : Ok f) {pageNO : ℤ} (hp : 0 ≤ pageNO)
    (hadd : f.add pageNO = some f') : Ok f' ∧ f'.pages.Perm (pageNO :: f.pages) := by
  induction f generalizing f' with
  | nil => simp [FreeStruct.add] at hadd
  | cons x rest ih =>
    obtain ⟨p, count⟩ := x
    have hx : p = -1 ∧ count = 0 ∨ 0 ≤ p ∧ 1 ≤ count := by
      simpa only [Prod.mk.injEq] using h (p, count) (List.mem_cons_self ..)
    have hrest : Ok rest := fun y hy => h y (List.mem_cons_of_mem _ hy)
    have hcons : ∀ {y : ℤ × ℤ}, (0 ≤ y.1 ∧ 1 ≤ y.2) → Ok (y :: rest) := by
      intro y hy z hz
      rcases List.mem_cons.mp hz with rfl | hz
      · exact Or.inr hy
      · exact hrest z hz
    unfold FreeStruct.add at hadd
    split at hadd
    · -- the range grows upwards
      next hup =>
      obtain ⟨rfl, -⟩ := hup
      rw [← Option.some.inj hadd]
      have hused : 0 ≤ p ∧ 1 ≤ count := by omega
      refine ⟨hcons (by simp only; omega), ?_⟩
      have hcount : (count + 1).toNat = count.toNat + 1 := by omega
      have hend : p + (count.toNat : ℤ) = p + count := by omega
      simp only [pages_cons, hcount, Ledger.span_succ, hend, List.append_assoc]
      exact List.perm_middle
    split at hadd
    · -- the range grows downwards
      next hdown =>
      obtain ⟨hdown, -⟩ := hdown
      rw [← Option.some.inj hadd]
      have hused : 0 ≤ p ∧ 1 ≤ count := by omega
      refine ⟨hcons (by simp only; omega), ?_⟩
      have hcount : (count + 1).toNat = count.toNat + 1 := by omega
      have hnext : p - 1 + 1 = p := by omega
      simp only [pages_cons, hcount, Ledger.span_cons, hnext, List.cons_append]
      rw [hdown]
    split at hadd
    · -- the entry was unused
      next hunused =>
      rw [← Option.some.inj hadd]
      have hclear : count = 0 := by omega
      refine ⟨hcons ⟨hp, Int.le_refl 1⟩, ?_⟩
      simp only [pages_cons, hclear]
      rw [show ((1 : ℤ).toNat) = 1 from rfl, Ledger.span_one]
      exact List.Perm.refl _
    · obtain ⟨f'', hf'', rfl⟩ := Option.map_eq_some_iff.mp hadd
      obtain ⟨hok, hperm⟩ := ih hrest hf''
      refine ⟨fun y hy => ?_, ?_⟩
      · rcases List.mem_cons.mp hy with rfl | hy
        · exact h _ (List.mem_cons_self ..)
        · exact hok y hy
      · simp only [pages_cons]
        exact (hperm.append_left _).trans List.perm_middle

/-- **The batch takes the page in**, after it has been sent whole if it was full. -/
theorem Ok.freeToRemote {f : FreeStruct} (h : Ok f) {pageNO : ℤ} (hp : 0 ≤ pageNO) :
    Ok (f.freeToRemote pageNO).2 ∧
      (((f.freeToRemote pageNO).1 = none ∧
          (f.freeToRemote pageNO).2.pages.Perm (pageNO :: f.pages)) ∨
        ((f.freeToRemote pageNO).1 = some f ∧ (f.freeToRemote pageNO).2.pages = [pageNO])) := by
  unfold FreeStruct.freeToRemote
  cases hadd : f.add pageNO with
  | some f' =>
    obtain ⟨hok, hperm⟩ := h.add hp hadd
    exact ⟨hok, Or.inl ⟨rfl, hperm⟩⟩
  | none =>
    refine ⟨fun x hx => ?_, Or.inr ⟨rfl, ?_⟩⟩
    · rcases List.mem_cons.mp hx with rfl | hx
      · exact Or.inr ⟨hp, Int.le_refl 1⟩
      · exact Ok.clean x (List.mem_of_mem_tail hx)
    · simp only [pages_cons]
      rw [show ((1 : ℤ).toNat) = 1 from rfl, Ledger.span_one]
      rfl

end FreeStruct

end Comex
