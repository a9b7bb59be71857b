import Comex.Remote.FreeGroup
import Comex.Lib.Runs
import Mathlib.Data.List.Nodup

/-!
# The remote free lists over a run

`COMEX_move_to_Remote` decides by `total_page` whether a list has a page, while
`COMEX_freelist_getpage` takes its page from the first group and tests only a
pointer that is never null.  The two agree in every run: `total_page` counts the
pages of the groups, and these are the pages received and not yet handed out, in
the order in which they came.

## Main definitions

* `FreeGroup.Tidy` — the count, the groups and their being apart.
* `FreeList` — a list with the pages it has received and those it has handed out.
* `FreeList.machine` — the lists of all nodes under the calls that work on them.

## Main results

* `FreeList.reach_inv` — what every call keeps.
* `FreeList.reach_tidy` — **the count is right, so a page is taken from a group, and the
  pages leave in the order of their arrival.**
-/

namespace Comex

open Ledger (span mem_span)

namespace FreeGroup

variable {g g' : FreeGroup} {p q : ℤ}

/-- `total_page` counts the pages of the groups, which are not empty and apart. -/
structure Tidy (g : FreeGroup) : Prop where
  total : g.totalPage = (g.groups.map fun x => x.2 - x.1 + 1).sum
  group : ∀ x ∈ g.groups, 0 ≤ x.1 ∧ x.1 ≤ x.2
  apart : g.groups.Pairwise fun x y => x.2 < y.1 ∨ y.2 < x.1

/-- The pages in the order they are handed out are the pages of the groups. -/
theorem Ok.mem_pages (h : Ok g) : q ∈ g.pages ↔ g.Has q := by
  unfold pages Has
  rw [List.mem_flatMap]
  refine exists_congr fun x => and_congr_right fun hx => ?_
  have := h.group x hx
  rw [mem_span]
  omega

theorem Ok.tidy (h : Ok g) (hnodup : g.pages.Nodup) : Tidy g where
  group := h.group
  total := by
    have hlen : ∀ l : List (ℤ × ℤ), (∀ x ∈ l, 0 ≤ x.1 ∧ x.1 ≤ x.2) →
        ((l.flatMap fun x => span x.1 (x.2 - x.1 + 1).toNat).length : ℤ) =
          (l.map fun x => x.2 - x.1 + 1).sum := by
      intro l hl
      induction l with
      | nil => rfl
      | cons x l ih =>
        have hx := hl x List.mem_cons_self
        have hrest := ih fun y hy => hl y (List.mem_cons_of_mem x hy)
        rw [List.flatMap_cons, List.length_append, Int.natCast_add, hrest, List.map_cons,
          List.sum_cons]
        simp only [span, List.length_map, List.length_range]
        omega
    rw [h.total]
    exact hlen g.groups h.group
  apart := by
    obtain ⟨-, hdisj⟩ := List.nodup_flatMap.mp hnodup
    refine hdisj.imp_of_mem fun {x y} hx hy hxy => ?_
    have hgx := h.group x hx
    have hgy := h.group y hy
    by_contra hmeet
    -- the later of the two starts would be a page of both
    have hmem : max x.1 y.1 ∈ span x.1 (x.2 - x.1 + 1).toNat ∧
        max x.1 y.1 ∈ span y.1 (y.2 - y.1 + 1).toNat := by
      rw [mem_span, mem_span]
      omega
    exact hxy hmem.1 hmem.2

/-- Pages below `N`, none twice, are no more than `N`. -/
theorem Ok.totalPage_le (h : Ok g) (hnodup : g.pages.Nodup) {N : ℤ} (h0 : 0 ≤ N)
    (hN : ∀ q ∈ g.pages, q < N) : g.totalPage ≤ N := by
  have hsub : g.pages ⊆ span 0 N.toNat := by
    intro q hq
    obtain ⟨x, hx, hqx⟩ := h.mem_pages.mp hq
    have := h.group x hx
    have := hN q hq
    rw [mem_span]
    omega
  have hle := (List.subperm_of_subset hnodup hsub).length_le
  rw [h.total]
  simp only [span, List.length_map, List.length_range] at hle
  omega

end FreeGroup

/-- `COMEX_free_group[nodeID]` with its history. -/
structure FreeList where
  list : FreeGroup
  /-- The pages of the blocks received, block by block. -/
  received : List ℤ
  /-- The pages handed out, first to last. -/
  returned : List ℤ

namespace FreeList

/-- A call that works on the list of a node. -/
inductive Call
  | receive (nodeID : ℕ) (pageNO : ℤ) (groupSize : ℕ)
  | getpage (nodeID : ℕ)
  | request (nodeID : ℕ)
  deriving DecidableEq, Repr

/-- What a call does; it has no meaning where `COMEX_freelist_getpage` would read the
list head as a group. -/
def next (refill threshold : ℤ) (s : ℕ → FreeList) : Call → Option (ℕ → FreeList)
  | .receive nodeID pageNO groupSize =>
    let f := s nodeID
    some (Function.update s nodeID
      { list := f.list.pageReceive refill pageNO groupSize
        received := f.received ++ if 0 ≤ pageNO then span pageNO (2 ^ groupSize) else []
        returned := f.returned })
  | .getpage nodeID =>
    let f := s nodeID
    f.list.freelistGetpage.map fun r => Function.update s nodeID
      { list := r.2, received := f.received, returned := f.returned ++ [r.1] }
  | .request nodeID =>
    some (Function.update s nodeID { s nodeID with list := ((s nodeID).list.request threshold).2 })

/-- A block that is received holds no page of the list; a page is asked for when
`total_page` says that there is one. -/
def Legal (s : ℕ → FreeList) : Call → Prop
  | .receive nodeID pageNO groupSize =>
    0 ≤ pageNO → ∀ q ∈ span pageNO (2 ^ groupSize), ¬ (s nodeID).list.Has q
  | .getpage nodeID => 0 < (s nodeID).list.totalPage
  | .request _ => True

instance (s : ℕ → FreeList) : (c : Call) → Decidable (Legal s c)
  | .receive nodeID pageNO groupSize => inferInstanceAs (Decidable
      (0 ≤ pageNO → ∀ q ∈ span pageNO (2 ^ groupSize), ¬ (s nodeID).list.Has q))
  | .getpage nodeID => inferInstanceAs (Decidable (0 < (s nodeID).list.totalPage))
  | .request _ => inferInstanceAs (Decidable True)

/-- The lists of all nodes, as `COMEX_init_Remote` leaves them. -/
def init : ℕ → FreeList := fun _ => ⟨FreeGroup.init, [], []⟩

/-- The lists of all nodes, driven by calls. -/
def machine (refill threshold : ℤ) : Machine (ℕ → FreeList) Call :=
  .ofPartial init (next refill threshold)

/-- A run of legal calls. -/
abbrev Reach (refill threshold : ℤ) (s : ℕ → FreeList) : Prop :=
  Machine.Reach (machine refill threshold) Legal s

/-- The groups are in order, hold no page twice, and are what is left of the received. -/
structure Inv (f : FreeList) : Prop where
  ok : f.list.Ok
  nodup : f.list.pages.Nodup
  history : f.received = f.returned ++ f.list.pages

section Steps

variable {f : FreeList}

theorem Inv.init : Inv ⟨FreeGroup.init, [], []⟩ := ⟨FreeGroup.Ok.init, List.nodup_nil, rfl⟩

/-- A received block joins at the end. -/
theorem Inv.receive (h : Inv f) (refill : ℤ) {pageNO : ℤ} {k : ℕ}
    (hnew : 0 ≤ pageNO → ∀ q ∈ span pageNO (2 ^ k), ¬ f.list.Has q) :
    Inv { list := f.list.pageReceive refill pageNO k
          received := f.received ++ if 0 ≤ pageNO then span pageNO (2 ^ k) else []
          returned := f.returned } := by
  obtain ⟨hok, hpages⟩ := h.ok.pageReceive refill pageNO k
  refine ⟨hok, ?_, ?_⟩
  · rw [hpages]
    split
    · next hp =>
      refine List.nodup_append'.mpr ⟨h.nodup, Ledger.nodup_span _ _, fun q hq hqs => ?_⟩
      exact hnew hp q hqs (h.ok.mem_pages.mp hq)
    · rw [List.append_nil]
      exact h.nodup
  · simp only
    rw [hpages, h.history, List.append_assoc]

/-- The page handed out is the oldest one that is left. -/
theorem Inv.getpage (h : Inv f) {p : ℤ} {g : FreeGroup}
    (hget : f.list.freelistGetpage = some (p, g)) :
    Inv { list := g, received := f.received, returned := f.returned ++ [p] } := by
  obtain ⟨hok, hpages⟩ := h.ok.freelistGetpage hget
  refine ⟨hok, ?_, ?_⟩
  · have hnodup := h.nodup
    rw [hpages] at hnodup
    exact (List.nodup_cons.mp hnodup).2
  · simp only
    rw [h.history, hpages, List.append_assoc, List.singleton_append]

theorem Inv.request (h : Inv f) (threshold : ℤ) :
    Inv { f with list := (f.list.request threshold).2 } := by
  obtain ⟨hok, hpages⟩ := h.ok.request threshold
  exact ⟨hok, hpages.symm ▸ h.nodup, hpages.symm ▸ h.history⟩

end Steps

variable {refill threshold : ℤ} {s : ℕ → FreeList}

/-- Every call changes the list of one node, and keeps its invariant. -/
theorem inv_next {s' : ℕ → FreeList} {c : Call} (h : ∀ n, Inv (s n)) (hc : Legal s c)
    (hstep : next refill threshold s c = some s') : ∀ n, Inv (s' n) := by
  have hupdate : ∀ nodeID f, Inv f → ∀ n, Inv (Function.update s nodeID f n) := by
    intro nodeID f hf n
    rw [Function.update_apply]
    split
    · exact hf
    · exact h n
  cases c with
  | receive nodeID pageNO groupSize =>
    rw [← Option.some.inj hstep]
    exact hupdate nodeID _ ((h nodeID).receive refill hc)
  | getpage nodeID =>
    obtain ⟨r, hget, rfl⟩ := Option.map_eq_some_iff.mp hstep
    exact hupdate nodeID _ ((h nodeID).getpage hget)
  | request nodeID =>
    rw [← Option.some.inj hstep]
    exact hupdate nodeID _ ((h nodeID).request threshold)

/-- **The invariant of every run.** -/
theorem reach_inv (h : Reach refill threshold s) (nodeID : ℕ) : Inv (s nodeID) := by
  refine h.invariant (I := fun s => ∀ n, Inv (s n)) ?_ ?_ nodeID
  · intro s h0 n
    rw [h0]
    exact Inv.init
  · exact fun _ _ _ _ hinv hok hstep => inv_next hinv hok hstep

/-- A page is taken from a group, and no other page leaves with it. -/
theorem Inv.exists_getpage {f : FreeList} (h : Inv f) (hpos : 0 < f.list.totalPage) :
    ∃ p g, f.list.freelistGetpage = some (p, g) ∧ 0 ≤ p ∧ f.list.Has p ∧
      ∀ q, g.Has q ↔ f.list.Has q ∧ q ≠ p := by
  obtain ⟨r, hget⟩ := Option.isSome_iff_exists.mp (h.ok.getpage_isSome hpos)
  obtain ⟨hok, hpages⟩ := h.ok.freelistGetpage hget
  have hnodup := h.nodup
  rw [hpages, List.nodup_cons] at hnodup
  have hhas : f.list.Has r.1 := h.ok.mem_pages.mp (by rw [hpages]; exact List.mem_cons_self)
  refine ⟨r.1, r.2, hget, ?_, hhas, fun q => ?_⟩
  · obtain ⟨x, hx, hle, -⟩ := hhas
    exact (h.ok.group x hx).1.trans hle
  · rw [← hok.mem_pages, ← h.ok.mem_pages, hpages, List.mem_cons]
    constructor
    · intro hq
      exact ⟨Or.inr hq, fun heq => hnodup.1 (heq ▸ hq)⟩
    · exact fun hq => hq.1.resolve_left hq.2

/-- **The remote free list is exact.**  At every node of every run of legal calls the count
is that of the groups, which are not empty and apart; where it is positive a page is taken
from a group, it is no negative number and no other page leaves; the pages handed out so
far are the first ones received, and the list holds the others in order.  If the pages
received are below `N`, so is every number the list keeps, the count being at most `N`. -/
theorem reach_tidy (h : Reach refill threshold s) (nodeID : ℕ) :
    (s nodeID).list.Tidy ∧
      (0 < (s nodeID).list.totalPage →
        ∃ p g, (s nodeID).list.freelistGetpage = some (p, g) ∧ 0 ≤ p ∧
          (s nodeID).list.Has p ∧ ∀ q, g.Has q ↔ (s nodeID).list.Has q ∧ q ≠ p) ∧
      (s nodeID).received = (s nodeID).returned ++ (s nodeID).list.pages ∧
      ∀ N : ℤ, 0 ≤ N → (∀ q ∈ (s nodeID).received, q < N) →
        (s nodeID).list.totalPage ≤ N ∧ ∀ x ∈ (s nodeID).list.groups, x.2 < N := by
  have hinv := reach_inv h nodeID
  refine ⟨hinv.ok.tidy hinv.nodup, hinv.exists_getpage, hinv.history, fun N h0 hN => ?_⟩
  have hpages : ∀ q ∈ (s nodeID).list.pages, q < N := fun q hq =>
    hN q (by rw [hinv.history]; exact List.mem_append_right _ hq)
  refine ⟨hinv.ok.totalPage_le hinv.nodup h0 hpages, fun x hx => hpages _ ?_⟩
  have := hinv.ok.group x hx
  exact hinv.ok.mem_pages.mpr ⟨x, hx, this.2, le_rfl⟩

/-- Two blocks received at node 1, three pages taken. -/
theorem reach_tidy_two_blocks : ∃ s, Reach 5 16 s ∧ (s 1).returned = [8, 9, 4] ∧
    (s 1).list.Tidy ∧ (s 1).received = (s 1).returned ++ (s 1).list.pages := by
  obtain ⟨s, hr, hs⟩ := Machine.exists_reach_of_exec init Legal (next 5 16)
    (fun s => (s 1).returned = [8, 9, 4])
    [.receive 1 8 1, .receive 1 (-1) 0, .receive 1 4 2, .request 1, .getpage 1, .getpage 1,
      .getpage 1] (by decide)
  obtain ⟨htidy, -, hhist, -⟩ := reach_tidy hr 1
  exact ⟨s, hr, hs, htidy, hhist⟩

end FreeList
end Comex
