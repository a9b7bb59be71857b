import Comex.Buddy.Invariant
import Mathlib.Data.List.Perm.Lattice

/-!
# The free blocks depend on the free pages alone

A coalesced set of blocks is determined by the pages it covers, so the lists, the
counts and the descriptors of a reachable state are a function of its set of free
pages.  How the pages came to be free, and in which portions, leaves no trace but
the order of the lists.

## Main results

* `Inv.freeBlocks_eq` — one set of free pages, one set of free blocks.
* `reach_canonical` — **two runs that free the same pages end in the same blocks,
  counts and descriptors.**
-/

namespace Comex
namespace Buddy

open Aligned

variable {s t : Buddy}

/-- The free pages are the pages whose counter is zero. -/
theorem Inv.mem_freePages (h : Inv s) {p : ℕ} :
    p ∈ s.freePages ↔ p < s.totalPages ∧ (s.page p).cmxCntr = 0 := by
  constructor
  · intro hp
    have hlt := h.links.lt_of_free hp
    exact ⟨hlt, (h.free_iff p hlt).mpr hp⟩
  · rintro ⟨hlt, h0⟩
    exact (h.free_iff p hlt).mp h0

theorem Inv.freeBlocks_eq (hs : Inv s) (ht : Inv t) (h : s.freePages = t.freePages) :
    s.freeBlocks = t.freeBlocks :=
  hs.coalesced.eq_of_cover ht.coalesced h

/-- Equal blocks are listed on equal lists, up to the order on each. -/
theorem Links.mem_list_congr (hs : Links s) (ht : Links t) (h : s.freeBlocks = t.freeBlocks)
    (k p : ℕ) : p ∈ (s.area k).freeList ↔ p ∈ (t.area k).freeList := by
  rw [hs.mem_list_iff, ht.mem_list_iff, h]

theorem Links.nrFree_congr (hs : Links s) (ht : Links t) (h : s.freeBlocks = t.freeBlocks)
    (k : ℕ) : (s.area k).nrFree = (t.area k).nrFree := by
  have hperm := (List.perm_ext_iff_of_nodup (hs.nodup k) (ht.nodup k)).mpr
    fun p => hs.mem_list_congr ht h k p
  rw [hs.count, ht.count, hperm.length_eq]

/-- Equal blocks put the same order on every descriptor. -/
theorem Links.order_congr (hs : Links s) (ht : Links t) (h : s.freeBlocks = t.freeBlocks)
    {p : ℕ} (hps : p < s.totalPages) (hpt : p < t.totalPages) :
    (s.page p).mapcount = (t.page p).mapcount ∧ (s.page p).priv = (t.page p).priv := by
  have hlist := fun k => (hs.head_iff p hps k).trans
    ((hs.mem_list_congr ht h k p).trans (ht.head_iff p hpt k).symm)
  by_cases hm : (s.page p).mapcount = -128
  · obtain ⟨h1, h2⟩ := (hlist _).mp ⟨hm, rfl⟩
    exact ⟨hm.trans h1.symm, h2.symm⟩
  · -- not a head in either state, so both descriptors are the initial one
    have hm' : (t.page p).mapcount ≠ -128 := fun h' => hm ((hlist _).mpr ⟨h', rfl⟩).1
    obtain ⟨h1, h2⟩ := hs.plain p hps hm
    obtain ⟨h3, h4⟩ := ht.plain p hpt hm'
    exact ⟨h1.trans h3.symm, h2.trans h4.symm⟩

theorem Inv.ctr_congr (hs : Inv s) (ht : Inv t) {p : ℕ} (hps : p < s.totalPages)
    (hpt : p < t.totalPages) (h : (s.page p).cmxCntr = 0 ↔ (t.page p).cmxCntr = 0) :
    (s.page p).cmxCntr = (t.page p).cmxCntr := by
  rcases hs.ctr_eq p hps with h0 | h1
  · rw [h0, h.mp h0]
  · have hne : (t.page p).cmxCntr ≠ 0 := fun h0 => by
      rw [h.mpr h0] at h1
      exact absurd h1 (by decide)
    rw [h1, (ht.ctr_eq p hpt).resolve_left hne]

/-- **The free blocks are a canonical form of the set of free pages.**  Two runs that leave the
same pages free, by whatever calls and in whatever order, agree on the blocks of each order, on
the counts and on the descriptors; only the order within a list may differ. -/
theorem reach_canonical {n : ℕ} (hs : Reach n s) (ht : Reach n t)
    (hfree : ∀ p < n, ((s.page p).cmxCntr = 0 ↔ (t.page p).cmxCntr = 0)) :
    (∀ k p, p ∈ (s.area k).freeList ↔ p ∈ (t.area k).freeList) ∧
      (∀ k, (s.area k).nrFree = (t.area k).nrFree) ∧
      ∀ p < n, (s.page p).cmxCntr = (t.page p).cmxCntr ∧
        (s.page p).mapcount = (t.page p).mapcount ∧ (s.page p).priv = (t.page p).priv := by
  obtain ⟨hs, hsn, -⟩ := reach_inv hs
  obtain ⟨ht, htn, -⟩ := reach_inv ht
  have hpages : s.freePages = t.freePages := by
    ext p
    rw [hs.mem_freePages, ht.mem_freePages, hsn, htn]
    exact and_congr_right fun hp => hfree p hp
  have hblocks := hs.freeBlocks_eq ht hpages
  refine ⟨hs.links.mem_list_congr ht.links hblocks,
    hs.links.nrFree_congr ht.links hblocks, fun p hp => ?_⟩
  have hps : p < s.totalPages := by omega
  have hpt : p < t.totalPages := by omega
  exact ⟨hs.ctr_congr ht hps hpt (hfree p hp), hs.links.order_congr ht.links hblocks hps hpt⟩

/-- Four pages freed upwards one by one, and freed as two pairs from the top. -/
theorem reach_canonical_pairs :
    let s := [Call.freePage 0 0, .freePage 1 0, .freePage 2 0, .freePage 3 0].foldl call
      (initEmpty 6)
    let t := [Call.freePage 2 1, .freePage 0 1].foldl call (initEmpty 6)
    (∀ k p, p ∈ (s.area k).freeList ↔ p ∈ (t.area k).freeList) ∧
      ∀ k, (s.area k).nrFree = (t.area k).nrFree :=
  have h := reach_canonical (n := 6)
    (reach_foldl [.freePage 0 0, .freePage 1 0, .freePage 2 0, .freePage 3 0]
      (.start (s := initEmpty 6) rfl) (by decide))
    (reach_foldl [.freePage 2 1, .freePage 0 1] (.start (s := initEmpty 6) rfl) (by decide))
    (by decide)
  ⟨h.1, h.2.1⟩

end Buddy
end Comex
