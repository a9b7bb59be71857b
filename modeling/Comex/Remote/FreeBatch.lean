import Comex.Remote.FreeGroup
import Mathlib.Data.List.Induction

/-!
# What becomes of the pages that are given back

A compute node keeps a batch `COMEX_free_struct[nodeID]` for every memory node and
sends it as a `PAGE_FREE` when a page does not fit in.  Over any calls of
`COMEX_free_to_remote` every page is in just one range of one batch, sent or not.

## Main definitions

* `FreeStruct.Packed` — used entries first, each a range of pages, then cleared ones.
* `Batches` — the batches of a compute node, with the messages sent so far.

## Main results

* `FreeStruct.Packed.freeToRemote` — one call keeps the shape.
* `Batches.run_kept` — **nothing is lost and nothing is given back twice.**
-/

namespace Comex

open Ledger (span mem_span)

namespace FreeStruct

/-- An entry in use: a range of `pageNO[i]`, `count[i]` inside the pages of the node. -/
structure InUse (totalPages : ℤ) (x : ℤ × ℤ) : Prop where
  nonneg : 0 ≤ x.1
  count_pos : 1 ≤ x.2
  count_le : x.2 ≤ 16383
  in_range : x.1 + x.2 ≤ totalPages

/-- A page on its own. -/
theorem InUse.single {totalPages pageNO : ℤ} (h0 : 0 ≤ pageNO) (hlt : pageNO < totalPages) :
    InUse totalPages (pageNO, 1) :=
  ⟨h0, le_rfl, (by decide : (1 : ℤ) ≤ 16383), Int.add_one_le_of_lt hlt⟩

/-- The used entries are a prefix of the `MAX_FREE` slots, the others are cleared. -/
structure Packed (totalPages : ℤ) (f : FreeStruct) : Prop where
  length : f.length = maxFree
  prefixed : ∃ used k, f = used ++ List.replicate k (-1, 0) ∧ ∀ x ∈ used, InUse totalPages x

section Shape

variable {totalPages : ℤ} {f f' : FreeStruct}

theorem Packed.clean : Packed totalPages clean where
  length := rfl
  prefixed := ⟨[], maxFree, rfl, by simp⟩

theorem Packed.ok (h : Packed totalPages f) : Ok f := by
  obtain ⟨used, k, rfl, hused⟩ := h.prefixed
  intro x hx
  rcases List.mem_append.mp hx with hx | hx
  · exact Or.inr ⟨(hused x hx).nonneg, (hused x hx).count_pos⟩
  · exact Or.inl (List.eq_of_mem_replicate hx)

/-- The loop keeps the used entries in front: the page joins one of them or the
first cleared entry. -/
theorem add_prefixed {pageNO : ℤ} (h0 : 0 ≤ pageNO) (hlt : pageNO < totalPages) {k : ℕ} :
    ∀ {used f' : FreeStruct}, (∀ x ∈ used, InUse totalPages x) →
      add pageNO (used ++ List.replicate k (-1, 0)) = some f' →
      f'.length = used.length + k ∧
        ∃ used' k', f' = used' ++ List.replicate k' (-1, 0) ∧ ∀ x ∈ used', InUse totalPages x := by
  intro used
  induction used with
  | nil =>
    intro f' _ hadd
    cases k with
    | zero => simp [FreeStruct.add] at hadd
    | succ k =>
      -- a cleared entry is next to no page, so it is taken as an unused one
      have hup : ¬ ((-1 : ℤ) + 0 = pageNO ∧ (0 : ℤ) < 16383) := by omega
      have hdown : ¬ ((-1 : ℤ) - 1 = pageNO ∧ (0 : ℤ) < 16383) := by omega
      rw [List.nil_append, List.replicate_succ, FreeStruct.add, if_neg hup, if_neg hdown,
        if_pos rfl] at hadd
      obtain rfl := Option.some.inj hadd
      refine ⟨by simp, [(pageNO, 1)], k, rfl, fun x hx => ?_⟩
      rw [List.mem_singleton.mp hx]
      exact .single h0 hlt
  | cons x rest ih =>
    intro f' hused hadd
    obtain ⟨p, count⟩ := x
    obtain ⟨hp0, hc1, hcle, hend⟩ := hused (p, count) (List.mem_cons_self ..)
    have hrest := fun y hy => hused y (List.mem_cons_of_mem _ hy)
    simp only at hp0 hc1 hcle hend
    -- an entry that grows stays a range of pages
    have hgrow : ∀ {y : ℤ × ℤ}, InUse totalPages y →
        ((y :: rest) ++ List.replicate k (-1, 0)).length = (rest.length + 1) + k ∧
          ∃ used' k', (y :: rest) ++ List.replicate k (-1, 0) =
            used' ++ List.replicate k' (-1, 0) ∧ ∀ x ∈ used', InUse totalPages x := by
      intro y hy
      refine ⟨by simp [Nat.add_right_comm], y :: rest, k, rfl, fun z hz => ?_⟩
      rcases List.mem_cons.mp hz with rfl | hz
      · exact hy
      · exact hrest z hz
    rw [List.cons_append, FreeStruct.add] at hadd
    split at hadd
    · next hup =>
      obtain rfl := Option.some.inj hadd
      exact hgrow ⟨hp0, by simp only; omega, by simp only; omega, by simp only; omega⟩
    split at hadd
    · next hdown =>
      obtain rfl := Option.some.inj hadd
      exact hgrow ⟨by simp only; omega, by simp only; omega, by simp only; omega,
        by simp only; omega⟩
    split at hadd
    · next hclear => omega
    · obtain ⟨f'', hf'', rfl⟩ := Option.map_eq_some_iff.mp hadd
      obtain ⟨hlen, used', k', rfl, hused'⟩ := ih hrest hf''
      refine ⟨by simp only [List.length_cons, hlen]; omega, (p, count) :: used', k', rfl, ?_⟩
      intro z hz
      rcases List.mem_cons.mp hz with rfl | hz
      · exact ⟨hp0, hc1, hcle, hend⟩
      · exact hused' z hz

/-- **One call keeps the shape**, of what it sends and of what it keeps. -/
theorem Packed.freeToRemote (h : Packed totalPages f) {pageNO : ℤ} (h0 : 0 ≤ pageNO)
    (hlt : pageNO < totalPages) :
    Packed totalPages (f.freeToRemote pageNO).2 ∧
      ∀ m ∈ (f.freeToRemote pageNO).1, Packed totalPages m := by
  unfold FreeStruct.freeToRemote
  cases hadd : f.add pageNO with
  | some f' =>
    obtain ⟨used, k, rfl, hused⟩ := h.prefixed
    obtain ⟨hlen, hprefixed⟩ := add_prefixed h0 hlt hused hadd
    have hold := h.length
    rw [List.length_append, List.length_replicate] at hold
    exact ⟨⟨hlen.trans hold, hprefixed⟩, by simp⟩
  | none =>
    refine ⟨⟨rfl, [(pageNO, 1)], maxFree - 1, rfl, fun x hx => ?_⟩, ?_⟩
    · rw [List.mem_singleton.mp hx]
      exact .single h0 hlt
    · intro m hm
      obtain rfl := Option.mem_some_iff.mp hm
      exact h

end Shape

end FreeStruct

/-! ### The batches of a compute node -/

/-- The batch of one memory node, with the `PAGE_FREE` messages it has been sent. -/
structure Batch where
  sent : List FreeStruct
  pending : FreeStruct
  deriving DecidableEq, Repr

/-- `COMEX_free_struct[]`. -/
abbrev Batches := ℕ → Batch

namespace Batch

/-- All entries, of the messages and of the pending batch. -/
def entries (b : Batch) : FreeStruct := b.sent.flatten ++ b.pending

/-- All pages, with their multiplicity. -/
def pages (b : Batch) : List ℤ := b.sent.flatMap FreeStruct.pages ++ b.pending.pages

theorem pages_eq (b : Batch) : b.pages = b.entries.pages := by
  rw [entries, FreeStruct.pages, List.flatMap_append, List.flatten_eq_flatMap, List.flatMap_assoc]
  rfl

end Batch

namespace Batches

/-- Every batch cleaned. -/
def clean : Batches := fun _ => ⟨[], FreeStruct.clean⟩

/-- `COMEX_free_to_remote(nodeID, pageNO)`. -/
def freeToRemote (b : Batches) (nodeID : ℕ) (pageNO : ℤ) : Batches :=
  let r := (b nodeID).pending.freeToRemote pageNO
  Function.update b nodeID ⟨(b nodeID).sent ++ r.1.toList, r.2⟩

/-- A sequence of calls, from cleaned batches on. -/
def run (calls : List (ℕ × ℤ)) : Batches :=
  calls.foldl (fun b c => b.freeToRemote c.1 c.2) clean

/-- The pages passed in for a memory node. -/
def passed (calls : List (ℕ × ℤ)) (nodeID : ℕ) : List ℤ :=
  (calls.filter fun c => c.1 = nodeID).map Prod.snd

section Snoc

variable (calls : List (ℕ × ℤ)) (c : ℕ × ℤ) (nodeID : ℕ)

theorem run_snoc : run (calls ++ [c]) = (run calls).freeToRemote c.1 c.2 := by
  simp [run]

theorem passed_snoc : passed (calls ++ [c]) nodeID =
    passed calls nodeID ++ if c.1 = nodeID then [c.2] else [] := by
  simp only [passed, List.filter_append, List.map_append, List.filter_singleton]
  split <;> simp_all

end Snoc

/-- What holds of a batch after the pages `ps` have been passed in. -/
structure Kept (totalPages : ℤ) (ps : List ℤ) (b : Batch) : Prop where
  perm : b.pages.Perm ps
  sent : ∀ m ∈ b.sent, m.Packed totalPages
  pending : b.pending.Packed totalPages

/-- One call adds its page to the pages of the batch. -/
theorem Kept.freeToRemote {totalPages : ℤ} {ps : List ℤ} {b : Batch} (h : Kept totalPages ps b)
    {pageNO : ℤ} (h0 : 0 ≤ pageNO) (hlt : pageNO < totalPages) :
    Kept totalPages (ps ++ [pageNO])
      ⟨b.sent ++ (b.pending.freeToRemote pageNO).1.toList,
        (b.pending.freeToRemote pageNO).2⟩ := by
  obtain ⟨hpending, hsent⟩ := h.pending.freeToRemote h0 hlt
  refine ⟨?_, fun m hm => ?_, hpending⟩
  · -- the page joins, and a full batch only changes sides
    have hperm : (pageNO :: b.pages).Perm (ps ++ [pageNO]) :=
      (h.perm.cons pageNO).trans (List.perm_append_singleton pageNO ps).symm
    refine List.Perm.trans ?_ hperm
    unfold Batch.pages
    rcases (h.pending.ok.freeToRemote h0).2 with ⟨hnone, hp⟩ | ⟨hsome, hp⟩
    · rw [hnone, Option.toList_none, List.append_nil]
      exact (hp.append_left _).trans List.perm_middle
    · rw [hsome, hp, Option.toList_some, List.flatMap_append, List.flatMap_singleton]
      exact List.perm_append_singleton _ _
  · rcases List.mem_append.mp hm with hm | hm
    · exact h.sent m hm
    · exact hsent m (Option.mem_toList.mp hm)

theorem run_invariant {totalPages : ℤ} (calls : List (ℕ × ℤ)) (nodeID : ℕ)
    (h : ∀ c ∈ calls, 0 ≤ c.2 ∧ c.2 < totalPages) :
    Kept totalPages (passed calls nodeID) (run calls nodeID) := by
  induction calls using List.reverseRecOn with
  | nil => exact ⟨List.Perm.refl _, by simp [run, clean], .clean⟩
  | append_singleton calls c ih =>
    have hlast := ih fun x hx => h x (List.mem_append_left _ hx)
    obtain ⟨h0, hlt⟩ := h c (List.mem_append_right _ (List.mem_singleton_self c))
    rw [run_snoc, passed_snoc, Batches.freeToRemote]
    by_cases hc : c.1 = nodeID
    · subst hc
      rw [if_pos rfl, Function.update_self]
      exact hlast.freeToRemote h0 hlt
    · rw [if_neg hc, List.append_nil, Function.update_of_ne (Ne.symm hc)]
      exact hlast

/-- **The free batch loses and duplicates nothing**: the ranges sent and pending hold
every page as often as it was passed in, each batch is a prefix of proper ranges
followed by cleared entries, and distinct pages make disjoint ranges. -/
theorem run_kept {totalPages : ℤ} (calls : List (ℕ × ℤ)) (nodeID : ℕ)
    (h : ∀ c ∈ calls, 0 ≤ c.2 ∧ c.2 < totalPages) :
    (run calls nodeID).pages.Perm (passed calls nodeID) ∧
      (∀ m ∈ (run calls nodeID).sent, m.Packed totalPages) ∧
      (run calls nodeID).pending.Packed totalPages ∧
      ((passed calls nodeID).Nodup →
        (run calls nodeID).entries.Pairwise fun x y =>
          List.Disjoint (span x.1 x.2.toNat) (span y.1 y.2.toNat)) := by
  have hk := run_invariant calls nodeID h
  refine ⟨hk.perm, hk.sent, hk.pending, fun hnodup => ?_⟩
  have hpages := hk.perm.nodup_iff.mpr hnodup
  rw [Batch.pages_eq] at hpages
  exact (List.nodup_flatMap.mp hpages).2

/-- Pages of two nodes, some of which extend a range up or down. -/
theorem run_kept_ranges :
    (run [(0, 5), (1, 5), (0, 6), (0, 4), (0, 9)] 0).pages.Perm [5, 6, 4, 9] ∧
      (run [(0, 5), (1, 5), (0, 6), (0, 4), (0, 9)] 0).pending.Packed 10 :=
  have h := @run_kept 10 [(0, 5), (1, 5), (0, 6), (0, 4), (0, 9)] 0 (by decide)
  ⟨h.1, h.2.2.1⟩

end Batches
end Comex
