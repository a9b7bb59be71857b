import Comex.Cluster.Network
import Mathlib.Data.List.Perm.Basic

/-!
# Every page is in exactly one place

A page of a memory node is free there, used there, in a `PAGE_RPLY`, in a free
list, named by a swap entry, in a batch or in a `PAGE_FREE`.  `holdings` counts how
often it is at each of these places.  Every step moves pages from one place to
another, so the ledger lemmas keep each page at exactly one place through any run.

## Main definitions

* `Place`, `holdings` — where a page can be, and how often it is there.
* `Inv` — the ledger, and what the moves rely on.

## Main results

* `Inv.step` — every step is a move.
* `reach_kept` — **in every reachable state every page is in exactly one place.**
-/

namespace Comex

open Ledger

/-- The pages of node `m` a message carries. -/
def Message.pagesOf {ι : Type} [DecidableEq ι] (m : ι) (msg : Message ι) : List ℤ :=
  match msg.body with
  | .pageRply pageNO size => if msg.src = m ∧ 0 ≤ pageNO then span pageNO (2 ^ size) else []
  | _ => []

/-- The pages of node `m` a message gives back. -/
def Message.freedOf {ι : Type} [DecidableEq ι] (net : Network ι) (m : ι) (msg : Message ι) :
    List ℤ :=
  match msg.body with
  | .pageFree f => if net.peer msg.src msg.cb = m then f.pages else []
  | _ => []

namespace Cluster

variable {ι : Type} [DecidableEq ι]

/-- Where a page of a memory node can be. -/
inductive Place (ι : Type)
  | free
  | used
  | pageRply
  | group (i : ι) (d : ℤ)
  | entry (i : ι) (d : ℤ)
  | batch (i : ι) (d : ℤ)
  | pageFree
  deriving DecidableEq

/-- Whether a page is free in an allocator. -/
def freeCount (b : Buddy) (p : ℤ) : ℕ :=
  if 0 ≤ p ∧ p < b.totalPages ∧ (b.page p.toNat).cmxCntr = 0 then 1 else 0

/-- How often page `p` of node `m` is at each place. -/
def holdings (net : Network ι) (s : Cluster ι) (m : ι) (p : ℤ) : Place ι → ℕ
  | .free => freeCount (s.buddy m) p
  | .used => (s.used m).count p
  | .pageRply => (s.flight.flatMap (Message.pagesOf m)).count p
  | .group i d => if net.peer i d = m then (s.group i d).pages.count p else 0
  | .entry i d => if net.peer i d = m then (s.entries i d).count p else 0
  | .batch i d => if net.peer i d = m then (s.batch i d).pages.count p else 0
  | .pageFree => (s.flight.flatMap (Message.freedOf net m)).count p

/-- Every page is kept, nothing else is a page, and the parts are well formed. -/
structure Inv (net : Network ι) (s : Cluster ι) : Prop where
  buddy : ∀ m, (s.buddy m).Inv ∧ (s.buddy m).totalPages = net.totalPages m ∧
    (s.buddy m).failed = []
  group : ∀ i d, (s.group i d).Ok
  batch : ∀ i d, (s.batch i d).Ok
  flight : ∀ msg ∈ s.flight, ∀ f, msg.body = .pageFree f → f.Ok
  kept : ∀ (m : ι) (p : ℤ), 0 ≤ p → p < net.totalPages m → Kept (s.holdings net m p)
  absent : ∀ (m : ι) (p : ℤ), ¬ (0 ≤ p ∧ p < net.totalPages m) → Absent (s.holdings net m p)

/-! ### The allocator's part of the ledger -/

section Allocator

variable {b b' : Buddy} {p : ℤ}

theorem freeCount_eq_one (h : b.Inv) : freeCount b p = 1 ↔ 0 ≤ p ∧ p.toNat ∈ b.freePages := by
  unfold freeCount
  constructor
  · intro hc
    split at hc
    · next hp => exact ⟨hp.1, (h.free_iff _ (by omega)).mp hp.2.2⟩
    · exact absurd hc (by decide)
  · rintro ⟨h0, hfree⟩
    have hlt := h.links.lt_of_free hfree
    rw [if_pos ⟨h0, by omega, (h.free_iff _ hlt).mpr hfree⟩]

theorem freeCount_eq_zero (h : b.Inv) :
    freeCount b p = 0 ↔ ¬ (0 ≤ p ∧ p.toNat ∈ b.freePages) := by
  rw [← freeCount_eq_one h]
  unfold freeCount
  split <;> simp

/-- An allocation takes the block out of the free pages. -/
theorem freeCount_allocated {k q : ℕ} (h : b.Inv) (ha : b.Allocated k q b') (p : ℤ) :
    freeCount b' p + (span q (2 ^ k)).count p = freeCount b p := by
  have hin : ∀ x : ℕ, x ∈ Aligned.Block.around k q ↔ q ≤ x ∧ x < q + 2 ^ k := fun x =>
    Buddy.mem_around_iff ha.aligned
  have hcast : ((2 ^ k : ℕ) : ℤ) = 2 ^ k := by push_cast; rfl
  rw [count_span]
  by_cases hp : (q : ℤ) ≤ p ∧ p < q + (2 ^ k : ℕ)
  · have hmem := (hin p.toNat).mpr (by omega)
    rw [if_pos hp, (freeCount_eq_zero ha.inv).mpr fun hc => ((ha.freePages _).mp hc.2).2 hmem,
      (freeCount_eq_one h).mpr ⟨by omega, ha.was_free _ hmem⟩]
  · rw [if_neg hp, Nat.add_zero]
    by_cases hfree : 0 ≤ p ∧ p.toNat ∈ b.freePages
    · have hout : p.toNat ∉ Aligned.Block.around k q := fun hc => by
        have := (hin _).mp hc
        omega
      rw [(freeCount_eq_one h).mpr hfree,
        (freeCount_eq_one ha.inv).mpr ⟨hfree.1, (ha.freePages _).mpr ⟨hfree.2, hout⟩⟩]
    · rw [(freeCount_eq_zero h).mpr hfree, (freeCount_eq_zero ha.inv).mpr fun hc =>
        hfree ⟨hc.1, ((ha.freePages _).mp hc.2).1⟩]

/-- Freeing pages that are not free adds each of them once. -/
theorem freeCount_returned {pages : List ℤ} (h : b.Inv)
    (hr : b.Returned {q | (q : ℤ) ∈ pages} b') (hnodup : pages.Nodup)
    (hpages : ∀ q ∈ pages, 0 ≤ q ∧ q.toNat ∉ b.freePages) (p : ℤ) :
    freeCount b' p = freeCount b p + pages.count p := by
  by_cases hp : p ∈ pages
  · obtain ⟨h0, hout⟩ := hpages p hp
    have hmem : ((p.toNat : ℕ) : ℤ) ∈ pages := by rwa [Int.toNat_of_nonneg h0]
    rw [List.count_eq_one_of_mem hnodup hp, (freeCount_eq_zero h).mpr fun hc => hout hc.2,
      (freeCount_eq_one hr.inv).mpr ⟨h0, (hr.freePages _).mpr (Or.inr hmem)⟩]
  · rw [List.count_eq_zero_of_not_mem hp, Nat.add_zero]
    have hiff : 0 ≤ p ∧ p.toNat ∈ b'.freePages ↔ 0 ≤ p ∧ p.toNat ∈ b.freePages := by
      apply and_congr_right
      intro h0
      rw [hr.freePages, Set.mem_ofPred_eq, Int.toNat_of_nonneg h0]
      exact or_iff_left hp
    by_cases hfree : 0 ≤ p ∧ p.toNat ∈ b.freePages
    · rw [(freeCount_eq_one h).mpr hfree, (freeCount_eq_one hr.inv).mpr (hiff.mpr hfree)]
    · rw [(freeCount_eq_zero h).mpr hfree,
        (freeCount_eq_zero hr.inv).mpr fun hc => hfree (hiff.mp hc)]

end Allocator

/-! ### Every step is a move -/

section Moves

variable {net : Network ι} {s : Cluster ι}

@[simp] theorem set₂_self {β : Type} (f : ι → ℤ → β) (i : ι) (d : ℤ) (b : β) :
    set₂ f i d b i d = b := if_pos ⟨rfl, rfl⟩

theorem set₂_of_ne {β : Type} (f : ι → ℤ → β) {i j : ι} {d e : ℤ} (b : β)
    (h : ¬ (j = i ∧ e = d)) : set₂ f i d b j e = f j e := if_neg h

omit [DecidableEq ι] in
/-- Places of one kind that differ are for different lists. -/
theorem ne_of_place {place : ι → ℤ → Place ι} {i j : ι} {d e : ℤ} (h : place j e ≠ place i d) :
    ¬ (j = i ∧ e = d) := fun hc => h (by rw [hc.1, hc.2])

omit [DecidableEq ι] in
/-- A message in flight and the others. -/
theorem flight_count {k : ℕ} {msg : Message ι} (hk : s.flight[k]? = some msg)
    (pages : Message ι → List ℤ) (p : ℤ) : (s.flight.flatMap pages).count p =
      ((s.flight.eraseIdx k).flatMap pages).count p + (pages msg).count p := by
  obtain ⟨hlt, rfl⟩ := List.getElem?_eq_some_iff.mp hk
  have hperm := (List.getElem_cons_eraseIdx_perm hlt).flatMap_right pages
  rw [← hperm.count_eq p, List.flatMap_cons, List.count_append, Nat.add_comm]

/-- A page is handed out and named by a swap entry: it leaves the free list of the connection,
and no other place is touched. -/
theorem move_takePage {i : ι} {d q : ℤ} {g : FreeGroup}
    (hpages : (s.group i d).pages = q :: g.pages) (m : ι) (p : ℤ) :
    Move (s.holdings net m p)
      (holdings net { s with
        group := set₂ s.group i d g
        entries := set₂ s.entries i d (q :: s.entries i d) } m p)
      (.group i d) (.entry i d) (if net.peer i d = m ∧ q = p then 1 else 0) where
  ne := by simp
  source := by
    simp only [holdings, set₂_self, hpages, List.count_cons, beq_iff_eq]
    by_cases hm : net.peer i d = m <;> simp [hm]
  target := by
    simp only [holdings, set₂_self, List.count_cons, beq_iff_eq]
    by_cases hm : net.peer i d = m <;> simp [hm]
  frame := by
    intro pl h1 h2
    cases pl with
    | group j e =>
      simp only [holdings, set₂_of_ne _ _ (ne_of_place h1)]
    | entry j e =>
      simp only [holdings, set₂_of_ne _ _ (ne_of_place h2)]
    | free => rfl
    | used => rfl
    | pageRply => rfl
    | batch j e => rfl
    | pageFree => rfl

/-- A swap entry drops its page. -/
theorem entry_erase {i : ι} {d q : ℤ} (hq : q ∈ s.entries i d) (m : ι) (p : ℤ) :
    (if net.peer i d = m then ((s.entries i d).erase q).count p else 0) +
      (if net.peer i d = m ∧ q = p then 1 else 0) = s.holdings net m p (.entry i d) := by
  have hcount := (List.perm_cons_erase hq).count_eq p
  simp only [List.count_cons, beq_iff_eq] at hcount
  simp only [holdings]
  by_cases hm : net.peer i d = m <;> simp [hm, hcount]

/-- A page is dropped by its swap entry and joins the batch. -/
theorem move_freeToRemote {i : ι} {d q : ℤ} {f : FreeStruct} (hq : q ∈ s.entries i d)
    (hperm : f.pages.Perm (q :: (s.batch i d).pages)) (m : ι) (p : ℤ) :
    Move (s.holdings net m p)
      (holdings net { s with
        entries := set₂ s.entries i d ((s.entries i d).erase q)
        batch := set₂ s.batch i d f } m p)
      (.entry i d) (.batch i d) (if net.peer i d = m ∧ q = p then 1 else 0) where
  ne := by simp
  source := by
    rw [← entry_erase hq]
    simp only [holdings, set₂_self]
  target := by
    have hcount := hperm.count_eq p
    simp only [List.count_cons, beq_iff_eq] at hcount
    simp only [holdings, set₂_self]
    by_cases hm : net.peer i d = m <;> simp [hm, hcount]
  frame := by
    intro pl h1 h2
    cases pl with
    | entry j e =>
      simp only [holdings, set₂_of_ne _ _ (ne_of_place h1)]
    | batch j e =>
      simp only [holdings, set₂_of_ne _ _ (ne_of_place h2)]
    | free => rfl
    | used => rfl
    | pageRply => rfl
    | group j e => rfl
    | pageFree => rfl

/-- The same when the batch is full: it is sent, and the page starts the next one.  Its pages go
on to the message, so this is two moves in one. -/
theorem move_freeToRemote_full {i : ι} {d q : ℤ} {f : FreeStruct} (hq : q ∈ s.entries i d)
    (hpages : f.pages = [q]) (m : ι) (p : ℤ) :
    Move₂ (s.holdings net m p)
      (holdings net { s with
        entries := set₂ s.entries i d ((s.entries i d).erase q)
        batch := set₂ s.batch i d f
        flight := s.flight ++ [⟨i, d, .pageFree (s.batch i d)⟩] } m p)
      (.entry i d) (.batch i d) .pageFree (if net.peer i d = m ∧ q = p then 1 else 0)
      (if net.peer i d = m then (s.batch i d).pages.count p else 0) where
  ne := by simp
  source := by
    rw [← entry_erase hq]
    simp only [holdings, set₂_self]
  through := by
    simp only [holdings, set₂_self, hpages, List.count_singleton, beq_iff_eq]
    by_cases hm : net.peer i d = m <;> simp [hm, Nat.add_comm]
  enough := by
    simp only [holdings]
    exact le_rfl
  target := by
    simp only [holdings, List.flatMap_append, List.flatMap_singleton, List.count_append,
      Message.freedOf]
    by_cases hm : net.peer i d = m <;> simp [hm]
  frame := by
    intro pl h1 h2 h3
    cases pl with
    | entry j e =>
      simp only [holdings, set₂_of_ne _ _ (ne_of_place h1)]
    | batch j e =>
      simp only [holdings, set₂_of_ne _ _ (ne_of_place h2)]
    | pageRply =>
      simp only [holdings, List.flatMap_append, List.flatMap_singleton, Message.pagesOf,
        List.append_nil]
    | free => rfl
    | used => rfl
    | group j e => rfl
    | pageFree => exact absurd rfl h3

/-- A request is answered with pages that leave the allocator; where it has none to give, the
reply carries none. -/
theorem move_pagesRequest {k : ℕ} {msg reply : Message ι} (hk : s.flight[k]? = some msg)
    (hbody : msg.body = .pageRqst) (hreply : ∀ m, reply.freedOf net m = []) {r : ι} {b : Buddy}
    (hother : ∀ m, m ≠ r → reply.pagesOf m = [])
    (hfree : ∀ p, freeCount b p + (reply.pagesOf r).count p = freeCount (s.buddy r) p)
    (m : ι) (p : ℤ) :
    Move (s.holdings net m p)
      (holdings net { s with
        buddy := Function.update s.buddy r b
        flight := s.flight.eraseIdx k ++ [reply] } m p)
      .free .pageRply ((reply.pagesOf m).count p) where
  ne := by simp
  source := by
    simp only [holdings, Function.update_apply]
    by_cases hm : m = r
    · subst hm
      rw [if_pos rfl]
      exact hfree p
    · rw [if_neg hm, hother m hm]
      rfl
  target := by
    simp only [holdings, List.flatMap_append, List.flatMap_singleton, List.count_append]
    rw [flight_count hk]
    simp [Message.pagesOf, hbody]
  frame := by
    intro pl h1 h2
    cases pl with
    | free => exact absurd rfl h1
    | pageRply => exact absurd rfl h2
    | pageFree =>
      simp only [holdings, List.flatMap_append, List.flatMap_singleton, List.count_append]
      rw [flight_count hk, hreply]
      simp [Message.freedOf, hbody]
    | used => rfl
    | group j e => rfl
    | entry j e => rfl
    | batch j e => rfl

/-- A reply's pages join a free list for the node that sent it. -/
theorem move_pageReceive {k : ℕ} {msg : Message ι} (hk : s.flight[k]? = some msg)
    {pageNO : ℤ} {size : ℕ} (hbody : msg.body = .pageRply pageNO size) {r : ι} {d : ℤ}
    (hpeer : net.peer r d = msg.src) {g : FreeGroup}
    (hpages : g.pages = (s.group r d).pages ++ if 0 ≤ pageNO then span pageNO (2 ^ size) else [])
    (m : ι) (p : ℤ) :
    Move (s.holdings net m p)
      (holdings net { s with
        group := set₂ s.group r d g
        flight := s.flight.eraseIdx k } m p)
      .pageRply (.group r d) ((msg.pagesOf m).count p) where
  ne := by simp
  source := by
    simp only [holdings]
    rw [flight_count hk]
  target := by
    simp only [holdings, set₂_self, hpages, hpeer, List.count_append, Message.pagesOf, hbody]
    by_cases hm : msg.src = m <;> by_cases hp : 0 ≤ pageNO <;> simp [hm, hp]
  frame := by
    intro pl h1 h2
    cases pl with
    | group j e =>
      simp only [holdings, set₂_of_ne _ _ (ne_of_place h2)]
    | pageRply => exact absurd rfl h1
    | pageFree =>
      simp only [holdings]
      rw [flight_count hk (Message.freedOf net m)]
      simp [Message.freedOf, hbody]
    | free => rfl
    | used => rfl
    | entry j e => rfl
    | batch j e => rfl

/-- The pages of a batch become free where they came from. -/
theorem move_freeBatch {k : ℕ} {msg : Message ι} (hk : s.flight[k]? = some msg)
    {f : FreeStruct} (hbody : msg.body = .pageFree f) {b : Buddy}
    (hfree : ∀ p, freeCount b p = freeCount (s.buddy (net.peer msg.src msg.cb)) p + f.pages.count p)
    (m : ι) (p : ℤ) :
    Move (s.holdings net m p)
      (holdings net { s with
        buddy := Function.update s.buddy (net.peer msg.src msg.cb) b
        flight := s.flight.eraseIdx k } m p)
      .pageFree .free ((msg.freedOf net m).count p) where
  ne := by simp
  source := by
    simp only [holdings]
    rw [flight_count hk]
  target := by
    simp only [holdings, Function.update_apply, Message.freedOf, hbody]
    by_cases hm : m = net.peer msg.src msg.cb
    · subst hm
      rw [if_pos rfl, if_pos rfl]
      exact hfree p
    · rw [if_neg hm, if_neg fun hc => hm hc.symm]
      rfl
  frame := by
    intro pl h1 h2
    cases pl with
    | pageFree => exact absurd rfl h1
    | free => exact absurd rfl h2
    | pageRply =>
      simp only [holdings]
      rw [flight_count hk (Message.pagesOf m)]
      simp [Message.pagesOf, hbody]
    | used => rfl
    | group j e => rfl
    | entry j e => rfl
    | batch j e => rfl

/-- A page moves between the allocator and the node's own use. -/
theorem holdings_local {r : ι} {b : Buddy} {us : List ℤ} (m : ι) (p : ℤ) (pl : Place ι)
    (h1 : pl ≠ .free) (h2 : pl ≠ .used) :
    holdings net { s with
      buddy := Function.update s.buddy r b
      used := Function.update s.used r us } m p pl = s.holdings net m p pl := by
  cases pl with
  | free => exact absurd rfl h1
  | used => exact absurd rfl h2
  | pageRply => rfl
  | group j e => rfl
  | entry j e => rfl
  | batch j e => rfl
  | pageFree => rfl

/-- The allocator's part of such a move. -/
theorem holdings_free {r : ι} {b : Buddy} {us : List ℤ} (m : ι) (p : ℤ) :
    holdings net { s with
      buddy := Function.update s.buddy r b
      used := Function.update s.used r us } m p .free =
        if m = r then freeCount b p else freeCount (s.buddy m) p := by
  simp only [holdings, Function.update_apply]
  split <;> rfl

/-- The node takes a page of its own for a swap entry. -/
theorem move_moveToCOMEX {r : ι} {b : Buddy} {q : ℤ}
    (hfree : ∀ p, freeCount b p + [q].count p = freeCount (s.buddy r) p) (m : ι) (p : ℤ) :
    Move (s.holdings net m p)
      (holdings net { s with
        buddy := Function.update s.buddy r b
        used := Function.update s.used r (q :: s.used r) } m p)
      .free .used (if m = r then [q].count p else 0) where
  ne := by simp
  source := by
    rw [holdings_free]
    split
    · next hm =>
      rw [hm]
      exact hfree p
    · rfl
  target := by
    simp only [holdings, Function.update_apply]
    by_cases hm : m = r
    · subst hm
      rw [if_pos rfl, if_pos rfl, List.count_cons, List.count_singleton]
    · rw [if_neg hm, if_neg hm]
      rfl
  frame := fun pl h1 h2 => holdings_local m p pl h1 h2

/-- The node frees a page of its own. -/
theorem move_freeLocal {r : ι} {b : Buddy} {q : ℤ} (hq : q ∈ s.used r)
    (hfree : ∀ p, freeCount b p = freeCount (s.buddy r) p + [q].count p) (m : ι) (p : ℤ) :
    Move (s.holdings net m p)
      (holdings net { s with
        buddy := Function.update s.buddy r b
        used := Function.update s.used r ((s.used r).erase q) } m p)
      .used .free (if m = r then [q].count p else 0) where
  ne := by simp
  source := by
    have hcount := (List.perm_cons_erase hq).count_eq p
    rw [List.count_cons] at hcount
    simp only [holdings, Function.update_apply]
    by_cases hm : m = r
    · subst hm
      rw [if_pos rfl, if_pos rfl, List.count_singleton, hcount]
    · rw [if_neg hm, if_neg hm]
      rfl
  target := by
    rw [holdings_free]
    split
    · next hm =>
      rw [hm]
      exact hfree p
    · rfl
  frame := fun pl h1 h2 => holdings_local m p pl h2 h1

end Moves

namespace Inv

variable {net : Network ι} {s s' : Cluster ι}

/-- A step that keeps the parts well formed and moves every page at most once. -/
theorem of_move (h : Inv net s)
    (buddy : ∀ m, (s'.buddy m).Inv ∧ (s'.buddy m).totalPages = net.totalPages m ∧
      (s'.buddy m).failed = [])
    (group : ∀ i d, (s'.group i d).Ok) (batch : ∀ i d, (s'.batch i d).Ok)
    (flight : ∀ msg ∈ s'.flight, ∀ f, msg.body = .pageFree f → f.Ok) {a b : Place ι}
    {n : ι → ℤ → ℕ} (hmove : ∀ m p, Move (s.holdings net m p) (s'.holdings net m p) a b (n m p)) :
    Inv net s' where
  buddy := buddy
  group := group
  batch := batch
  flight := flight
  kept := fun m p h0 h1 => (h.kept m p h0 h1).move (hmove m p)
  absent := fun m p hp => (h.absent m p hp).move (hmove m p)

/-- A page that is somewhere is a page of the node, and it is there once. -/
theorem holdings_pos (h : Inv net s) {m : ι} {p : ℤ} {a : Place ι}
    (hpos : 0 < s.holdings net m p a) :
    0 ≤ p ∧ p < net.totalPages m ∧ s.holdings net m p a = 1 ∧
      ∀ b, b ≠ a → s.holdings net m p b = 0 := by
  by_cases hp : 0 ≤ p ∧ p < net.totalPages m
  · have hkept := h.kept m p hp.1 hp.2
    have h1 : s.holdings net m p a = 1 := by
      have := hkept.le_one a
      omega
    exact ⟨hp.1, hp.2, h1, fun b hb => hkept.eq_zero h1 hb⟩
  · rw [h.absent m p hp a] at hpos
    exact absurd hpos (Nat.lt_irrefl 0)

/-- A page that is somewhere else is not free in its allocator. -/
theorem not_free_of_held (h : Inv net s) {m : ι} {p : ℤ} {a : Place ι} (ha : a ≠ .free)
    (hpos : 0 < s.holdings net m p a) : p.toNat ∉ (s.buddy m).freePages := fun hc => by
  obtain ⟨h0, -, -, hother⟩ := h.holdings_pos hpos
  have hfree : freeCount (s.buddy m) p = 0 := hother .free ha.symm
  exact (freeCount_eq_zero (h.buddy m).1).mp hfree ⟨h0, hc⟩

theorem set₂_all {β : Type} {P : β → Prop} {f : ι → ℤ → β} (hf : ∀ i d, P (f i d)) {b : β}
    (hb : P b) (i : ι) (d : ℤ) : ∀ j e, P (set₂ f i d b j e) := by
  intro j e
  unfold set₂
  split
  · exact hb
  · exact hf j e

omit [DecidableEq ι] in
/-- A message joins those in flight. -/
theorem flight_concat {flight : List (Message ι)} {msg : Message ι}
    (h : ∀ m ∈ flight, ∀ f, m.body = .pageFree f → f.Ok)
    (hmsg : ∀ f, msg.body = .pageFree f → f.Ok) :
    ∀ m ∈ flight ++ [msg], ∀ f, m.body = .pageFree f → f.Ok := by
  intro m hm
  rcases List.mem_append.mp hm with hm | hm
  · exact h m hm
  · rw [List.mem_singleton.mp hm]
    exact hmsg

theorem update_buddy (h : Inv net s) {r : ι} {b : Buddy} (hb : b.Inv)
    (htot : b.totalPages = (s.buddy r).totalPages) (hfail : b.failed = (s.buddy r).failed) :
    ∀ m, (Function.update s.buddy r b m).Inv ∧
      (Function.update s.buddy r b m).totalPages = net.totalPages m ∧
      (Function.update s.buddy r b m).failed = [] := by
  intro m
  obtain ⟨h1, h2, h3⟩ := h.buddy m
  by_cases hm : m = r
  · subst hm
    rw [Function.update_self]
    exact ⟨hb, htot.trans h2, hfail.trans h3⟩
  · rw [Function.update_of_ne hm]
    exact ⟨h1, h2, h3⟩

theorem takePage (h : Inv net s) {i : ι} {d : ℤ} (hs : s.step net (.takePage i d) = some s') :
    Inv net s' := by
  simp only [Cluster.step] at hs
  split at hs
  swap
  · exact absurd hs (by simp)
  obtain ⟨⟨q, g⟩, hget, rfl⟩ := Option.map_eq_some_iff.mp hs
  obtain ⟨hg, hpages⟩ := (h.group i d).freelistGetpage hget
  exact h.of_move h.buddy (set₂_all h.group hg i d) h.batch h.flight (move_takePage hpages)

theorem request (h : Inv net s) {i : ι} {d : ℤ} (hs : s.step net (.request i d) = some s') :
    Inv net s' := by
  obtain ⟨hg, hpages⟩ := (h.group i d).request (net.threshold i)
  rw [← Option.some.inj hs]
  -- a request carries no page, so no place gains or loses one
  have hsame : ∀ m p pl, holdings net { s with
      group := set₂ s.group i d ((s.group i d).request (net.threshold i)).2
      flight := if ((s.group i d).request (net.threshold i)).1 then
        s.flight ++ [⟨i, d, .pageRqst⟩] else s.flight } m p pl = s.holdings net m p pl := by
    intro m p pl
    cases pl with
    | group j e =>
      by_cases hje : j = i ∧ e = d
      · obtain ⟨rfl, rfl⟩ := hje
        simp only [holdings, set₂_self, hpages]
      · simp only [holdings, set₂_of_ne _ _ hje]
    | pageRply =>
      simp only [holdings]
      split <;> simp [Message.pagesOf]
    | pageFree =>
      simp only [holdings]
      split <;> simp [Message.freedOf]
    | free => rfl
    | used => rfl
    | entry j e => rfl
    | batch j e => rfl
  refine ⟨h.buddy, set₂_all h.group hg i d, h.batch, ?_, fun m p h0 h1 => ?_,
    fun m p hp pl => ?_⟩
  · simp only
    split
    · exact flight_concat h.flight fun f hf => absurd hf (by simp)
    · exact h.flight
  · rw [funext (hsame m p)]
    exact h.kept m p h0 h1
  · rw [hsame]
    exact h.absent m p hp pl

theorem freeToRemote (h : Inv net s) {i : ι} {d q : ℤ}
    (hs : s.step net (.freeToRemote i d q) = some s') : Inv net s' := by
  simp only [Cluster.step] at hs
  split at hs
  swap
  · exact absurd hs (by simp)
  next hq =>
  rw [← Option.some.inj hs]
  -- the page belongs to the peer, so it is a page number
  have h0 : 0 ≤ q := by
    have hpos : 0 < s.holdings net (net.peer i d) q (.entry i d) := by
      simp only [holdings, if_true]
      exact List.count_pos_iff.mpr hq
    exact (h.holdings_pos hpos).1
  obtain ⟨hok, hcase⟩ := (h.batch i d).freeToRemote h0
  have hbatch := set₂_all h.batch hok i d
  rcases hcase with ⟨hnone, hperm⟩ | ⟨hfull, hpages⟩
  · -- the batch takes the page in
    have hmove := @move_freeToRemote ι _ net s i d q _ hq hperm
    rw [hnone]
    simp only [Option.toList_none, List.map_nil, List.append_nil]
    exact h.of_move h.buddy h.group hbatch h.flight hmove
  · -- the batch is full and is sent
    have hmove := @move_freeToRemote_full ι _ net s i d q _ hq hpages
    rw [hfull]
    simp only [Option.toList_some, List.map_cons, List.map_nil]
    refine ⟨h.buddy, h.group, hbatch, flight_concat h.flight fun f hf => ?_,
      fun m p h0 h1 => (h.kept m p h0 h1).move₂ (hmove m p),
      fun m p hp => (h.absent m p hp).move₂ (hmove m p)⟩
    rw [← Body.pageFree.inj hf]
    exact h.batch i d

theorem moveToCOMEX (h : Inv net s) {r : ι} (hs : s.step net (.moveToCOMEX r) = some s') :
    Inv net s' := by
  obtain ⟨hb, htot, hfail⟩ := h.buddy r
  simp only [Cluster.step] at hs
  rcases hb.rmqueueSmallest (show 0 < maxOrder by decide) with ⟨hnone, -⟩ | ⟨q, hq, ha⟩
  · rw [hnone] at hs
    simp only [Function.update_eq_self, Option.some.injEq] at hs
    rwa [← hs]
  · cases hr : (s.buddy r).rmqueueSmallest 0 with
    | mk o b =>
      rw [hr] at hq ha hs
      simp only at hq ha
      subst hq
      -- what the allocator finds is a page, so the check behind the call passes
      have hlt : q < b.totalPages := by
        rw [ha.totalPages]
        exact hb.links.lt_of_free (ha.was_free q (Aligned.Block.mem_around 0 q))
      simp only [if_pos hlt, Option.some.injEq] at hs
      rw [← hs]
      refine h.of_move (h.update_buddy ha.inv ha.totalPages ha.failed) h.group h.batch h.flight
        (move_moveToCOMEX fun p => ?_)
      have := freeCount_allocated hb ha p
      rwa [pow_zero, span_one] at this

theorem freeLocal (h : Inv net s) {r : ι} {q : ℤ} (hs : s.step net (.freeLocal r q) = some s') :
    Inv net s' := by
  obtain ⟨hb, htot, hfail⟩ := h.buddy r
  simp only [Cluster.step] at hs
  split at hs
  swap
  · exact absurd hs (by simp)
  next hq =>
  rw [← Option.some.inj hs]
  have hpos : 0 < s.holdings net r q .used := List.count_pos_iff.mpr hq
  obtain ⟨h0, h1, -, -⟩ := h.holdings_pos hpos
  -- a page in use is in no free block, so the free is legal
  have hout := h.not_free_of_held (by simp) hpos
  have hcan : Buddy.CanFree (s.buddy r) q.toNat 0 := by
    refine ⟨by decide, by simp, by rw [htot]; simp only [pow_zero]; omega, fun i hi => ?_⟩
    obtain rfl : i = 0 := by simpa using hi
    have hlt : q.toNat < (s.buddy r).totalPages := by omega
    exact (hb.ctr_eq _ hlt).resolve_left fun hc => hout ((hb.free_iff _ hlt).mp hc)
  have hf := hb.freePage hcan
  have hret : Buddy.Returned (s.buddy r) {x : ℕ | (x : ℤ) ∈ [q]}
      ((s.buddy r).freePage q.toNat 0) := by
    refine ⟨hf.inv, fun x => ?_, hf.totalPages, hf.failed⟩
    rw [hf.freePages, Buddy.mem_around_iff (by simp)]
    simp only [Set.mem_ofPred_eq, List.mem_singleton, pow_zero]
    constructor <;> exact Or.imp id fun hx => by omega
  refine h.of_move (h.update_buddy hf.inv hf.totalPages hf.failed) h.group h.batch h.flight
    (move_freeLocal hq fun p => freeCount_returned hb hret (List.nodup_singleton q) ?_ p)
  intro x hx
  rw [List.mem_singleton.mp hx]
  exact ⟨h0, hout⟩

theorem flight_erase (h : Inv net s) (k : ℕ) :
    ∀ msg ∈ s.flight.eraseIdx k, ∀ f, msg.body = .pageFree f → f.Ok := fun msg hmsg =>
  h.flight msg (List.mem_of_mem_eraseIdx hmsg)

/-- A `PAGE_RQST` is answered. -/
theorem pageRqst (h : Inv net s) {k : ℕ} {msg : Message ι} (hk : s.flight[k]? = some msg)
    (hbody : msg.body = .pageRqst) :
    Inv net (process net { s with flight := s.flight.eraseIdx k } msg) := by
  have hreq := (h.buddy (net.peer msg.src msg.cb)).1.pagesRequest
    (net.refill (net.peer msg.src msg.cb))
  simp only [process, hbody]
  refine h.of_move ?_ h.group h.batch
    (flight_concat (h.flight_erase k) fun f hf => absurd hf (by simp))
    (move_pagesRequest hk hbody (fun m => rfl) (fun m hm => ?_) fun p => ?_)
  · rcases hreq with ⟨-, hsame⟩ | ⟨q, -, ha⟩
    · rw [hsame, Function.update_eq_self]
      exact h.buddy
    · exact h.update_buddy ha.inv ha.totalPages ha.failed
  · simp only [Message.pagesOf]
    exact if_neg fun hc => hm hc.1.symm
  · rcases hreq with ⟨hno, hsame⟩ | ⟨q, hq, ha⟩
    · simp only [Message.pagesOf, hno, hsame]
      simp
    · simp only [Message.pagesOf, hq, true_and, Int.natCast_nonneg, if_true]
      exact freeCount_allocated (h.buddy _).1 ha p

/-- A `PAGE_RPLY` is taken into a free list. -/
theorem pageRply (h : Inv net s) {k : ℕ} {msg : Message ι} (hk : s.flight[k]? = some msg)
    {pageNO : ℤ} {size : ℕ} (hbody : msg.body = .pageRply pageNO size) :
    Inv net (process net { s with flight := s.flight.eraseIdx k } msg) := by
  obtain ⟨hg, hpages⟩ := (h.group (net.peer msg.src msg.cb)
    (net.idToCB (net.peer msg.src msg.cb) msg.src)).pageReceive
    (net.refill (net.peer msg.src msg.cb)) pageNO size
  simp only [process, hbody]
  exact h.of_move h.buddy (set₂_all h.group hg _ _) h.batch (h.flight_erase k)
    (move_pageReceive hk hbody (net.back msg.src msg.cb) hpages)

/-- The pages of a `PAGE_FREE` are pages of the node, in flight once and not free. -/
theorem pageFree_held (h : Inv net s) {k : ℕ} {msg : Message ι} (hk : s.flight[k]? = some msg)
    {f : FreeStruct} (hbody : msg.body = .pageFree f) : f.pages.Nodup ∧ ∀ q ∈ f.pages,
      0 ≤ q ∧ q < net.totalPages (net.peer msg.src msg.cb) ∧
        q.toNat ∉ (s.buddy (net.peer msg.src msg.cb)).freePages := by
  have hcount : ∀ q, f.pages.count q ≤ s.holdings net (net.peer msg.src msg.cb) q .pageFree := by
    intro q
    simp only [holdings]
    rw [flight_count hk]
    simp only [Message.freedOf, hbody, if_true]
    exact Nat.le_add_left _ _
  have hpos : ∀ q ∈ f.pages, 0 < s.holdings net (net.peer msg.src msg.cb) q .pageFree :=
    fun q hq => Nat.lt_of_lt_of_le (List.count_pos_iff.mpr hq) (hcount q)
  refine ⟨List.nodup_iff_count_le_one.mpr fun q => ?_, fun q hq => ?_⟩
  · by_cases hq : q ∈ f.pages
    · rw [← (h.holdings_pos (hpos q hq)).2.2.1]
      exact hcount q
    · rw [List.count_eq_zero_of_not_mem hq]
      exact Nat.zero_le 1
  · obtain ⟨h0, h1, -, -⟩ := h.holdings_pos (hpos q hq)
    exact ⟨h0, h1, h.not_free_of_held (by simp) (hpos q hq)⟩

/-- The pages of a `PAGE_FREE` are freed: the ledger has them in the message and nowhere else, so
each free is legal, and none of them twice. -/
theorem pageFree (h : Inv net s) {k : ℕ} {msg : Message ι} (hk : s.flight[k]? = some msg)
    {f : FreeStruct} (hbody : msg.body = .pageFree f) :
    Inv net (process net { s with flight := s.flight.eraseIdx k } msg) := by
  obtain ⟨hb, htot, -⟩ := h.buddy (net.peer msg.src msg.cb)
  obtain ⟨hnodup, hheld⟩ := h.pageFree_held hk hbody
  have hret := hb.freeBatch (h.flight msg (List.mem_of_getElem? hk) f hbody) hnodup fun q hq =>
    ⟨by rw [htot]; exact (hheld q hq).2.1, (hheld q hq).2.2⟩
  simp only [process, hbody]
  exact h.of_move (h.update_buddy hret.inv hret.totalPages hret.failed) h.group h.batch
    (h.flight_erase k) (move_freeBatch hk hbody fun p =>
      freeCount_returned hb hret hnodup (fun q hq => ⟨(hheld q hq).1, (hheld q hq).2.2⟩) p)

theorem doWork (h : Inv net s) {k : ℕ} (hs : s.step net (.doWork k) = some s') : Inv net s' := by
  obtain ⟨msg, hk, rfl⟩ := Option.map_eq_some_iff.mp hs
  cases hbody : msg.body with
  | pageRqst => exact h.pageRqst hk hbody
  | pageRply pageNO size => exact h.pageRply hk hbody
  | pageFree f => exact h.pageFree hk hbody

/-- **Every step keeps every page.** -/
theorem step (h : Inv net s) {a : ClusterStep ι} (hs : s.step net a = some s') : Inv net s' := by
  cases a with
  | request i d => exact h.request hs
  | takePage i d => exact h.takePage hs
  | freeToRemote i d p => exact h.freeToRemote hs
  | doWork k => exact h.doWork hs
  | moveToCOMEX m => exact h.moveToCOMEX hs
  | freeLocal m p => exact h.freeLocal hs

/-- At the start every page is free or used where it belongs: its counter says which, and every
other place is empty. -/
theorem start (h : Start net s) : Inv net s := by
  have hb := fun m => Buddy.reach_inv (h.buddy m)
  have hzero : ∀ m p pl, pl ≠ .free → pl ≠ .used → s.holdings net m p pl = 0 := by
    intro m p pl h1 h2
    cases pl with
    | free => exact absurd rfl h1
    | used => exact absurd rfl h2
    | pageRply => simp [holdings, h.flight]
    | group i d => simp [holdings, h.group, FreeGroup.init, FreeGroup.pages]
    | entry i d => simp [holdings, h.entries]
    | batch i d => simp [holdings, h.batch]
    | pageFree => simp [holdings, h.flight]
  refine ⟨hb, fun i d => ?_, fun i d => ?_, fun msg hmsg => ?_, fun m p h0 h1 => ?_,
    fun m p hp pl => ?_⟩
  · rw [h.group]
    exact FreeGroup.Ok.init
  · rw [h.batch]
    exact FreeStruct.Ok.clean
  · rw [h.flight] at hmsg
    exact absurd hmsg (by simp)
  · obtain ⟨hinv, htot, -⟩ := hb m
    rcases hinv.ctr_eq p.toNat (by omega) with hc | hc
    · refine ⟨.free, ?_, fun pl hpl => ?_⟩
      · simp only [holdings, freeCount]
        exact if_pos ⟨h0, by omega, hc⟩
      · by_cases hu : pl = .used
        · subst hu
          simp only [holdings, h.used, hc]
          simp
        · exact hzero m p pl hpl hu
    · refine ⟨.used, ?_, fun pl hpl => ?_⟩
      · simp only [holdings, h.used]
        exact if_pos ⟨h0, h1, hc⟩
      · by_cases hu : pl = .free
        · subst hu
          simp only [holdings, freeCount, hc]
          simp
        · exact hzero m p pl hu hpl
  · obtain ⟨-, htot, -⟩ := hb m
    cases pl with
    | free =>
      simp only [holdings, freeCount, htot]
      exact if_neg fun hc => hp ⟨hc.1, hc.2.1⟩
    | used =>
      simp only [holdings, h.used]
      exact if_neg fun hc => hp ⟨hc.1, hc.2.1⟩
    | pageRply => exact hzero m p _ (by simp) (by simp)
    | group i d => exact hzero m p _ (by simp) (by simp)
    | entry i d => exact hzero m p _ (by simp) (by simp)
    | batch i d => exact hzero m p _ (by simp) (by simp)
    | pageFree => exact hzero m p _ (by simp) (by simp)

end Inv

theorem reach_inv {net : Network ι} {s : Cluster ι} (h : Reach net s) : Inv net s :=
  h.invariant (I := Inv net) (fun _ => Inv.start) fun _ _ _ _ hinv _ hs => hinv.step hs

/-- **Page ownership is conserved across nodes**: in every reachable state every page of
every node is in exactly one place, once, and no counter check has failed. -/
theorem reach_kept {net : Network ι} {s : Cluster ι} (h : Reach net s) :
    (∀ (m : ι) (p : ℤ), 0 ≤ p → p < net.totalPages m → Kept (s.holdings net m p)) ∧
      (∀ (m : ι) (p : ℤ), ¬ (0 ≤ p ∧ p < net.totalPages m) → Absent (s.holdings net m p)) ∧
      ∀ m, (s.buddy m).failed = [] :=
  ⟨(reach_inv h).kept, (reach_inv h).absent, fun m => ((reach_inv h).buddy m).2.2⟩

/-- Two nodes with one connection each way. -/
def twoNodes : Network Bool where
  peer i _ := !i
  idToCB _ _ := 0
  back i _ := Bool.not_not i
  totalPages _ := 4
  refill _ := 0
  threshold _ := 0

/-- The two nodes with every page in use. -/
def twoNodesStart : Cluster Bool where
  buddy _ := .initEmpty 4
  used _ := span 0 4
  group _ _ := .init
  entries _ _ := []
  batch _ _ := .clean
  flight := []

theorem start_twoNodesStart : Start twoNodes twoNodesStart where
  buddy _ := .start rfl
  used m p := by simp [twoNodesStart, twoNodes, Buddy.initEmpty, count_span]
  group _ _ := rfl
  entries _ _ := rfl
  batch _ _ := rfl
  flight := rfl

/-- Page 0 of one node freed there, borrowed by the other and named by a swap entry. -/
theorem reach_kept_lent : ∃ s : Cluster Bool, Reach twoNodes s ∧ s.entries false 0 = [0] ∧
    s.flight = [] ∧ Kept (s.holdings twoNodes true 0) := by
  have hstart : Start twoNodes twoNodesStart :=
    { buddy := fun _ => .start rfl
      used := by
        intro m p
        simp [twoNodesStart, twoNodes, Buddy.initEmpty, count_span]
      group := fun _ _ => rfl
      entries := fun _ _ => rfl
      batch := fun _ _ => rfl
      flight := rfl }
  obtain ⟨s, hexec, hentry, hflight⟩ : ∃ s, Machine.exec Machine.free (step twoNodes) twoNodesStart
      [.freeLocal true 0, .request false 0, .doWork 0, .doWork 0, .takePage false 0] = some s ∧
      s.entries false 0 = [0] ∧ s.flight = [] := ⟨_, rfl, by decide, by decide⟩
  have hs : Reach twoNodes s :=
    Machine.Reach.of_exec (M := machine twoNodes) (fun _ _ _ h => h) (.start hstart) hexec
  exact ⟨s, hs, hentry, hflight, (reach_kept hs).1 true 0 (by decide) (by decide)⟩

end Cluster
end Comex
