import Comex.Lib.Locks
import Comex.Remote.FreeList
import Comex.Remote.Search

/-!
# The mutexes of the free lists

`COMEX_move_to_Remote` and `COMEX_page_receive` work on the list of a memory node
under its `mutex_FG`.  Where the list turns out to have no page, the first of them moves
on to the next node before it unlocks; where there is no memory for a group, the
second returns without unlocking.

## Main definitions

* `Met` — what a call meets at a probe: the work of other threads, the outcomes of
  `mutex_trylock` and of `COMEX_freelist_getpage`.
* `moveLocks`, `receiveLocks` — the two functions with the log of their locks.
* `emptyAt` — the nodes whose list had no page after all.

## Main results

* `locks_balanced_iff` — **which outcomes leave the locks balanced.**
* `alone_eq`, `alone_balanced` — a call that meets no other thread is `probe`, and
  among the balanced.
-/

namespace Comex
namespace Node

open Locks (Event Owned Balanced)

variable {α : Type} {cfg : Config} {a : α} {s : Node α}

/-! ### The two functions -/

/-- What a call of `COMEX_move_to_Remote` meets at a probe. -/
structure Met (α : Type) where
  /-- What other threads have made of the node since the last probe. -/
  others : Node α → Node α
  /-- `mutex_trylock`. -/
  trylock : Bool
  /-- `COMEX_freelist_getpage`: the value returned and the list it leaves. -/
  getpage : FreeGroup → ℤ × FreeGroup

/-- `COMEX_move_to_Remote` once it has a page: from the slot at the tail to the return. -/
def storeAt (cfg : Config) (s : Node α) (d : ℤ) (a : α) (pageNO : ℤ) : Node α :=
  let slot := (s.ring d).tail
  let s := s.setRing d ((s.ring d).reserve cfg.totalWriteOut)
  let s := s.voidPreFetch cfg d pageNO
  let s := { s with
    space := Function.update s.space (getWriteOutBuff cfg.totalWriteOut d slot) a }
  let s := s.setRing d ((s.ring d).fill slot d pageNO)
  let latest := Function.update (s.latest d) pageNO (some a)
  let s := { s with latest := Function.update s.latest d latest }
  if slot % 32 = 0 ∧ slot ≠ 0 then s.flushBuff cfg d else s

/-- The probes of `COMEX_move_to_Remote` from node `dest` on, `n` of them left: the log of
its locks, the state, and the node and page of the copy where there is one. -/
def probeLocks (cfg : Config) (met : ℕ → Met α) (a : α) :
    ℕ → ℤ → Node α → List (Event ℤ) × Node α × Option (ℤ × ℤ)
  | 0, _, s => ([], s, none)
  | n + 1, dest, s =>
    let s := (met n).others s
    if (met n).trylock then
      let s := s.look cfg dest
      if s.CanStore dest then
        let got := (met n).getpage (s.group dest)
        let s := s.setGroup dest got.2
        if got.1 = -1 then
          -- `dest_node` is hashed first, and the mutex of the new one unlocked
          let r := probeLocks cfg met a n (hash cfg dest) s
          (.lock dest :: .unlock (hash cfg dest) :: r.1, r.2)
        else ([.lock dest, .unlock dest], s.storeAt cfg dest a got.1, some (dest, got.1))
      else
        let r := probeLocks cfg met a n (hash cfg dest) s
        (.lock dest :: .unlock dest :: r.1, r.2)
    else ([], s, none)

/-- `COMEX_move_to_Remote` of a page with content `a` of process `pid`. -/
def moveLocks (cfg : Config) (s : Node α) (pid : ℤ) (met : ℕ → Met α) (a : α) :
    List (Event ℤ) × Node α × Option (ℤ × ℤ) :=
  probeLocks cfg met a cfg.nMemNodes (hash cfg pid) s

/-- `COMEX_page_receive`; `kzalloc` tells whether there is memory for the group. -/
def receiveLocks (cfg : Config) (s : Node α) (nodeID pageNO : ℤ) (groupSize : ℕ)
    (kzalloc : Bool) : List (Event ℤ) × Node α :=
  if 0 ≤ pageNO ∧ kzalloc = false then ([.lock nodeID], s)
  else ([.lock nodeID, .unlock nodeID], s.pageReceive cfg nodeID pageNO groupSize)

/-- The nodes at which `COMEX_freelist_getpage` returned -1. -/
def emptyAt (cfg : Config) (met : ℕ → Met α) : ℕ → ℤ → Node α → List ℤ
  | 0, _, _ => []
  | n + 1, dest, s =>
    let s := (met n).others s
    if (met n).trylock then
      let s := s.look cfg dest
      if s.CanStore dest then
        let got := (met n).getpage (s.group dest)
        if got.1 = -1 then dest :: emptyAt cfg met n (hash cfg dest) (s.setGroup dest got.2)
        else []
      else emptyAt cfg met n (hash cfg dest) s
    else []

/-! ### Balance -/

section Balance

variable {met : ℕ → Met α}

/-- Where the hash stays at the nodes that had no page, every mutex locked is unlocked. -/
theorem probeLocks_balanced {n : ℕ} : ∀ {dest : ℤ} {s : Node α},
    (∀ v ∈ emptyAt cfg met n dest s, hash cfg v = v) →
      Balanced (probeLocks cfg met a n dest s).1 := by
  induction n with
  | zero => exact fun _ => Locks.balanced_nil
  | succ n ih =>
    intro dest s hstay
    unfold emptyAt at hstay
    unfold probeLocks
    by_cases htry : (met n).trylock
    swap
    · simp only [if_neg htry]
      exact Locks.balanced_nil
    simp only [if_pos htry] at hstay ⊢
    split
    · next hstore =>
      simp only [if_pos hstore] at hstay
      split
      · next hnone =>
        rw [if_pos hnone] at hstay
        -- the next node is this one
        obtain ⟨hdest, hrest⟩ := List.forall_mem_cons.mp hstay
        simp only [hdest]
        exact (ih (by rwa [hdest] at hrest)).section
      · exact Locks.balanced_nil.section
    · next hstore =>
      simp only [if_neg hstore] at hstay
      exact (ih hstay).section

/-- The first mutex unlocked at a node that had no page is the only one held, so a run whose
unlocks all hit a mutex that is held has `COMEX_hash` go from each such node to itself. -/
theorem hash_of_owned {n : ℕ} : ∀ {dest : ℤ} {s : Node α},
    Owned ∅ (probeLocks cfg met a n dest s).1 → ∀ v ∈ emptyAt cfg met n dest s, hash cfg v = v := by
  induction n with
  | zero => exact fun _ v hv => absurd hv List.not_mem_nil
  | succ n ih =>
    intro dest s hown
    unfold probeLocks at hown
    unfold emptyAt
    by_cases htry : (met n).trylock
    swap
    · simp only [if_neg htry]
      exact fun v hv => absurd hv List.not_mem_nil
    simp only [if_pos htry] at hown ⊢
    split
    · next hstore =>
      simp only [if_pos hstore] at hown
      split
      · next hnone =>
        simp only [if_pos hnone] at hown
        have hdest := Locks.eq_of_owned hown
        rw [hdest, Locks.owned_section] at hown
        rw [hdest]
        exact List.forall_mem_cons.mpr ⟨hdest, ih hown⟩
      · exact fun v hv => absurd hv List.not_mem_nil
    · next hstore =>
      simp only [if_neg hstore] at hown
      exact ih (Locks.owned_section.mp hown)

end Balance

/-- **Which calls leave the locks balanced**: those of `COMEX_move_to_Remote` in which the
hash stays at every node whose list had no page, and those of `COMEX_page_receive` in which a
block finds memory. -/
theorem locks_balanced_iff (cfg : Config) (s : Node α) (pid : ℤ) (met : ℕ → Met α) (a : α)
    (nodeID pageNO : ℤ) (groupSize : ℕ) (kzalloc : Bool) :
    (Balanced (moveLocks cfg s pid met a).1 ↔
      ∀ v ∈ emptyAt cfg met cfg.nMemNodes (hash cfg pid) s, hash cfg v = v) ∧
    (Balanced (receiveLocks cfg s nodeID pageNO groupSize kzalloc).1 ↔
      ¬ (0 ≤ pageNO ∧ kzalloc = false)) := by
  refine ⟨⟨fun h => hash_of_owned h.owned, probeLocks_balanced⟩, ?_⟩
  unfold receiveLocks
  split
  · next hnull => exact iff_of_false Locks.not_balanced_lock (fun h => h hnull)
  · next hmem => exact iff_of_true Locks.balanced_nil.section hmem

/-- Two memory nodes, the first of which has lent a page. -/
def twoNodes : Config where
  comexID := 1
  totalNodes := 2
  nMemNodes := 2
  totalWriteOut := 2
  totalReadIn := 16
  threshold := 0
  refill := 10

/-- A list without a page moves the search from node 0 to node 1, whose mutex is not held;
without memory for a group the mutex of node 0 stays locked. -/
theorem not_balanced :
    (¬ ∀ (cfg : Config) (s : Node ℕ) (pid : ℤ) (met : ℕ → Met ℕ) (a : ℕ),
      Balanced (moveLocks cfg s pid met a).1) ∧
    ¬ ∀ (cfg : Config) (s : Node ℕ) (nodeID pageNO : ℤ) (groupSize : ℕ) (kzalloc : Bool),
      Balanced (receiveLocks cfg s nodeID pageNO groupSize kzalloc).1 := by
  constructor
  · intro h
    have hown := (h twoNodes ((init (fun _ => 0) fun _ _ => 0).pageReceive twoNodes 0 0 0) 1
      (fun _ => ⟨id, true, fun g => (-1, g)⟩) 7).owned
    have hstay := hash_of_owned hown 0 (by decide)
    exact absurd hstay (by decide)
  · intro h
    exact Locks.not_balanced_lock (h twoNodes (init (fun _ => 0) fun _ _ => 0) 0 0 0 false)

/-! ### A thread alone -/

section Alone

/-- No other thread, and the list as it is. -/
def Met.alone : Met α where
  others := id
  trylock := true
  getpage g := g.freelistGetpage.getD (-1, g)

/-- A list that has a page hands out a page number. -/
theorem exists_getpage {d : ℤ} (hok : (s.group d).Ok) (hstore : s.CanStore d) :
    ∃ p g, (s.group d).freelistGetpage = some (p, g) ∧ p ≠ -1 := by
  have htotal := hok.total
  have hpos := hstore.1
  cases hget : (s.group d).freelistGetpage with
  | none =>
    unfold FreeGroup.freelistGetpage at hget
    cases hgroups : (s.group d).groups with
    | nil =>
      rw [FreeGroup.pages, hgroups] at htotal
      simp only [List.flatMap_nil, List.length_nil] at htotal
      omega
    | cons x rest => simp [hgroups] at hget
  | some r =>
    obtain ⟨p, g⟩ := r
    refine ⟨p, g, rfl, ?_⟩
    have hmem : p ∈ (s.group d).pages := by
      rw [(hok.freelistGetpage hget).2]
      exact List.mem_cons_self
    obtain ⟨x, hx, hpx⟩ := hok.mem_pages.mp hmem
    have hx0 := hok.group x hx
    omega

theorem look_ok (cfg : Config) (hok : ∀ d, (s.group d).Ok) (v d : ℤ) :
    ((s.look cfg v).group d).Ok := by
  have hset : ((s.setGroup v ((s.group v).request cfg.threshold).2).group d).Ok := by
    rw [setGroup_group]
    split
    · exact ((hok v).request cfg.threshold).1
    · exact hok d
  unfold look
  simp only
  split
  · rw [flushBuff_group]
    exact hset
  · exact hset

theorem emptyAt_alone (n : ℕ) (dest : ℤ) (s : Node α) :
    emptyAt cfg (fun _ => Met.alone) (n + 1) dest s =
      let s := s.look cfg dest
      if s.CanStore dest then
        let got := (s.group dest).freelistGetpage.getD (-1, s.group dest)
        if got.1 = -1 then
          dest :: emptyAt cfg (fun _ => .alone) n (hash cfg dest) (s.setGroup dest got.2)
        else []
      else emptyAt cfg (fun _ => .alone) n (hash cfg dest) s := rfl

theorem probeLocks_alone (n : ℕ) (dest : ℤ) (s : Node α) :
    probeLocks cfg (fun _ => Met.alone) a (n + 1) dest s =
      let s := s.look cfg dest
      if s.CanStore dest then
        let got := (s.group dest).freelistGetpage.getD (-1, s.group dest)
        let s := s.setGroup dest got.2
        if got.1 = -1 then
          let r := probeLocks cfg (fun _ => .alone) a n (hash cfg dest) s
          (.lock dest :: .unlock (hash cfg dest) :: r.1, r.2)
        else ([.lock dest, .unlock dest], s.storeAt cfg dest a got.1, some (dest, got.1))
      else
        let r := probeLocks cfg (fun _ => .alone) a n (hash cfg dest) s
        (.lock dest :: .unlock dest :: r.1, r.2) := rfl

/-- No list turns out to have no page. -/
theorem alone_emptyAt {n : ℕ} : ∀ {dest : ℤ} {s : Node α}, (∀ d, (s.group d).Ok) →
    emptyAt cfg (fun _ => Met.alone) n dest s = [] := by
  induction n with
  | zero => exact fun _ => rfl
  | succ n ih =>
    intro dest s hok
    have hlook := look_ok cfg hok dest
    rw [emptyAt_alone]
    simp only
    split
    · next hstore =>
      obtain ⟨p, g, hget, hp⟩ := exists_getpage (hlook dest) hstore
      simp only [hget, Option.getD_some, if_neg hp]
    · exact ih hlook

/-- A call that meets no other thread leaves the locks balanced. -/
theorem alone_balanced (hok : ∀ d, (s.group d).Ok) (pid : ℤ) :
    Balanced (moveLocks cfg s pid (fun _ => .alone) a).1 := by
  apply probeLocks_balanced
  rw [alone_emptyAt hok]
  exact fun v hv => absurd hv List.not_mem_nil

theorem storePage_map (d : ℤ) :
    ((s.storePage cfg d a).map fun (s, pageNO, slot) =>
      (if slot % 32 = 0 ∧ slot ≠ 0 then s.flushBuff cfg d else s, some (d, pageNO))) =
    (s.group d).freelistGetpage.map fun (p, g) =>
      ((s.setGroup d g).storeAt cfg d a p, some (d, p)) := by
  unfold storePage
  rw [Option.map_map]
  rfl

/-- **A call that meets no other thread does what `probe` says.** -/
theorem alone_eq {n : ℕ} : ∀ {dest : ℤ} {s : Node α} {r : Node α × Option (ℤ × ℤ)},
    (∀ d, (s.group d).Ok) → probe cfg a n dest s = some r →
      (probeLocks cfg (fun _ => .alone) a n dest s).2 = r := by
  induction n with
  | zero => exact fun _ h => Option.some.inj h
  | succ n ih =>
    intro dest s r hok hprobe
    have hlook := look_ok cfg hok dest
    rw [probe_succ] at hprobe
    split at hprobe
    swap
    · cases hprobe
    rw [probeLocks_alone]
    split at hprobe
    · next hstore =>
      obtain ⟨p, g, hget, hp⟩ := exists_getpage (hlook dest) hstore
      rw [storePage_map, hget] at hprobe
      simp only [if_pos hstore, hget, Option.getD_some, if_neg hp]
      exact Option.some.inj hprobe
    · next hstore =>
      simp only [if_neg hstore]
      exact ih hlook hprobe

end Alone

end Node
end Comex
