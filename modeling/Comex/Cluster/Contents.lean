import Comex.Cluster.Layout
import Comex.Cluster.Ownership
import Comex.Lib.Region

/-!
# What is in the cluster's memory

The RDMA space of every node, byte by byte: `COMEX_move_to_COMEX` copies a page to
where the node finds it, `COMEX_move_to_Remote` into a write-out slot, `PAGE_WRTE` and
`PAGE_READ` copy between a slot and where a peer finds a page.  Beside it stands what
this memory is for, a store with one cell for every slot and every swap entry.  No two
cells share a byte, since the layout is sound and every page is named by one swap entry,
so the memory holds the contents of the store.

## Main definitions

* `Cell` — a slot, or the page of a swap entry.
* `Contents`, `ContentsStep` — the cluster, its memory and the store.
* `Lawful` — a `PAGE_WRTE` is for pages of swap entries.

## Main results

* `eq_of_object` — two cells at one place are one.
* `reach_holds` — **the memory holds what was stored last in every cell.**
* `reach_isolated` — **what other nodes do changes none of it.**
-/

namespace Comex

open Layout (Options Object pageSize getWriteOutBuff getReadInBuff localAddr remoteAddr)
open Ledger

/-- What has a place in the space of some node and a content of its own. -/
inductive Cell (ι : Type)
  /-- `COMEX_writeOut_buff[nodeID][slot]` of node `i`. -/
  | writeOut (i : ι) (nodeID slot : ℕ)
  /-- `COMEX_readIn_buff[slot]` of node `i`. -/
  | readIn (i : ι) (slot : ℕ)
  /-- The page of a swap entry of type 9 on node `m`. -/
  | own (m : ι) (p : ℕ)
  /-- The page of a swap entry of type 8 on node `i`. -/
  | lent (i : ι) (nodeID p : ℕ)
  deriving DecidableEq

namespace Cell

variable {ι : Type}

/-- The node in whose space a cell is. -/
def home (net : Network ι) : Cell ι → ι
  | .writeOut i _ _ => i
  | .readIn i _ => i
  | .own m _ => m
  | .lent i nodeID _ => net.peer i nodeID

/-- The node whose slot or swap entry it is. -/
def owner : Cell ι → ι
  | .writeOut i _ _ => i
  | .readIn i _ => i
  | .own m _ => m
  | .lent i _ _ => i

/-- What a cell is there. -/
def object : Cell ι → Object
  | .writeOut _ nodeID slot => .writeOut nodeID slot
  | .readIn _ slot => .readIn slot
  | .own _ p => .page p
  | .lent _ _ p => .page p

/-- Where it is accessed. -/
def addr (opt : Options) : Cell ι → Option ℕ
  | .writeOut _ nodeID slot => getWriteOutBuff opt nodeID slot
  | .readIn _ slot => getReadInBuff opt slot
  | .own _ p => localAddr opt p
  | .lent _ _ p => remoteAddr opt p

/-- The cells there are in a state of the cluster. -/
def Held (opt : Options) (c : Cluster ι) : Cell ι → Prop
  | .writeOut _ nodeID slot => nodeID < opt.nodes ∧ slot < opt.writeOut
  | .readIn _ slot => slot < opt.readIn
  | .own m p => (p : ℤ) ∈ c.used m
  | .lent i nodeID p => (p : ℤ) ∈ c.entries i nodeID

instance (opt : Options) (c : Cluster ι) : (x : Cell ι) → Decidable (x.Held opt c)
  | .writeOut _ nodeID slot =>
    inferInstanceAs (Decidable (nodeID < opt.nodes ∧ slot < opt.writeOut))
  | .readIn _ slot => inferInstanceAs (Decidable (slot < opt.readIn))
  | .own m p => inferInstanceAs (Decidable ((p : ℤ) ∈ c.used m))
  | .lent i nodeID p => inferInstanceAs (Decidable ((p : ℤ) ∈ c.entries i nodeID))

end Cell

/-- A cluster with its memory; `β` is the content of a byte. -/
structure Contents (ι β : Type) where
  cluster : Cluster ι
  /-- The RDMA spaces, by byte. -/
  space : ι → ℕ → β
  /-- What the memory is for: the contents of the cells, as far as they were stored. -/
  store : Cell ι → Option (ℕ → β)

/-- A step that is one of the cluster, or copies pages. -/
inductive ContentsStep (ι β : Type)
  | act (a : ClusterStep ι)
  /-- `COMEX_move_to_COMEX` of a page with content `page`. -/
  | moveToCOMEX (m : ι) (page : ℕ → β)
  /-- `COMEX_move_to_Remote` copies a page into a slot. -/
  | fill (i : ι) (nodeID slot : ℕ) (page : ℕ → β)
  /-- A `PAGE_WRTE` of `size` pages takes effect. -/
  | pageWrte (i : ι) (nodeID slot pageNO size : ℕ)
  /-- A `PAGE_READ` of `size` pages takes effect. -/
  | pageRead (i : ι) (nodeID slot pageNO size : ℕ)

/-- The node that takes a step; processing a message counts for none. -/
def ClusterStep.actor {ι : Type} : ClusterStep ι → Option ι
  | .request i _ => some i
  | .takePage i _ => some i
  | .freeToRemote i _ _ => some i
  | .doWork _ => none
  | .moveToCOMEX m => some m
  | .freeLocal m _ => some m

/-- The node that takes a step. -/
def ContentsStep.actor {ι β : Type} : ContentsStep ι β → Option ι
  | .act a => a.actor
  | .moveToCOMEX m _ => some m
  | .fill i _ _ _ => some i
  | .pageWrte i _ _ _ _ => some i
  | .pageRead i _ _ _ _ => some i

namespace Contents

variable {ι β : Type} [DecidableEq ι]

/-- The store with the contents of `n` cells replaced. -/
def assign (store : Cell ι → Option (ℕ → β)) (n : ℕ) (cells : ℕ → Cell ι)
    (contents : ℕ → Option (ℕ → β)) : Cell ι → Option (ℕ → β) := fun x =>
  match (List.range n).find? fun k => cells k = x with
  | some k => contents k
  | none => store x

/-- The cluster moves on; the cells that are gone are forgotten. -/
def enter (opt : Options) (s : Contents ι β) (c : Cluster ι) : Contents ι β :=
  { s with
    cluster := c
    store := fun x => if x.Held opt c then s.store x else none }

/-- `n` pages are copied to address `a` of node `m`, where `cells` are. -/
def write (s : Contents ι β) (m : ι) (a n : ℕ) (bytes : ℕ → β) (cells : ℕ → Cell ι)
    (contents : ℕ → Option (ℕ → β)) : Contents ι β :=
  { s with
    space := Function.update s.space m (Region.copy (s.space m) a (n * pageSize) bytes)
    store := assign s.store n cells contents }

/-- One step, if it is enabled. -/
def step (net : Network ι) (opt : Options) (s : Contents ι β) :
    ContentsStep ι β → Option (Contents ι β)
  | .act (.moveToCOMEX _) => none
  | .act a => (s.cluster.step net a).map (s.enter opt)
  | .moveToCOMEX m page => (s.cluster.step net (.moveToCOMEX m)).bind fun c =>
    match ((s.cluster.buddy m).rmqueueSmallest 0).1 with
    | none => some (s.enter opt c)
    | some q =>
      if q < (c.buddy m).totalPages then
        (localAddr opt q).map fun a =>
          (s.enter opt c).write m a 1 page (fun _ => .own m q) fun _ => some page
      else some (s.enter opt c)
  | .fill i nodeID slot page =>
    if nodeID < opt.nodes ∧ slot < opt.writeOut then
      (getWriteOutBuff opt nodeID slot).map fun a =>
        s.write i a 1 page (fun _ => .writeOut i nodeID slot) fun _ => some page
    else none
  | .pageWrte i nodeID slot pageNO size =>
    if nodeID < opt.nodes ∧ slot + size ≤ opt.writeOut then
      (getWriteOutBuff opt nodeID slot).bind fun src => (remoteAddr opt pageNO).map fun dst =>
        s.write (net.peer i nodeID) dst size (fun x => s.space i (src + x))
          (fun k => .lent i nodeID (pageNO + k)) fun k => s.store (.writeOut i nodeID (slot + k))
    else none
  | .pageRead i nodeID slot pageNO size =>
    if slot + size ≤ opt.readIn then
      (getReadInBuff opt slot).bind fun dst => (remoteAddr opt pageNO).map fun src =>
        s.write i dst size (fun x => s.space (net.peer i nodeID) (src + x))
          (fun k => .readIn i (slot + k)) fun k => s.store (.lent i nodeID (pageNO + k))
    else none

omit [DecidableEq ι] in
/-- A `PAGE_WRTE` takes effect while its pages are named by swap entries. -/
def Lawful (s : Contents ι β) : ContentsStep ι β → Prop
  | .pageWrte i nodeID _ pageNO size =>
    ∀ k < size, ((pageNO + k : ℕ) : ℤ) ∈ s.cluster.entries i nodeID
  | _ => True

instance (s : Contents ι β) : (a : ContentsStep ι β) → Decidable (s.Lawful a)
  | .pageWrte i nodeID _ pageNO size => inferInstanceAs
      (Decidable (∀ k < size, ((pageNO + k : ℕ) : ℤ) ∈ s.cluster.entries i nodeID))
  | .act _ => inferInstanceAs (Decidable True)
  | .moveToCOMEX _ _ => inferInstanceAs (Decidable True)
  | .fill _ _ _ _ => inferInstanceAs (Decidable True)
  | .pageRead _ _ _ _ _ => inferInstanceAs (Decidable True)

/-- The runs of a cluster with its memory, whatever is in the memory at first. -/
def machine (net : Network ι) (opt : Options) : Machine (Contents ι β) (ContentsStep ι β) where
  init s := Cluster.Start net s.cluster ∧ ∀ x, s.store x = none
  step s a s' := s.step net opt a = some s'

/-- The states that lead to no write after a page was freed. -/
abbrev Reach (net : Network ι) (opt : Options) (s : Contents ι β) : Prop :=
  Machine.Reach (machine net opt) Lawful s

/-- The memory holds the contents of the store. -/
structure Agrees (net : Network ι) (opt : Options) (s : Contents ι β) : Prop where
  inv : Cluster.Inv net s.cluster
  held : ∀ x page, s.store x = some page → x.Held opt s.cluster
  holds : ∀ x page, s.store x = some page → ∃ a, x.addr opt = some a ∧
    Region.Holds (s.space (x.home net)) a pageSize page

/-! ### Two cells at one place -/

section Cells

variable {net : Network ι} {opt : Options} {c : Cluster ι} {x y : Cell ι} {p : ℕ}

/-- Where the page of a swap entry is in the ledger; the slots are in none. -/
def place : Cell ι → Cluster.Place ι
  | .own _ _ => .used
  | .lent i nodeID _ => .entry i nodeID
  | _ => .free

theorem holdings_pos_of_held (net : Network ι) (hx : x.Held opt c) (hp : x.object = .page p) :
    0 < c.holdings net (x.home net) p (place x) := by
  cases x with
  | writeOut i nodeID slot => exact absurd hp (by simp [Cell.object])
  | readIn i slot => exact absurd hp (by simp [Cell.object])
  | own m q =>
    obtain rfl : q = p := Object.page.inj hp
    exact List.count_pos_iff.mpr hx
  | lent i nodeID q =>
    obtain rfl : q = p := Object.page.inj hp
    simp only [Cluster.holdings, place, Cell.home, if_true]
    exact List.count_pos_iff.mpr hx

/-- The page of a swap entry is a page of the node it is on. -/
theorem lt_of_held (h : Cluster.Inv net c) (hx : x.Held opt c) (hp : x.object = .page p) :
    p < net.totalPages (x.home net) := by
  have := h.holdings_pos (holdings_pos_of_held net hx hp)
  omega

/-- **Two cells at one place are one.**  Two slots are told apart by their numbers, a slot and a
page lie in different parts of the space, and two swap entries for one page would hold it
twice. -/
theorem eq_of_object (h : Cluster.Inv net c) (hx : x.Held opt c) (hy : y.Held opt c)
    (hhome : x.home net = y.home net) (hobj : x.object = y.object) : x = y := by
  have hplace : ∀ q, x.object = .page q → place x = place y := by
    intro q hq
    -- the ledger has the page at one place only
    obtain ⟨-, -, hone, hother⟩ := h.holdings_pos (holdings_pos_of_held net hx hq)
    by_contra hne
    have hpos := holdings_pos_of_held net hy (hobj.symm.trans hq)
    rw [← hhome, hother _ fun hc => hne hc.symm] at hpos
    exact absurd hpos (Nat.lt_irrefl 0)
  cases x with
  | writeOut i nodeID slot =>
    cases y with
    | writeOut j nodeID' slot' =>
      obtain ⟨rfl, rfl⟩ := Object.writeOut.inj hobj
      rw [show i = j from hhome]
    | readIn j slot' => exact absurd hobj (by simp [Cell.object])
    | own m q => exact absurd hobj (by simp [Cell.object])
    | lent j nodeID' q => exact absurd hobj (by simp [Cell.object])
  | readIn i slot =>
    cases y with
    | writeOut j nodeID' slot' => exact absurd hobj (by simp [Cell.object])
    | readIn j slot' =>
      rw [show i = j from hhome, Object.readIn.inj hobj]
    | own m q => exact absurd hobj (by simp [Cell.object])
    | lent j nodeID' q => exact absurd hobj (by simp [Cell.object])
  | own m q =>
    cases y with
    | writeOut j nodeID' slot' => exact absurd hobj (by simp [Cell.object])
    | readIn j slot' => exact absurd hobj (by simp [Cell.object])
    | own m' q' => rw [show m = m' from hhome, Object.page.inj hobj]
    | lent j nodeID' q' => exact absurd (hplace q rfl) (by simp [place])
  | lent i nodeID q =>
    cases y with
    | writeOut j nodeID' slot' => exact absurd hobj (by simp [Cell.object])
    | readIn j slot' => exact absurd hobj (by simp [Cell.object])
    | own m' q' => exact absurd (hplace q rfl) (by simp [place])
    | lent j nodeID' q' =>
      obtain ⟨hi, hd⟩ := Cluster.Place.entry.inj (hplace q rfl)
      rw [hi, Int.ofNat.inj hd, Object.page.inj hobj]

theorem valid_of_held (h : Cluster.Inv net c) (hopt : ∀ m, net.totalPages m = opt.totalPages)
    (hx : x.Held opt c) : x.object.Valid opt := by
  cases x with
  | writeOut i nodeID slot => exact hx
  | readIn i slot => exact hx
  | own m q =>
    have := lt_of_held h hx rfl
    rwa [hopt] at this
  | lent i nodeID q =>
    have := lt_of_held h hx rfl
    rwa [hopt] at this

omit [DecidableEq ι] in
theorem addr_mem (x : Cell ι) : x.addr opt ∈ x.object.addrs opt := by
  cases x <;> simp [Cell.addr, Cell.object, Object.addrs]

/-- **Two cells in one space share no byte.** -/
theorem apart (h : Cluster.Inv net c) (hopt : ∀ m, net.totalPages m = opt.totalPages)
    (hsound : Layout.Sound opt) (hx : x.Held opt c) (hy : y.Held opt c) (hne : x ≠ y)
    (hhome : x.home net = y.home net) {a b : ℕ} (ha : x.addr opt = some a)
    (hb : y.addr opt = some b) : a + pageSize ≤ b ∨ b + pageSize ≤ a :=
  hsound.apart _ _ (valid_of_held h hopt hx) (valid_of_held h hopt hy)
    (fun hobj => hne (eq_of_object h hx hy hhome hobj)) a b (ha ▸ addr_mem x) (hb ▸ addr_mem y)

end Cells

/-! ### Every step -/

section Steps

variable {net : Network ι} {opt : Options} {s s' : Contents ι β}

omit [DecidableEq ι] in
theorem assign_eq_some [DecidableEq ι] {store : Cell ι → Option (ℕ → β)} {n : ℕ}
    {cells : ℕ → Cell ι} {contents : ℕ → Option (ℕ → β)} {x : Cell ι} {page : ℕ → β}
    (h : assign store n cells contents x = some page) :
    (∃ k < n, cells k = x ∧ contents k = some page) ∨
      (∀ k < n, cells k ≠ x) ∧ store x = some page := by
  unfold assign at h
  cases hfind : (List.range n).find? fun k => cells k = x with
  | none =>
    rw [hfind] at h
    refine Or.inr ⟨fun k hk hc => ?_, h⟩
    have := List.find?_eq_none.mp hfind k (List.mem_range.mpr hk)
    exact this (by simpa using hc)
  | some k =>
    rw [hfind] at h
    have hk := List.mem_range.mp (List.mem_of_find?_eq_some hfind)
    exact Or.inl ⟨k, hk, by simpa using List.find?_some hfind, h⟩

/-- The cluster moves on. -/
theorem Agrees.enter (h : Agrees net opt s) {c : Cluster ι} (hc : Cluster.Inv net c) :
    Agrees net opt (s.enter opt c) where
  inv := hc
  held := by
    intro x page hx
    simp only [Contents.enter] at hx
    split at hx
    · next hheld => exact hheld
    · exact absurd hx (by simp)
  holds := by
    intro x page hx
    simp only [Contents.enter] at hx
    split at hx
    · exact h.holds x page hx
    · exact absurd hx (by simp)

/-- **Pages copied to cells change these cells and no others**: the cells copied to hold what was
copied, and any other lies apart from all of them. -/
theorem Agrees.write (h : Agrees net opt s) (hopt : ∀ m, net.totalPages m = opt.totalPages)
    (hsound : Layout.Sound opt) {m : ι} {a n : ℕ} {bytes : ℕ → β} {cells : ℕ → Cell ι}
    {contents : ℕ → Option (ℕ → β)}
    (hcells : ∀ k < n, (cells k).Held opt s.cluster ∧ (cells k).home net = m ∧
      (cells k).addr opt = some (a + k * pageSize))
    (hbytes : ∀ k < n, ∀ page, contents k = some page →
      ∀ j < pageSize, bytes (k * pageSize + j) = page j) :
    Agrees net opt (s.write m a n bytes cells contents) where
  inv := h.inv
  held := by
    intro x page hx
    rcases assign_eq_some hx with ⟨k, hk, rfl, -⟩ | ⟨-, hold⟩
    · exact (hcells k hk).1
    · exact h.held x page hold
  holds := by
    intro x page hx
    simp only [Contents.write]
    rcases assign_eq_some hx with ⟨k, hk, rfl, hpage⟩ | ⟨hother, hold⟩
    · obtain ⟨-, hhome, haddr⟩ := hcells k hk
      refine ⟨_, haddr, ?_⟩
      rw [hhome, Function.update_self]
      exact ((Region.Holds.copy _ a (n * pageSize) bytes).block hk).congr (hbytes k hk page hpage)
    · -- another cell, at another node or elsewhere in the space of this one
      obtain ⟨b, hb, hholds⟩ := h.holds x page hold
      refine ⟨b, hb, ?_⟩
      by_cases hm : x.home net = m
      · rw [hm, Function.update_self]
        rw [hm] at hholds
        apply hholds.copy_blocks
        intro k hk
        obtain ⟨hheld, hhome, haddr⟩ := hcells k hk
        exact apart h.inv hopt hsound (h.held x page hold) hheld (fun hc => hother k hk hc.symm)
          (hm.trans hhome.symm) hb haddr
      · rw [Function.update_of_ne hm]
        exact hholds

/-! Slots and pages that follow each other are at addresses that do. -/

theorem getWriteOutBuff_add (hfits : Layout.Fits opt) {nodeID slot k a : ℕ}
    (hn : nodeID < opt.nodes) (hs : slot + k < opt.writeOut)
    (ha : getWriteOutBuff opt nodeID slot = some a) :
    getWriteOutBuff opt nodeID (slot + k) = some (a + k * pageSize) := by
  rw [(Layout.getWriteOutBuff_eq hfits.1 hn (by omega)).2] at ha
  rw [(Layout.getWriteOutBuff_eq hfits.1 hn hs).2, ← Option.some.inj ha, ← Nat.add_assoc,
    Nat.add_mul]

theorem getReadInBuff_add (hfits : Layout.Fits opt) {slot k a : ℕ} (hs : slot + k < opt.readIn)
    (ha : getReadInBuff opt slot = some a) :
    getReadInBuff opt (slot + k) = some (a + k * pageSize) := by
  rw [Layout.getReadInBuff_eq hfits.1 (by omega)] at ha
  rw [Layout.getReadInBuff_eq hfits.1 hs, ← Option.some.inj ha, ← Nat.add_assoc, Nat.add_mul]

theorem remoteAddr_add (hfits : Layout.Fits opt) {p k a : ℕ} (hp : p + k < opt.totalPages)
    (ha : remoteAddr opt p = some a) : remoteAddr opt (p + k) = some (a + k * pageSize) := by
  rw [Layout.remoteAddr_eq hfits.1 (by omega)] at ha
  rw [Layout.remoteAddr_eq hfits.1 hp, ← Option.some.inj ha, Nat.add_right_comm, Nat.add_mul]

/-- What a run of blocks holds, by block. -/
theorem bytes_of_holds {mem : ℕ → β} {a k : ℕ} {page : ℕ → β}
    (h : Region.Holds mem (a + k * pageSize) pageSize page) :
    ∀ j < pageSize, mem (a + (k * pageSize + j)) = page j := fun j hj => by
  rw [← Nat.add_assoc]
  exact h j hj

theorem Agrees.moveToCOMEX (h : Agrees net opt s)
    (hopt : ∀ m, net.totalPages m = opt.totalPages) (hsound : Layout.Sound opt) {m : ι}
    {page : ℕ → β} (hs : s.step net opt (.moveToCOMEX m page) = some s') : Agrees net opt s' := by
  obtain ⟨c, hc, hs⟩ := Option.bind_eq_some_iff.mp hs
  have henter : Agrees net opt (s.enter opt c) := h.enter (h.inv.step hc)
  cases hr : (s.cluster.buddy m).rmqueueSmallest 0 with
  | mk o b =>
    simp only [Cluster.step, hr] at hs hc
    cases o with
    | none =>
      rw [← Option.some.inj hs]
      exact henter
    | some q =>
      simp only at hs hc
      split at hs
      swap
      · -- a number outside the array is not used, and nothing is copied
        rw [← Option.some.inj hs]
        exact henter
      next hq =>
      obtain ⟨a, ha, rfl⟩ := Option.map_eq_some_iff.mp hs
      refine henter.write hopt hsound (fun k hk => ?_) fun k hk page' hp j hj => ?_
      · obtain rfl : k = 0 := by omega
        refine ⟨?_, rfl, ?_⟩
        · rw [← Option.some.inj hc] at hq ⊢
          simp only [Function.update_self] at hq
          simp only [Contents.enter, Cell.Held, if_pos hq, Function.update_self]
          exact List.mem_cons_self
        · rw [Nat.zero_mul, Nat.add_zero]
          exact ha
      · obtain rfl : k = 0 := by omega
        rw [Nat.zero_mul, Nat.zero_add, Option.some.inj hp]

theorem Agrees.pageWrte (h : Agrees net opt s)
    (hopt : ∀ m, net.totalPages m = opt.totalPages) (hsound : Layout.Sound opt) {i : ι}
    {nodeID slot pageNO size : ℕ} (hlaw : s.Lawful (.pageWrte i nodeID slot pageNO size))
    (hs : s.step net opt (.pageWrte i nodeID slot pageNO size) = some s') : Agrees net opt s' := by
  simp only [step] at hs
  split at hs
  swap
  · exact absurd hs (by simp)
  next hslot =>
  obtain ⟨src, hsrc, hs⟩ := Option.bind_eq_some_iff.mp hs
  obtain ⟨dst, hdst, rfl⟩ := Option.map_eq_some_iff.mp hs
  refine h.write hopt hsound (fun k hk => ?_) fun k hk page hp => ?_
  · have hheld : Cell.Held opt s.cluster (.lent i nodeID (pageNO + k)) := hlaw k hk
    have hlt := lt_of_held h.inv hheld rfl
    rw [hopt] at hlt
    exact ⟨hheld, rfl, remoteAddr_add hsound.fits hlt hdst⟩
  · obtain ⟨a, ha, hholds⟩ := h.holds _ page hp
    have hadd := getWriteOutBuff_add hsound.fits (k := k) hslot.1 (by omega) hsrc
    obtain rfl : a = src + k * pageSize := Option.some.inj (ha.symm.trans hadd)
    exact bytes_of_holds hholds

theorem Agrees.pageRead (h : Agrees net opt s)
    (hopt : ∀ m, net.totalPages m = opt.totalPages) (hsound : Layout.Sound opt) {i : ι}
    {nodeID slot pageNO size : ℕ}
    (hs : s.step net opt (.pageRead i nodeID slot pageNO size) = some s') : Agrees net opt s' := by
  simp only [step] at hs
  split at hs
  swap
  · exact absurd hs (by simp)
  next hslot =>
  obtain ⟨dst, hdst, hs⟩ := Option.bind_eq_some_iff.mp hs
  obtain ⟨src, hsrc, rfl⟩ := Option.map_eq_some_iff.mp hs
  refine h.write hopt hsound (fun k hk => ?_) fun k hk page hp => ?_
  · exact ⟨show slot + k < opt.readIn by omega, rfl,
      getReadInBuff_add hsound.fits (by omega) hdst⟩
  · -- a page with a content is one of a swap entry
    have hlt := lt_of_held h.inv (h.held _ page hp) rfl
    rw [hopt] at hlt
    obtain ⟨a, ha, hholds⟩ := h.holds _ page hp
    have hadd := remoteAddr_add hsound.fits hlt hsrc
    obtain rfl : a = src + k * pageSize := Option.some.inj (ha.symm.trans hadd)
    exact bytes_of_holds hholds

theorem Agrees.fill (h : Agrees net opt s) (hopt : ∀ m, net.totalPages m = opt.totalPages)
    (hsound : Layout.Sound opt) {i : ι} {nodeID slot : ℕ} {page : ℕ → β}
    (hs : s.step net opt (.fill i nodeID slot page) = some s') : Agrees net opt s' := by
  simp only [step] at hs
  split at hs
  swap
  · exact absurd hs (by simp)
  next hslot =>
  obtain ⟨a, ha, rfl⟩ := Option.map_eq_some_iff.mp hs
  refine h.write hopt hsound (fun k hk => ?_) fun k hk page' hp j hj => ?_
  · obtain rfl : k = 0 := by omega
    refine ⟨hslot, rfl, ?_⟩
    rw [Nat.zero_mul, Nat.add_zero]
    exact ha
  · obtain rfl : k = 0 := by omega
    rw [Nat.zero_mul, Nat.zero_add, Option.some.inj hp]

theorem Agrees.step (h : Agrees net opt s) (hopt : ∀ m, net.totalPages m = opt.totalPages)
    (hsound : Layout.Sound opt) {a : ContentsStep ι β} (hlaw : s.Lawful a)
    (hs : s.step net opt a = some s') : Agrees net opt s' := by
  cases a with
  | act b =>
    have hact : ∃ c, s.cluster.step net b = some c ∧ s.enter opt c = s' := by
      cases b with
      | moveToCOMEX m => exact absurd hs (by simp [Contents.step])
      | request i d => exact Option.map_eq_some_iff.mp hs
      | takePage i d => exact Option.map_eq_some_iff.mp hs
      | freeToRemote i d p => exact Option.map_eq_some_iff.mp hs
      | doWork k => exact Option.map_eq_some_iff.mp hs
      | freeLocal m p => exact Option.map_eq_some_iff.mp hs
    obtain ⟨c, hc, rfl⟩ := hact
    exact h.enter (h.inv.step hc)
  | moveToCOMEX m page => exact h.moveToCOMEX hopt hsound hs
  | fill i nodeID slot page => exact h.fill hopt hsound hs
  | pageWrte i nodeID slot pageNO size => exact h.pageWrte hopt hsound hlaw hs
  | pageRead i nodeID slot pageNO size => exact h.pageRead hopt hsound hs

theorem reach_agrees (hopt : ∀ m, net.totalPages m = opt.totalPages) (hsound : Layout.Sound opt)
    (h : Reach net opt s) : Agrees net opt s := by
  refine Machine.Reach.invariant (I := Agrees net opt) h (fun s h0 => ?_)
    fun s a s' _ ih hlaw hs => ih.step hopt hsound hlaw hs
  obtain ⟨hstart, hnone⟩ := h0
  refine ⟨Cluster.Inv.start hstart, fun x page hx => ?_, fun x page hx => ?_⟩
  · rw [hnone] at hx
    exact absurd hx (by simp)
  · rw [hnone] at hx
    exact absurd hx (by simp)

/-- **The memory of the cluster holds what was stored last in every cell**: the page of every
swap entry and every slot is where it is read, byte for byte, whatever the nodes did since. -/
theorem reach_holds (hopt : ∀ m, net.totalPages m = opt.totalPages) (hsound : Layout.Sound opt)
    (h : Reach net opt s) {x : Cell ι} {page : ℕ → β} (hx : s.store x = some page) :
    x.Held opt s.cluster ∧ ∃ a, x.addr opt = some a ∧
      ∀ k < pageSize, s.space (x.home net) (a + k) = page k :=
  ⟨(reach_agrees hopt hsound h).held x page hx, (reach_agrees hopt hsound h).holds x page hx⟩

end Steps

/-! ### What other nodes do -/

section Others

variable {net : Network ι} {opt : Options} {s s' t : Contents ι β} {x : Cell ι} {page : ℕ → β}

/-- Another node's step, or a message being processed, leaves a node's swap entries. -/
theorem frame_of_actor {c c' : Cluster ι} {b : ClusterStep ι} {i : ι}
    (hs : c.step net b = some c') (hb : b.actor ≠ some i) :
    c'.used i = c.used i ∧ c'.entries i = c.entries i := by
  cases b with
  | request j e =>
    rw [← Option.some.inj hs]
    exact ⟨rfl, rfl⟩
  | takePage j e =>
    have hij : i ≠ j := fun hc => hb (congrArg some hc.symm)
    simp only [Cluster.step] at hs
    split at hs
    swap
    · exact absurd hs (by simp)
    obtain ⟨⟨q, g⟩, -, rfl⟩ := Option.map_eq_some_iff.mp hs
    exact ⟨rfl, funext fun d => Cluster.set₂_of_ne _ _ fun hc => hij hc.1⟩
  | freeToRemote j e q =>
    have hij : i ≠ j := fun hc => hb (congrArg some hc.symm)
    simp only [Cluster.step] at hs
    split at hs
    swap
    · exact absurd hs (by simp)
    rw [← Option.some.inj hs]
    exact ⟨rfl, funext fun d => Cluster.set₂_of_ne _ _ fun hc => hij hc.1⟩
  | doWork k =>
    -- no message is about the pages a node uses or the entries it has
    obtain ⟨msg, -, rfl⟩ := Option.map_eq_some_iff.mp hs
    constructor
    · cases hbody : msg.body <;> simp only [Cluster.process, hbody]
    · cases hbody : msg.body <;> simp only [Cluster.process, hbody]
  | moveToCOMEX m =>
    have him : i ≠ m := fun hc => hb (congrArg some hc.symm)
    cases hr : (c.buddy m).rmqueueSmallest 0 with
    | mk o b =>
      simp only [Cluster.step, hr] at hs
      cases o with
      | none =>
        rw [← Option.some.inj hs]
        exact ⟨rfl, rfl⟩
      | some q =>
        rw [← Option.some.inj hs]
        refine ⟨?_, rfl⟩
        simp only
        split
        · exact Function.update_of_ne him _ _
        · rfl
  | freeLocal m q =>
    have him : i ≠ m := fun hc => hb (congrArg some hc.symm)
    simp only [Cluster.step] at hs
    split at hs
    · rw [← Option.some.inj hs]
      exact ⟨Function.update_of_ne him _ _, rfl⟩
    · exact absurd hs (by simp)

theorem held_of_actor {c c' : Cluster ι} {b : ClusterStep ι} (hs : c.step net b = some c')
    (hb : b.actor ≠ some x.owner) (hx : x.Held opt c) : x.Held opt c' := by
  obtain ⟨hused, hentries⟩ := frame_of_actor hs hb
  cases x with
  | writeOut i nodeID slot => exact hx
  | readIn i slot => exact hx
  | own m p =>
    simp only [Cell.Held] at hx ⊢
    rwa [show c'.used m = c.used m from hused]
  | lent i nodeID p =>
    simp only [Cell.Held] at hx ⊢
    rwa [show c'.entries i = c.entries i from hentries]

theorem assign_of_owner {store : Cell ι → Option (ℕ → β)} {n : ℕ} {cells : ℕ → Cell ι}
    {contents : ℕ → Option (ℕ → β)} (h : ∀ k, (cells k).owner ≠ x.owner) :
    assign store n cells contents x = store x := by
  have hnone : (List.range n).find? (fun k => cells k = x) = none := by
    refine List.find?_eq_none.mpr fun k _ hc => h k ?_
    rw [show cells k = x by simpa using hc]
  unfold assign
  rw [hnone]

/-- **Only its own node changes a cell**: the copies of another node go to cells of its own, and
what it does otherwise drops none of the pages the cell is held by. -/
theorem store_step (hheld : x.Held opt s.cluster) {a : ContentsStep ι β}
    (hs : s.step net opt a = some s') (ha : a.actor ≠ some x.owner) :
    s'.store x = s.store x := by
  cases a with
  | act b =>
    have hact : ∃ c, s.cluster.step net b = some c ∧ s.enter opt c = s' := by
      cases b with
      | moveToCOMEX m => exact absurd hs (by simp [Contents.step])
      | request i d => exact Option.map_eq_some_iff.mp hs
      | takePage i d => exact Option.map_eq_some_iff.mp hs
      | freeToRemote i d p => exact Option.map_eq_some_iff.mp hs
      | doWork k => exact Option.map_eq_some_iff.mp hs
      | freeLocal m p => exact Option.map_eq_some_iff.mp hs
    -- nothing is copied, and the cell is still held
    obtain ⟨c, hc, rfl⟩ := hact
    exact if_pos (held_of_actor hc ha hheld)
  | moveToCOMEX m page' =>
    obtain ⟨c, hc, hs⟩ := Option.bind_eq_some_iff.mp hs
    have henter : (s.enter opt c).store x = s.store x := if_pos (held_of_actor hc ha hheld)
    have hm : m ≠ x.owner := fun h => ha (congrArg some h)
    split at hs
    · rw [← Option.some.inj hs]
      exact henter
    · split at hs
      · obtain ⟨b, -, rfl⟩ := Option.map_eq_some_iff.mp hs
        refine Eq.trans (assign_of_owner fun _ => ?_) henter
        exact hm
      · rw [← Option.some.inj hs]
        exact henter
  | fill i nodeID slot page' =>
    have hi : i ≠ x.owner := fun h => ha (congrArg some h)
    simp only [step] at hs
    split at hs
    swap
    · exact absurd hs (by simp)
    obtain ⟨b, -, rfl⟩ := Option.map_eq_some_iff.mp hs
    exact assign_of_owner fun _ => hi
  | pageWrte i nodeID slot pageNO size =>
    have hi : i ≠ x.owner := fun h => ha (congrArg some h)
    simp only [step] at hs
    split at hs
    swap
    · exact absurd hs (by simp)
    obtain ⟨src, -, hs⟩ := Option.bind_eq_some_iff.mp hs
    obtain ⟨dst, -, rfl⟩ := Option.map_eq_some_iff.mp hs
    exact assign_of_owner fun _ => hi
  | pageRead i nodeID slot pageNO size =>
    have hi : i ≠ x.owner := fun h => ha (congrArg some h)
    simp only [step] at hs
    split at hs
    swap
    · exact absurd hs (by simp)
    obtain ⟨dst, -, hs⟩ := Option.bind_eq_some_iff.mp hs
    obtain ⟨src, -, rfl⟩ := Option.map_eq_some_iff.mp hs
    exact assign_of_owner fun _ => hi

/-- The steps of nodes other than the owner of a cell. -/
def Others (x : Cell ι) (s : Contents ι β) (a : ContentsStep ι β) : Prop :=
  s.Lawful a ∧ a.actor ≠ some x.owner

instance (x : Cell ι) (s : Contents ι β) (a : ContentsStep ι β) : Decidable (Others x s a) :=
  inferInstanceAs (Decidable (_ ∧ _))

/-- **Nodes do not disturb each other**: after any steps of other nodes a slot or the page of a
swap entry reads as it did. -/
theorem reach_isolated (hopt : ∀ m, net.totalPages m = opt.totalPages)
    (hsound : Layout.Sound opt) (h : Reach net opt s) (hx : s.store x = some page)
    (ht : Machine.Reach ((machine net opt).since s) (Others x) t) :
    x.Held opt t.cluster ∧ ∃ a, x.addr opt = some a ∧
      ∀ k < pageSize, t.space (x.home net) (a + k) = page k := by
  suffices hall : Reach net opt t ∧ t.store x = some page from
    reach_holds hopt hsound hall.1 hall.2
  refine Machine.Reach.invariant (I := fun t => Reach net opt t ∧ t.store x = some page) ht
    (fun u h0 => ?_) fun u a u' _ ih hok hs => ?_
  · rw [show u = s from h0]
    exact ⟨h, hx⟩
  · have hheld := (reach_agrees hopt hsound ih.1).held x page ih.2
    exact ⟨ih.1.next hok.1 hs, (store_step hheld hs hok.2).trans ih.2⟩

end Others

/-! ### Two nodes with a page each -/

/-- One slot and one group of read-in slots in one chunk, four pages in the next. -/
def smallOptions : Options :=
  { Layout.oneNode with
    writeOut := 1
    totalPages := 4
    localPageCount := 2
    totalPages_lt := by decide }

theorem sound_smallOptions : Layout.Sound smallOptions :=
  (Layout.sound_iff smallOptions).mpr
    ⟨by decide, Or.inr ⟨by decide, by decide, by decide⟩⟩

/-- The two nodes with every page in use and memory full of zeros. -/
def twoNodesStart : Contents Bool ℕ where
  cluster := Cluster.twoNodesStart
  space _ _ := 0
  store _ := none

/-- A page is borrowed, written to and read back. -/
def writeAndRead : List (ContentsStep Bool ℕ) :=
  [.act (.freeLocal true 0), .act (.request false 0), .act (.doWork 0), .act (.doWork 0),
    .act (.takePage false 0), .fill false 0 0 fun _ => 7, .pageWrte false 0 0 0 1,
    .fill false 0 0 fun _ => 8, .pageRead false 0 0 0 16]

/-- What was written is in the read-in slot, though the write-out slot was used again. -/
theorem reach_holds_writeAndRead : ∃ s : Contents Bool ℕ,
    Reach Cluster.twoNodes smallOptions s ∧ ∃ a, getReadInBuff smallOptions 0 = some a ∧
      ∀ k < pageSize, s.space false (a + k) = 7 := by
  obtain ⟨s, hexec, page, hstore, hpage⟩ : ∃ s, Machine.exec Lawful
      (step Cluster.twoNodes smallOptions) twoNodesStart writeAndRead = some s ∧
      ∃ page, s.store (.readIn false 0) = some page ∧ page = fun _ => 7 := ⟨_, rfl, _, rfl, rfl⟩
  have hs : Reach Cluster.twoNodes smallOptions s :=
    Machine.Reach.of_exec (M := machine Cluster.twoNodes smallOptions) (fun _ _ _ h => h)
      (.start ⟨Cluster.start_twoNodesStart, fun _ => rfl⟩) hexec
  obtain ⟨-, a, ha, hholds⟩ := reach_holds (fun _ => rfl) sound_smallOptions hs hstore
  rw [hpage] at hholds
  exact ⟨s, hs, a, ha, hholds⟩

/-- A borrowed page holds what was written while its node uses another page. -/
theorem reach_isolated_twoNodes : ∃ t : Contents Bool ℕ,
    Cell.Held smallOptions t.cluster (.own true 1) ∧ ∃ a, remoteAddr smallOptions 0 = some a ∧
      ∀ k < pageSize, t.space true (a + k) = 7 := by
  obtain ⟨s, hexec, ⟨page, hstore, hpage⟩, t, hexec', hown⟩ : ∃ s, Machine.exec Lawful
      (step Cluster.twoNodes smallOptions) twoNodesStart (writeAndRead.take 7) = some s ∧
      (∃ page, s.store (.lent false 0 0) = some page ∧ page = fun _ => 7) ∧
      ∃ t, Machine.exec (Others (.lent false 0 0)) (step Cluster.twoNodes smallOptions) s
        [.act (.freeLocal true 1), .moveToCOMEX true fun _ => 9] = some t ∧
        Cell.Held smallOptions t.cluster (.own true 1) :=
    ⟨_, rfl, ⟨_, rfl, rfl⟩, _, rfl, by decide⟩
  have hs : Reach Cluster.twoNodes smallOptions s :=
    Machine.Reach.of_exec (M := machine Cluster.twoNodes smallOptions) (fun _ _ _ h => h)
      (.start ⟨Cluster.start_twoNodesStart, fun _ => rfl⟩) hexec
  have ht : Machine.Reach ((machine Cluster.twoNodes smallOptions).since s)
      (Others (.lent false 0 0)) t :=
    Machine.Reach.of_exec (M := (machine Cluster.twoNodes smallOptions).since s)
      (fun _ _ _ h => h) (.start rfl) hexec'
  obtain ⟨-, a, ha, hholds⟩ := reach_isolated (fun _ => rfl) sound_smallOptions hs hstore ht
  rw [hpage] at hholds
  exact ⟨t, hown, a, ha, hholds⟩

end Contents
end Comex
