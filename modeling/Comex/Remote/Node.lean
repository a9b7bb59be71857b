import Comex.Remote.FreeGroup
import Comex.Remote.WriteOut

/-!
# A compute node

`comex_remote.h` and the remote branch of `read_swap_cache_async`, run one
operation at a time with transfers that succeed.  The node has one ring and one
free list for every memory node, and one read-in cache for all of them; its own
RDMA space and those of the memory nodes hold a page content at every page
offset.  Pages of a memory node are addressed by page number, as `PAGE_WRTE` and
`PAGE_READ` do before `remote_shift_offset` is added.

## Main definitions

* `Config`, `Node` — the options and the state.
* `flushBuff`, `storePage`, `moveToRemote` — swapping out.
* `readFromBuffer`, `readFromPreFetch`, `readFromRemote`, `swapIn` — swapping in.
-/

namespace Comex

/-- The options of a node that the operations read. -/
structure Config where
  /-- `COMEX_ID`. -/
  comexID : ℤ
  /-- `COMEX_total_nodes`. -/
  totalNodes : ℕ
  /-- `COMEX_nMemNodes`. -/
  nMemNodes : ℕ
  /-- `COMEX_total_writeOut`. -/
  totalWriteOut : ℕ
  /-- `COMEX_total_readIn`. -/
  totalReadIn : ℕ
  /-- `COMEX_threshold`. -/
  threshold : ℤ
  /-- `COMEX_refill`. -/
  refill : ℤ

/-- A node with one peer, a ring of two slots and one group of read-in slots. -/
def smallConfig : Config where
  comexID := 1
  totalNodes := 1
  nMemNodes := 1
  totalWriteOut := 2
  totalReadIn := 16
  threshold := 0
  refill := 10

/-- A compute node and the memory of its peers; `α` is the content of a page. -/
structure Node (α : Type) where
  /-- `COMEX_free_group[]`. -/
  group : ℤ → FreeGroup
  /-- `COMEX_writeOut_buff[]` and `buff_pos[]`. -/
  ring : ℤ → WriteOut
  /-- `COMEX_readIn_buff[]`. -/
  readIn : ℤ → BuffDesc
  /-- `COMEX_free_struct[]`. -/
  freeStruct : ℤ → FreeStruct
  /-- The node's RDMA space, by page offset. -/
  space : ℤ → α
  /-- The memory of the peers, by node and page number. -/
  remote : ℤ → ℤ → α
  /-- History: what was swapped out last to a page that was not swapped in since. -/
  latest : ℤ → ℤ → Option α

/-- `PreF_SIZE`. -/
def preFSize : ℕ := 16

/-- `x & PreF_MASK`. -/
def preFFloor (x : ℤ) : ℤ := x / preFSize * preFSize

/-- The value an integer has once it is stored in an `int`. -/
def toInt (x : ℤ) : ℤ := x.bmod (2 ^ 32)

/-- `get_readIn_buff`, in pages. -/
def getReadInBuff (cfg : Config) (buffSlot : ℤ) : ℤ :=
  cfg.totalWriteOut * cfg.totalNodes + buffSlot

/-- `COMEX_hash`. -/
def hash (cfg : Config) (seed : ℤ) : ℤ :=
  (toInt (toInt (seed * cfg.comexID) + 1)).tmod cfg.nMemNodes

namespace Node

variable {α : Type}

/-- The state after `COMEX_init_Remote`. -/
def init (space : ℤ → α) (remote : ℤ → ℤ → α) : Node α where
  group _ := .init
  ring _ := .init
  readIn _ := .empty
  freeStruct _ := .clean
  space := space
  remote := remote
  latest _ _ := none

/-- Assign to the ring of a node. -/
def setRing (s : Node α) (d : ℤ) (w : WriteOut) : Node α :=
  { s with ring := Function.update s.ring d w }

/-- Assign to the free list of a node. -/
def setGroup (s : Node α) (d : ℤ) (g : FreeGroup) : Node α :=
  { s with group := Function.update s.group d g }

theorem setRing_ring (s : Node α) (d n : ℤ) (w : WriteOut) :
    (s.setRing d w).ring n = if n = d then w else s.ring n := by
  simp only [setRing, Function.update_apply]

theorem setGroup_group (s : Node α) (d n : ℤ) (g : FreeGroup) :
    (s.setGroup d g).group n = if n = d then g else s.group n := by
  simp only [setGroup, Function.update_apply]

/-- `COMEX_page_receive`. -/
def pageReceive (cfg : Config) (s : Node α) (nodeID pageNO : ℤ) (groupSize : ℕ) : Node α :=
  s.setGroup nodeID ((s.group nodeID).pageReceive cfg.refill pageNO groupSize)

/-! ### Swapping out -/

/-- The RDMA write of a `PAGE_WRTE`. -/
def write (s : Node α) (target : ℤ) (m : PageWrte) : Node α :=
  { s with remote := Function.update s.remote target fun p =>
      if m.remotePage ≤ p ∧ p < m.remotePage + m.size then
        s.space (m.localPage + (p - m.remotePage))
      else s.remote target p }

/-- `COMEX_flush_buff`, transfer and `COMEX_free_buff` included. -/
def flushBuff (cfg : Config) (s : Node α) (nodeID : ℤ) : Node α :=
  match (s.ring nodeID).flushBegin cfg.totalWriteOut nodeID with
  | (none, w) => s.setRing nodeID w
  | (some m, w) => (s.write nodeID m).setRing nodeID (w.freeBuff m.bufIDX m.size)

/-- `COMEX_void_preFetch`. -/
def voidPreFetch (cfg : Config) (s : Node α) (nodeID pageNO : ℤ) : Node α :=
  let index := pageNO.tmod cfg.totalReadIn
  { s with readIn :=
      if (s.readIn index).nodeID = nodeID ∧ (s.readIn index).pageNO = pageNO then
        Function.update s.readIn index .empty
      else s.readIn }

/-- `COMEX_move_to_Remote` from `COMEX_freelist_getpage` to the filled slot: the page
content `a` goes to a page of node `d`. Returns the page and the slot. -/
def storePage (cfg : Config) (s : Node α) (d : ℤ) (a : α) : Option (Node α × ℤ × ℤ) :=
  (s.group d).freelistGetpage.map fun (pageNO, g) =>
    let slot := (s.ring d).tail
    let s := (s.setGroup d g).setRing d ((s.ring d).reserve cfg.totalWriteOut)
    let s := s.voidPreFetch cfg d pageNO
    let s := { s with
      space := Function.update s.space (getWriteOutBuff cfg.totalWriteOut d slot) a }
    let s := s.setRing d ((s.ring d).fill slot d pageNO)
    let latest := Function.update (s.latest d) pageNO (some a)
    ({ s with latest := Function.update s.latest d latest }, pageNO, slot)

/-- `COMEX_move_to_Remote` has a page and a slot to use at node `d`. -/
def CanStore (s : Node α) (d : ℤ) : Prop :=
  0 < (s.group d).totalPage ∧ ((s.ring d).desc (s.ring d).tail).status = .free

instance (s : Node α) (d : ℤ) : Decidable (s.CanStore d) :=
  inferInstanceAs (Decidable (_ ∧ _))

/-- The probes of `COMEX_move_to_Remote` from node `dest` on, `n` of them left. The
result is the node and page of the copy, or nothing where the source returns -1;
`none` where it would index an array out of range. -/
def probe (cfg : Config) (a : α) : ℕ → ℤ → Node α → Option (Node α × Option (ℤ × ℤ))
  | 0, _, s => some (s, none)
  | n + 1, dest, s =>
    if 0 ≤ dest ∧ dest < cfg.totalNodes then
      let s := s.setGroup dest ((s.group dest).request cfg.threshold).2
      let s := if ((s.ring dest).desc (s.ring dest).tail).status = .filled then
        s.flushBuff cfg dest else s
      if s.CanStore dest then
        (s.storePage cfg dest a).map fun (s, pageNO, slot) =>
          (if slot % 32 = 0 ∧ slot ≠ 0 then s.flushBuff cfg dest else s, some (dest, pageNO))
      else probe cfg a n (hash cfg dest) s
    else none

/-- `COMEX_move_to_Remote` of a page with content `a` of process `pid`. -/
def moveToRemote (cfg : Config) (s : Node α) (pid : ℤ) (a : α) :
    Option (Node α × Option (ℤ × ℤ)) :=
  probe cfg a cfg.nMemNodes (hash cfg pid) s

/-! ### Swapping in -/

/-- The loop of `COMEX_read_from_buffer` from slot `i` on. -/
def scanBuffer (cfg : Config) (s : Node α) (nodeID pageNO : ℤ) : ℕ → ℤ → Option α
  | 0, _ => none
  | n + 1, i =>
    if ((s.ring nodeID).desc i).pageNO = pageNO ∧ ((s.ring nodeID).desc i).status = .filled then
      some (s.space (getWriteOutBuff cfg.totalWriteOut nodeID i))
    else scanBuffer cfg s nodeID pageNO n (i + 1)

/-- `COMEX_read_from_buffer`. -/
def readFromBuffer (cfg : Config) (s : Node α) (nodeID pageNO : ℤ) : Option α :=
  scanBuffer cfg s nodeID pageNO cfg.totalWriteOut 0

/-- `COMEX_read_from_preFetch`. -/
def readFromPreFetch (cfg : Config) (s : Node α) (nodeID pageNO : ℤ) : Option α :=
  let index := pageNO.tmod cfg.totalReadIn
  if (s.readIn index).status = .filled ∧ (s.readIn index).nodeID = nodeID ∧
      (s.readIn index).pageNO = pageNO then
    some (s.space (getReadInBuff cfg index))
  else none

/-- `COMEX_read_from_remote`: the page together with its 15 neighbours. -/
def readFromRemote (cfg : Config) (s : Node α) (nodeID pageNO : ℤ) : α × Node α :=
  let buffIDX := pageNO.tmod cfg.totalReadIn
  let buffFLR := preFFloor buffIDX
  let pageFLR := preFFloor pageNO
  let first := getReadInBuff cfg buffFLR
  let space := fun k =>
    if first ≤ k ∧ k < first + preFSize then s.remote nodeID (pageFLR + (k - first))
    else s.space k
  let readIn := fun k =>
    if buffFLR ≤ k ∧ k < buffFLR + preFSize then ⟨.filled, nodeID, pageFLR + (k - buffFLR)⟩
    else s.readIn k
  (space (getReadInBuff cfg buffIDX), { s with space := space, readIn := readIn })

/-- The remote branch of `read_swap_cache_async`: the content read and the state after
`COMEX_free_to_remote`. -/
def swapIn (cfg : Config) (s : Node α) (nodeID pageNO : ℤ) : α × Node α :=
  let r :=
    match s.readFromBuffer cfg nodeID pageNO with
    | some a => (a, s)
    | none =>
      match s.readFromPreFetch cfg nodeID pageNO with
      | some a => (a, s)
      | none => s.readFromRemote cfg nodeID pageNO
  (r.1, { r.2 with
    freeStruct := Function.update r.2.freeStruct nodeID
      ((r.2.freeStruct nodeID).freeToRemote pageNO).2
    latest := Function.update r.2.latest nodeID
      (Function.update (r.2.latest nodeID) pageNO none) })

end Node

end Comex
