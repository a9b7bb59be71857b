import Comex.Buddy.Serve
import Comex.Lib.Runs

/-!
# The cluster

Any number of nodes, each with a buddy allocator for the pages it offers and, for
every connection, the pages it has borrowed over it.  A node borrows with a
`PAGE_RQST`, is lent a block in a `PAGE_RPLY` and gives ranges back in a
`PAGE_FREE`; a message travels over a connection of its sender and is processed
at any later time, in any order.

## Main definitions

* `Network` — connections and options.
* `Message`, `Cluster` — what is in flight and what the nodes hold.
* `Step`, `step` — the steps of `comex_remote.h`, `comex_lib.h` and `COMEX_do_work`.
-/

namespace Comex

/-- The nodes' connections and options. -/
structure Network (ι : Type) where
  /-- The node behind `cbs[d]`. -/
  peer : ι → ℤ → ι
  /-- `ID_to_CB`. -/
  idToCB : ι → ι → ℤ
  /-- At the receiving end `ID_to_CB` of the sender's ID is a connection to it. -/
  back : ∀ i d, peer (peer i d) (idToCB (peer i d) i) = i
  /-- `COMEX_total_pages`. -/
  totalPages : ι → ℕ
  /-- `COMEX_refill`. -/
  refill : ι → ℕ
  /-- `COMEX_threshold`. -/
  threshold : ι → ℤ

/-- What a message says. A `PAGE_RQST` carries the sender's `COMEX_ID`. -/
inductive Body
  | pageRqst
  | pageRply (pageNO : ℤ) (size : ℕ)
  | pageFree (batch : FreeStruct)
  deriving DecidableEq, Repr

/-- A message, sent by a node over one of its connections. -/
structure Message (ι : Type) where
  src : ι
  cb : ℤ
  body : Body

/-- The state of the cluster. -/
structure Cluster (ι : Type) where
  buddy : ι → Buddy
  /-- The pages a node uses itself. -/
  used : ι → List ℤ
  /-- `COMEX_free_group[]` of every node. -/
  group : ι → ℤ → FreeGroup
  /-- The pages named by swap entries of type 8, by connection. -/
  entries : ι → ℤ → List ℤ
  /-- `COMEX_free_struct[]` of every node. -/
  batch : ι → ℤ → FreeStruct
  /-- The messages in flight. -/
  flight : List (Message ι)

/-- A step of some node. -/
inductive ClusterStep (ι : Type)
  /-- `COMEX_move_to_Remote` looks at the level of a free list. -/
  | request (i : ι) (d : ℤ)
  /-- `COMEX_move_to_Remote` takes a page for a swap entry. -/
  | takePage (i : ι) (d : ℤ)
  /-- A swap entry is dropped and `COMEX_free_to_remote` called for its page. -/
  | freeToRemote (i : ι) (d p : ℤ)
  /-- `COMEX_do_work` processes the `k`-th message in flight. -/
  | doWork (k : ℕ)
  /-- `COMEX_move_to_COMEX`. -/
  | moveToCOMEX (m : ι)
  /-- A local swap entry is dropped and `COMEX_free_page` called for its page. -/
  | freeLocal (m : ι) (p : ℤ)

namespace Cluster

variable {ι : Type} [DecidableEq ι]

/-- Assign to one connection of one node. -/
def set₂ {β : Type} (f : ι → ℤ → β) (i : ι) (d : ℤ) (b : β) : ι → ℤ → β :=
  fun i' d' => if i' = i ∧ d' = d then b else f i' d'

/-- `COMEX_do_work`, with the message off the wire. -/
def process (net : Network ι) (s : Cluster ι) (msg : Message ι) : Cluster ι :=
  let r := net.peer msg.src msg.cb
  let d := net.idToCB r msg.src
  match msg.body with
  | .pageRqst =>
    let a := (s.buddy r).pagesRequest (net.refill r)
    { s with
      buddy := Function.update s.buddy r a.2
      flight := s.flight ++ [⟨r, d, .pageRply a.1.1 a.1.2⟩] }
  | .pageRply pageNO size =>
    { s with group := set₂ s.group r d ((s.group r d).pageReceive (net.refill r) pageNO size) }
  | .pageFree f => { s with buddy := Function.update s.buddy r ((s.buddy r).freeBatch f) }

/-- One step, if it is enabled. -/
def step (net : Network ι) (s : Cluster ι) : ClusterStep ι → Option (Cluster ι)
  | .request i d =>
    let r := (s.group i d).request (net.threshold i)
    some { s with
      group := set₂ s.group i d r.2
      flight := if r.1 then s.flight ++ [⟨i, d, .pageRqst⟩] else s.flight }
  | .takePage i d =>
    if 0 < (s.group i d).totalPage then
      (s.group i d).freelistGetpage.map fun (p, g) =>
        { s with
          group := set₂ s.group i d g
          entries := set₂ s.entries i d (p :: s.entries i d) }
    else none
  | .freeToRemote i d p =>
    if p ∈ s.entries i d then
      let r := (s.batch i d).freeToRemote p
      some { s with
        entries := set₂ s.entries i d ((s.entries i d).erase p)
        batch := set₂ s.batch i d r.2
        flight := s.flight ++ r.1.toList.map fun f => ⟨i, d, .pageFree f⟩ }
    else none
  | .doWork k =>
    s.flight[k]?.map fun msg => process net { s with flight := s.flight.eraseIdx k } msg
  | .moveToCOMEX m =>
    match (s.buddy m).rmqueueSmallest 0 with
    | (none, b) => some { s with buddy := Function.update s.buddy m b }
    | (some p, b) =>
      some { s with
        buddy := Function.update s.buddy m b
        used := if p < b.totalPages then Function.update s.used m (p :: s.used m) else s.used }
  | .freeLocal m p =>
    if p ∈ s.used m then
      some { s with
        buddy := Function.update s.buddy m ((s.buddy m).freePage p.toNat 0)
        used := Function.update s.used m ((s.used m).erase p) }
    else none

/-- Every allocator is one that calls can lead to, what is not free is in use, and
nothing has been borrowed. -/
structure Start (net : Network ι) (s : Cluster ι) : Prop where
  buddy : ∀ m, Buddy.Reach (net.totalPages m) (s.buddy m)
  used : ∀ (m : ι) (p : ℤ), (s.used m).count p =
    if 0 ≤ p ∧ p < net.totalPages m ∧ ((s.buddy m).page p.toNat).cmxCntr = 1 then 1 else 0
  group : ∀ i d, s.group i d = .init
  entries : ∀ i d, s.entries i d = []
  batch : ∀ i d, s.batch i d = .clean
  flight : s.flight = []

/-- The runs of a cluster. -/
def machine (net : Network ι) : Machine (Cluster ι) (ClusterStep ι) where
  init := Start net
  step s a s' := s.step net a = some s'

/-- The states of a cluster, whatever its nodes do and in whatever order. -/
abbrev Reach (net : Network ι) (s : Cluster ι) : Prop :=
  Machine.Reach (machine net) Machine.free s

end Cluster
end Comex
