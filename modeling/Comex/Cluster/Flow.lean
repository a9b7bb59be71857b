import Comex.Cluster.Lossy
import Comex.Cluster.Config
import Comex.Lib.Throttle

/-!
# Requests for pages

`COMEX_move_to_Remote` asks a memory node for a block when the list for it is low, and
counts `back_off` down before it asks again.  A request turns into a reply at the memory
node, and the reply sets `back_off` anew: to 0 when it brings a large block, and to
100000 when it brings a small one or none.

## Main definitions

* `Books`, `Flow` — the cluster with what has happened at every connection.
* `pending` — the requests and replies of a connection in flight.

## Main results

* `step_cases` — what a step does at a connection.
* `reach_pending` — **a request is answered once, and few are unanswered.**
* `requests_since` — **a list that stays low is asked for again.**
-/

namespace Comex

open Throttle (Count Budget)

/-- Whether a reply leaves `back_off` at 0. -/
def FreeGroup.refills (refill pageNO : ℤ) (groupSize : ℕ) : Bool :=
  0 ≤ pageNO ∧ ¬ (groupSize ≤ refill - 2)

/-- What has happened at a connection. -/
structure Books where
  /-- How often `COMEX_move_to_Remote` has found the list low. -/
  probes : ℕ
  requests : ℕ
  replies : ℕ
  /-- The replies that left `back_off` at 0. -/
  refills : ℕ
  deriving DecidableEq, Repr

/-- A cluster and what has happened at its connections. -/
structure Flow (ι : Type) where
  cluster : Cluster ι
  books : ι → ℤ → Books

section Messages

variable {ι : Type} (net : Network ι) (i : ι) (d : ℤ)

/-- A reply for a connection. -/
def Message.Answers (msg : Message ι) : Prop :=
  msg.isRply = true ∧ msg.receiver net = i ∧ msg.connection net = d

/-- A request of a connection or a reply for it. -/
def Message.Pends (msg : Message ι) : Prop :=
  (msg.body = .pageRqst ∧ msg.src = i ∧ msg.cb = d) ∨ msg.Answers net i d

variable [DecidableEq ι]

instance (msg : Message ι) : Decidable (msg.Answers net i d) :=
  inferInstanceAs (Decidable (_ ∧ _))

instance (msg : Message ι) : Decidable (msg.Pends net i d) :=
  inferInstanceAs (Decidable (_ ∨ _))

/-- The requests and replies of a connection in flight. -/
def Cluster.pending (s : Cluster ι) : ℕ := s.flight.countP fun msg => msg.Pends net i d

end Messages

namespace Flow

variable {ι : Type} [DecidableEq ι]

/-- The books of a connection after a step. -/
def entry (net : Network ι) (s : Cluster ι) (i : ι) (d : ℤ) (b : Books) : ClusterStep ι → Books
  | .request j e =>
    if i = j ∧ d = e ∧ (s.group i d).totalPage ≤ net.threshold i then
      { b with
        probes := b.probes + 1
        requests := b.requests + ((s.group i d).request (net.threshold i)).1.toNat }
    else b
  | .doWork k =>
    match s.flight[k]? with
    | some msg =>
      match msg.body with
      | .pageRply pageNO size =>
        if msg.Answers net i d then
          { b with
            replies := b.replies + 1
            refills := b.refills + (FreeGroup.refills (net.refill i) pageNO size).toNat }
        else b
      | _ => b
    | none => b
  | _ => b

/-- One step, if it is enabled. -/
def step (net : Network ι) (f : Flow ι) (a : ClusterStep ι) : Option (Flow ι) :=
  (f.cluster.step net a).map fun s =>
    { cluster := s, books := fun i d => entry net f.cluster i d (f.books i d) a }

/-- A cluster at its start, with nothing in the books. -/
def Start (net : Network ι) (f : Flow ι) : Prop :=
  Cluster.Start net f.cluster ∧ ∀ i d, f.books i d = ⟨0, 0, 0, 0⟩

/-- The runs of a cluster with its books. -/
def machine (net : Network ι) : Machine (Flow ι) (ClusterStep ι) where
  init := Start net
  step f a f' := f.step net a = some f'

/-- The states a cluster can reach, with its books. -/
abbrev Reach (net : Network ι) (f : Flow ι) : Prop :=
  Machine.Reach (machine net) Machine.free f

end Flow

/-- A connection that no other shares its peer with. -/
def Network.Sole {ι : Type} (net : Network ι) (i : ι) (d : ℤ) : Prop :=
  ∀ e, net.peer i e = net.peer i d → e = d

/-! ### The generated configurations -/

namespace Config

variable {total : ℕ}

theorem length_others {node : ℕ} (h1 : 1 ≤ node) (h2 : node ≤ total) :
    (others total node).length = total - 1 := by
  rw [others_eq h1 h2, List.length_append, List.length_range', List.length_range']
  omega

/-- No two connections of a node lead to the same peer. -/
theorem network_sole {totalPages refill : Fin total → ℕ} {threshold : Fin total → ℤ}
    (i : Fin total) {d : ℤ} (h0 : 0 ≤ d) (h1 : d < total - 1) :
    (network total totalPages refill threshold).Sole i d := by
  intro e he
  have hlen : (others total (i + 1)).length = total - 1 := length_others (by omega) (by omega)
  have hd : (others total (i + 1))[d.toNat]? = some _ :=
    List.getElem?_eq_getElem (by omega : d.toNat < _)
  obtain ⟨hpos, -, hne⟩ := getElem?_others hd
  have hpeer : remoteNodeID total (i + 1) d = (others total (i + 1))[d.toNat] := by
    rw [remoteNodeID, if_pos h0, hd]
    rfl
  have heq : remoteNodeID total (i + 1) e = remoteNodeID total (i + 1) d := by
    have hval := congrArg Fin.val he
    have hbe := @remoteNodeID_bounds total (i + 1) (by omega) (by omega) e
    have hbd := @remoteNodeID_bounds total (i + 1) (by omega) (by omega) d
    simp only [network] at hval
    omega
  rw [hpeer] at heq
  -- below zero and past the end there is no peer, so `e` is the index of one, and of this one
  by_cases he0 : 0 ≤ e
  · rw [remoteNodeID, if_pos he0] at heq
    cases hfind : (others total (i + 1))[e.toNat]? with
    | none =>
      rw [hfind] at heq
      exact absurd heq.symm hne
    | some b =>
      rw [hfind, Option.getD_some] at heq
      rw [heq] at hfind
      have hinj := (List.getElem?_inj (by omega : d.toNat < _) (others_nodup total (i + 1))).mp
        (hd.trans hfind.symm)
      omega
  · rw [remoteNodeID, if_neg he0] at heq
    exact absurd heq.symm hne

end Config

namespace Flow

/-- A start of any network: every page is in use where it belongs. -/
def allUsed {ι : Type} (net : Network ι) : Flow ι where
  cluster :=
    { buddy := fun m => .initEmpty (net.totalPages m)
      used := fun m => Ledger.span 0 (net.totalPages m)
      group := fun _ _ => .init
      entries := fun _ _ => []
      batch := fun _ _ => .clean
      flight := [] }
  books _ _ := ⟨0, 0, 0, 0⟩

theorem start_allUsed {ι : Type} (net : Network ι) : Start net (allUsed net) := by
  refine ⟨⟨fun _ => .start rfl, fun m p => ?_, fun _ _ => rfl, fun _ _ => rfl, fun _ _ => rfl, rfl⟩,
    fun _ _ => rfl⟩
  simp only [allUsed, Ledger.count_span, Buddy.initEmpty, Int.zero_add, and_true]

/-- Two nodes with the configurations of `gen_myconfig.py`. -/
def pair : Network (Fin 2) := Config.network 2 (fun _ => 4) (fun _ => 0) fun _ => 0

end Flow

/-! ### The back-off -/

section BackOff

variable {g : FreeGroup} {threshold refill pageNO : ℤ} {size : ℕ}

/-- A look at a low list is an attempt of a throttle with period 10000. -/
theorem FreeGroup.request_attempt (hlow : g.totalPage ≤ threshold) (h0 : 0 ≤ g.backOff) :
    (g.request threshold).1 = (Throttle.attempt 10000 g.backOff.toNat).1 ∧
      (g.request threshold).2.backOff = (Throttle.attempt 10000 g.backOff.toNat).2 ∧
      (g.request threshold).2.totalPage = g.totalPage := by
  unfold FreeGroup.request
  rw [if_pos hlow]
  by_cases hzero : g.backOff ≤ 0
  · rw [if_pos hzero, show g.backOff.toNat = 0 by omega, Throttle.attempt_zero]
    exact ⟨rfl, rfl, rfl⟩
  · rw [if_neg hzero, Throttle.attempt_of_pos 10000 (by omega)]
    refine ⟨rfl, ?_, rfl⟩
    show g.backOff - 1 = ((g.backOff.toNat - 1 : ℕ) : ℤ)
    omega

theorem FreeGroup.request_of_high (hhigh : ¬ g.totalPage ≤ threshold) :
    g.request threshold = (false, g) := if_neg hhigh

/-- A reply sets `back_off`. -/
theorem FreeGroup.pageReceive_backOff (g : FreeGroup) (refill pageNO : ℤ) (size : ℕ) :
    (g.pageReceive refill pageNO size).backOff =
      if FreeGroup.refills refill pageNO size then 0 else 100000 := by
  unfold FreeGroup.pageReceive FreeGroup.refills
  by_cases hp : 0 ≤ pageNO
  · have hnonneg : ¬ pageNO < 0 := by omega
    by_cases hsmall : (size : ℤ) ≤ refill - 2 <;> simp [hp, hnonneg, hsmall]
  · have hneg : pageNO < 0 := by omega
    simp [hp, hneg]

theorem FreeGroup.freelistGetpage_level {p : ℤ} {g' : FreeGroup}
    (hget : g.freelistGetpage = some (p, g')) :
    g'.backOff = g.backOff ∧ g'.totalPage ≤ g.totalPage := by
  unfold FreeGroup.freelistGetpage at hget
  split at hget
  · exact absurd hget (by simp)
  · simp only [Option.some.injEq, Prod.mk.injEq] at hget
    obtain ⟨-, rfl⟩ := hget
    exact ⟨rfl, by simp only; omega⟩

end BackOff

/-! ### What a step does at a connection -/

namespace Flow

variable {ι : Type} [DecidableEq ι] {net : Network ι} {i : ι} {d : ℤ}

omit [DecidableEq ι] in
/-- A message in flight and the others. -/
theorem countP_erase {l : List (Message ι)} {k : ℕ} {msg : Message ι} (hk : l[k]? = some msg)
    (P : Message ι → Bool) : l.countP P = (l.eraseIdx k).countP P + (P msg).toNat := by
  obtain ⟨hlt, rfl⟩ := List.getElem?_eq_some_iff.mp hk
  rw [← (List.getElem_cons_eraseIdx_perm hlt).countP_eq P, List.countP_cons]
  cases P l[k] <;> rfl

omit [DecidableEq ι] in
/-- `ID_to_CB` of a peer is a connection to it. -/
theorem peer_idToCB (net : Network ι) (i : ι) (d : ℤ) :
    net.peer i (net.idToCB i (net.peer i d)) = net.peer i d := by
  have hback := net.back (net.peer i d) (net.idToCB (net.peer i d) i)
  rwa [net.back i d] at hback

omit [DecidableEq ι] in
/-- The reply to a request is for the connection the request came over. -/
theorem answers_iff (hsole : net.Sole i d) {j : ι} {e : ℤ} (pageNO : ℤ) (size : ℕ) :
    Message.Answers net i d ⟨net.peer j e, net.idToCB (net.peer j e) j, .pageRply pageNO size⟩ ↔
      j = i ∧ e = d := by
  have hreceiver : Message.receiver net
      ⟨net.peer j e, net.idToCB (net.peer j e) j, .pageRply pageNO size⟩ = j := net.back j e
  unfold Message.Answers Message.connection
  rw [hreceiver]
  constructor
  · rintro ⟨-, rfl, hd⟩
    refine ⟨rfl, hsole e ?_⟩
    rw [← peer_idToCB net j e, hd]
  · rintro ⟨rfl, rfl⟩
    exact ⟨rfl, rfl, hsole _ (peer_idToCB net j e)⟩

variable {f f' : Flow ι}

/-- Nothing happens at a connection, or pages are taken from its list. -/
structure Quiet (net : Network ι) (i : ι) (d : ℤ) (f f' : Flow ι) : Prop where
  books : f'.books i d = f.books i d
  backOff : (f'.cluster.group i d).backOff = (f.cluster.group i d).backOff
  totalPage : (f'.cluster.group i d).totalPage ≤ (f.cluster.group i d).totalPage
  pending : net.Sole i d → f'.cluster.pending net i d = f.cluster.pending net i d

/-- `COMEX_move_to_Remote` finds the list low. -/
structure Probe (net : Network ι) (i : ι) (d : ℤ) (f f' : Flow ι) : Prop where
  low : (f.cluster.group i d).totalPage ≤ net.threshold i
  books : f'.books i d = { f.books i d with
    probes := (f.books i d).probes + 1
    requests := (f.books i d).requests +
      ((f.cluster.group i d).request (net.threshold i)).1.toNat }
  group : f'.cluster.group i d = ((f.cluster.group i d).request (net.threshold i)).2
  pending : f'.cluster.pending net i d =
    f.cluster.pending net i d + ((f.cluster.group i d).request (net.threshold i)).1.toNat

/-- A reply is processed. -/
structure Reply (net : Network ι) (i : ι) (d : ℤ) (f f' : Flow ι) (pageNO : ℤ) (size : ℕ) :
    Prop where
  books : f'.books i d = { f.books i d with
    replies := (f.books i d).replies + 1
    refills := (f.books i d).refills + (FreeGroup.refills (net.refill i) pageNO size).toNat }
  group : f'.cluster.group i d =
    (f.cluster.group i d).pageReceive (net.refill i) pageNO size
  pending : f'.cluster.pending net i d + 1 = f.cluster.pending net i d

theorem quiet_of_eq (hbooks : f'.books i d = f.books i d)
    (hgroup : f'.cluster.group i d = f.cluster.group i d)
    (hpending : net.Sole i d → f'.cluster.pending net i d = f.cluster.pending net i d) :
    Quiet net i d f f' :=
  ⟨hbooks, by rw [hgroup], by rw [hgroup], hpending⟩

/-- A look at a list: nothing for another connection or a list that is not low, else a probe. -/
theorem step_request {j : ι} {e : ℤ} (hs : f.step net (.request j e) = some f') :
    Quiet net i d f f' ∨ Probe net i d f f' := by
  obtain ⟨c, hc, rfl⟩ := Option.map_eq_some_iff.mp hs
  obtain rfl := Option.some.inj hc
  have hflight : ∀ (r : Bool), List.countP (fun msg => decide (Message.Pends net i d msg))
      (if r then f.cluster.flight ++ [⟨j, e, .pageRqst⟩] else f.cluster.flight) =
      f.cluster.pending net i d + if i = j ∧ d = e then r.toNat else 0 := by
    intro r
    have hpends : (Message.Pends net i d ⟨j, e, .pageRqst⟩) ↔ i = j ∧ d = e := by
      simp [Message.Pends, Message.Answers, Message.isRply, eq_comm]
    cases r
    · simp [Cluster.pending]
    · rw [if_pos rfl, List.countP_append]
      simp [Cluster.pending, hpends]
  by_cases hid : i = j ∧ d = e
  · -- this connection: the level of its list decides
    obtain ⟨rfl, rfl⟩ := hid
    by_cases hlow : (f.cluster.group i d).totalPage ≤ net.threshold i
    · right
      refine ⟨hlow, if_pos ⟨rfl, rfl, hlow⟩, Cluster.set₂_self _ _ _ _, ?_⟩
      exact (hflight _).trans (by rw [if_pos ⟨rfl, rfl⟩])
    · left
      refine quiet_of_eq (if_neg fun hc => hlow hc.2.2) ?_ fun _ => ?_
      · exact (Cluster.set₂_self _ _ _ _).trans
          (by rw [FreeGroup.request_of_high hlow])
      · apply (hflight _).trans
        rw [FreeGroup.request_of_high hlow]
        simp
  · left
    refine quiet_of_eq (if_neg fun hc => hid ⟨hc.1, hc.2.1⟩) (Cluster.set₂_of_ne _ _ hid)
      fun _ => ?_
    exact (hflight _).trans (by rw [if_neg hid, Nat.add_zero])

/-- A message being processed: a reply for the connection, or nothing for it.  A request that is
processed turns into its reply, so the number in flight stays. -/
theorem step_doWork {k : ℕ} (hs : f.step net (.doWork k) = some f') :
    Quiet net i d f f' ∨ ∃ pageNO size, Reply net i d f f' pageNO size ∧
      ∃ msg, f.cluster.flight[k]? = some msg ∧ msg.Answers net i d := by
  obtain ⟨c, hc, rfl⟩ := Option.map_eq_some_iff.mp hs
  obtain ⟨msg, hk, rfl⟩ := Option.map_eq_some_iff.mp hc
  have hcount := countP_erase hk fun msg => decide (msg.Pends net i d)
  cases hbody : msg.body with
  | pageRqst =>
    left
    refine quiet_of_eq ?_ ?_ fun hsole => ?_
    · simp only [entry, hk, hbody]
    · simp only [Cluster.process, hbody]
    · -- the request goes and its reply comes
      have hpends : msg.Pends net i d ↔ msg.src = i ∧ msg.cb = d := by
        simp [Message.Pends, Message.Answers, Message.isRply, hbody]
      have hreply : ∀ pageNO size, Message.Pends net i d ⟨net.peer msg.src msg.cb,
          net.idToCB (net.peer msg.src msg.cb) msg.src, .pageRply pageNO size⟩ ↔
          msg.src = i ∧ msg.cb = d := fun pageNO size => by
        rw [← answers_iff hsole pageNO size]
        simp [Message.Pends]
      simp only [Cluster.pending, Cluster.process, hbody, List.countP_append, List.countP_singleton,
        hreply, hcount, hpends]
      split <;> simp_all
  | pageRply pageNO size =>
    by_cases hanswers : msg.Answers net i d
    · right
      obtain ⟨hreceiver, hconnection⟩ := hanswers.2
      have hpends : msg.Pends net i d := Or.inr hanswers
      refine ⟨pageNO, size, ⟨?_, ?_, ?_⟩, msg, hk, hanswers⟩
      · simp only [entry, hk, hbody, if_pos hanswers]
      · rw [← hconnection, ← hreceiver]
        simp only [Cluster.process, hbody]
        exact Cluster.set₂_self _ _ _ _
      · simp only [Cluster.pending, Cluster.process, hbody, hcount, hpends]
        rfl
    · -- a reply for another connection
      left
      refine quiet_of_eq ?_ ?_ fun _ => ?_
      · simp only [entry, hk, hbody, if_neg hanswers]
      · simp only [Cluster.process, hbody]
        refine Cluster.set₂_of_ne _ _ fun hc => hanswers ⟨?_, hc.1.symm, ?_⟩
        · simp [Message.isRply, hbody]
        · exact hc.2.symm
      · have hpends : ¬ msg.Pends net i d := by
          simp [Message.Pends, hbody, hanswers]
        simp only [Cluster.pending, Cluster.process, hbody, hcount, hpends]
        rfl
  | pageFree batch =>
    left
    refine quiet_of_eq ?_ ?_ fun _ => ?_
    · simp only [entry, hk, hbody]
    · simp only [Cluster.process, hbody]
    · have hpends : ¬ msg.Pends net i d := by
        simp [Message.Pends, Message.Answers, Message.isRply, hbody]
      simp only [Cluster.pending, Cluster.process, hbody, hcount, hpends]
      rfl

/-- **What a step does at a connection**: nothing, a look at a low list or a reply.  Only these
two reach `back_off`; every other step leaves it, and takes pages off the list at most. -/
theorem step_cases {a : ClusterStep ι} (hs : f.step net a = some f') (i : ι) (d : ℤ) :
    Quiet net i d f f' ∨ Probe net i d f f' ∨ ∃ pageNO size, Reply net i d f f' pageNO size ∧
      ∃ k msg, a = .doWork k ∧ f.cluster.flight[k]? = some msg ∧ msg.Answers net i d := by
  cases a with
  | request j e => exact (step_request hs).imp_right Or.inl
  | doWork k =>
    rcases step_doWork hs with hquiet | ⟨pageNO, size, hreply, msg, hk, hanswers⟩
    · exact Or.inl hquiet
    · exact Or.inr (Or.inr ⟨pageNO, size, hreply, k, msg, rfl, hk, hanswers⟩)
  | takePage j e =>
    left
    obtain ⟨c, hc, rfl⟩ := Option.map_eq_some_iff.mp hs
    simp only [Cluster.step] at hc
    split at hc
    swap
    · exact absurd hc (by simp)
    obtain ⟨⟨p, g⟩, hget, rfl⟩ := Option.map_eq_some_iff.mp hc
    obtain ⟨hbackOff, htotal⟩ := FreeGroup.freelistGetpage_level hget
    by_cases hid : i = j ∧ d = e
    · -- a page comes off this list, which never raises its level
      obtain ⟨rfl, rfl⟩ := hid
      refine ⟨rfl, ?_, ?_, fun _ => rfl⟩
      · simp only [Cluster.set₂_self, hbackOff]
      · simp only [Cluster.set₂_self, htotal]
    · exact quiet_of_eq rfl (Cluster.set₂_of_ne _ _ hid) fun _ => rfl
  | freeToRemote j e p =>
    left
    obtain ⟨c, hc, rfl⟩ := Option.map_eq_some_iff.mp hs
    simp only [Cluster.step] at hc
    split at hc
    swap
    · exact absurd hc (by simp)
    obtain rfl := Option.some.inj hc
    refine quiet_of_eq rfl rfl fun _ => ?_
    -- all that is sent is a batch of freed pages
    simp only [Cluster.pending, List.countP_append, Nat.add_eq_left, List.countP_eq_zero]
    intro msg hmsg
    obtain ⟨batch, -, rfl⟩ := List.mem_map.mp hmsg
    simp [Message.Pends, Message.Answers, Message.isRply]
  | moveToCOMEX m =>
    left
    obtain ⟨c, hc, rfl⟩ := Option.map_eq_some_iff.mp hs
    simp only [Cluster.step] at hc
    split at hc
    · obtain rfl := Option.some.inj hc
      exact quiet_of_eq rfl rfl fun _ => rfl
    · obtain rfl := Option.some.inj hc
      exact quiet_of_eq rfl rfl fun _ => rfl
  | freeLocal m p =>
    left
    obtain ⟨c, hc, rfl⟩ := Option.map_eq_some_iff.mp hs
    simp only [Cluster.step] at hc
    split at hc
    swap
    · exact absurd hc (by simp)
    obtain rfl := Option.some.inj hc
    exact quiet_of_eq rfl rfl fun _ => rfl

/-! ### Few requests are unanswered -/

/-- `back_off` throttles the requests, and every one of them is in flight, or answered.  The
budget counts a request for every 10001 probes, and one more for each reply that clears
`back_off`. -/
structure Inv (net : Network ι) (i : ι) (d : ℤ) (f : Flow ι) : Prop where
  backOff : 0 ≤ (f.cluster.group i d).backOff ∧ (f.cluster.group i d).backOff ≤ 100000
  budget : Budget 10000 (f.books i d).probes (f.books i d).requests (f.books i d).refills
    (f.cluster.group i d).backOff.toNat
  refills : (f.books i d).refills ≤ (f.books i d).replies
  pending : net.Sole i d →
    f.cluster.pending net i d + (f.books i d).replies = (f.books i d).requests

theorem Inv.start (h : Start net f) (i : ι) (d : ℤ) : Inv net i d f := by
  obtain ⟨hcluster, hbooks⟩ := h
  have hgroup := hcluster.group i d
  refine ⟨?_, ?_, ?_, fun _ => ?_⟩
  · rw [hgroup]
    exact ⟨le_rfl, by decide⟩
  · rw [hbooks, hgroup]
    exact Budget.start 10000 0
  · rw [hbooks]
  · rw [hbooks, Cluster.pending, hcluster.flight]
    rfl

theorem Inv.step (h : Inv net i d f) {a : ClusterStep ι} (hs : f.step net a = some f') :
    Inv net i d f' := by
  rcases step_cases hs i d with hq | hp | ⟨pageNO, size, hr, -⟩
  · refine ⟨?_, ?_, ?_, fun hsole => ?_⟩
    · rw [hq.backOff]
      exact h.backOff
    · rw [hq.books, hq.backOff]
      exact h.budget
    · rw [hq.books]
      exact h.refills
    · rw [hq.books, hq.pending hsole]
      exact h.pending hsole
  · obtain ⟨hpass, hback, -⟩ := FreeGroup.request_attempt hp.low h.backOff.1
    have hle : (Throttle.attempt 10000 (f.cluster.group i d).backOff.toNat).2 ≤ 100000 := by
      have := h.backOff.2
      unfold Throttle.attempt
      split
      · decide
      · simp only
        omega
    refine ⟨?_, ?_, ?_, fun hsole => ?_⟩
    · rw [hp.group, hback]
      omega
    · rw [hp.books, hp.group, hback, hpass, Int.toNat_natCast]
      exact h.budget.attempt
    · rw [hp.books]
      exact h.refills
    · have := h.pending hsole
      rw [hp.books, hp.pending]
      simp only
      omega
  · refine ⟨?_, ?_, ?_, fun hsole => ?_⟩
    · rw [hr.group, FreeGroup.pageReceive_backOff]
      split <;> decide
    · rw [hr.books, hr.group, FreeGroup.pageReceive_backOff]
      cases FreeGroup.refills (net.refill i) pageNO size
      · -- a small block, or none, sets `back_off` to 100000
        exact h.budget.raise (by decide)
      · exact h.budget.clear
    · have := h.refills
      have := Bool.toNat_le (FreeGroup.refills (net.refill i) pageNO size)
      rw [hr.books]
      simp only
      omega
    · have := h.pending hsole
      have := hr.pending
      rw [hr.books]
      simp only
      omega

theorem reach_inv (h : Reach net f) (i : ι) (d : ℤ) : Inv net i d f :=
  h.invariant (I := Inv net i d) (fun _ h0 => Inv.start h0 i d) fun _ _ _ _ hinv _ hs =>
    hinv.step hs

/-- **A request is answered once, and few are unanswered**: the requests of a connection
are those in flight, as requests or as replies, and those answered, and at most one for
every 10001 times the list was low is in flight. -/
theorem reach_pending (h : Reach net f) (hsole : net.Sole i d) :
    f.cluster.pending net i d + (f.books i d).replies = (f.books i d).requests ∧
      f.cluster.pending net i d ≤ ((f.books i d).probes + 10000) / 10001 := by
  have hinv := reach_inv h i d
  have hpending := hinv.pending hsole
  have hle := hinv.budget.le
  have hrefills := hinv.refills
  refine ⟨hpending, ?_⟩
  omega

/-- Node 2 frees a page, node 1 asks, gets the page, uses it and asks again: one request has
been answered, and the reply to the other is in flight. -/
theorem reach_pending_pair : ∃ f, Reach pair f ∧ f.books 0 0 = ⟨2, 2, 1, 1⟩ ∧
    f.cluster.pending pair 0 0 = 1 ∧
      f.cluster.pending pair 0 0 + (f.books 0 0).replies = (f.books 0 0).requests ∧
        f.cluster.pending pair 0 0 ≤ ((f.books 0 0).probes + 10000) / 10001 := by
  obtain ⟨f, hexec, hbooks, hpending⟩ : ∃ f, Machine.exec Machine.free (step pair) (allUsed pair)
      [.freeLocal 1 0, .request 0 0, .doWork 0, .doWork 0, .takePage 0 0, .request 0 0,
        .doWork 0] = some f ∧
      f.books 0 0 = ⟨2, 2, 1, 1⟩ ∧ f.cluster.pending pair 0 0 = 1 :=
    ⟨_, rfl, by decide, by decide⟩
  have hreach : Reach pair f :=
    Machine.Reach.of_exec (M := machine pair) (fun _ _ _ h => h) (.start (start_allUsed pair))
      hexec
  exact ⟨f, hreach, hbooks, hpending,
    reach_pending hreach (Config.network_sole 0 (by decide) (by decide))⟩

/-! ### A low list is asked for -/

/-- No reply for the connection is processed. -/
def Unanswered (net : Network ι) (i : ι) (d : ℤ) (f : Flow ι) : ClusterStep ι → Prop
  | .doWork k => ∀ msg ∈ f.cluster.flight[k]?, ¬ msg.Answers net i d
  | _ => True

/-- The runs that go on from `f` with no reply for the connection. -/
abbrev Later (net : Network ι) (i : ι) (d : ℤ) (f t : Flow ι) : Prop :=
  Machine.Reach ((machine net).since f) (Unanswered net i d) t

/-- The list stays low, and `back_off` has counted what has happened since `f`. -/
structure Since (net : Network ι) (i : ι) (d : ℤ) (f t : Flow ι) : Prop where
  low : (t.cluster.group i d).totalPage ≤ net.threshold i
  backOff : 0 ≤ (t.cluster.group i d).backOff
  count : ∃ n k, (t.books i d).probes = (f.books i d).probes + n ∧
    (t.books i d).requests = (f.books i d).requests + k ∧
    Count 10000 (f.cluster.group i d).backOff.toNat n k (t.cluster.group i d).backOff.toNat

omit [DecidableEq ι] in
theorem Since.start (h0 : 0 ≤ (f.cluster.group i d).backOff)
    (hlow : (f.cluster.group i d).totalPage ≤ net.threshold i) : Since net i d f f :=
  ⟨hlow, h0, 0, 0, rfl, rfl, Count.start 10000 _⟩

theorem Since.step {t t' : Flow ι} (h : Since net i d f t) {a : ClusterStep ι}
    (hno : Unanswered net i d t a) (hs : t.step net a = some t') : Since net i d f t' := by
  obtain ⟨hlow, h0, n, k, hprobes, hrequests, hcount⟩ := h
  rcases step_cases hs i d with hq | hp | ⟨pageNO, size, hr, m, msg, rfl, hm, hanswers⟩
  · refine ⟨?_, ?_, n, k, ?_, ?_, ?_⟩
    · exact le_trans hq.totalPage hlow
    · rw [hq.backOff]
      exact h0
    · rw [hq.books, hprobes]
    · rw [hq.books, hrequests]
    · rw [hq.backOff]
      exact hcount
  · obtain ⟨hpass, hback, htotal⟩ := FreeGroup.request_attempt hp.low h0
    refine ⟨?_, ?_, n + 1,
      k + (Throttle.attempt 10000 (t.cluster.group i d).backOff.toNat).1.toNat, ?_, ?_, ?_⟩
    · rw [hp.group, htotal]
      exact hlow
    · rw [hp.group, hback]
      exact Int.natCast_nonneg _
    · rw [hp.books]
      simp only [hprobes, Nat.add_assoc]
    · rw [hp.books]
      simp only [hrequests, hpass, Nat.add_assoc]
    · rw [hp.group, hback, Int.toNat_natCast]
      exact hcount.attempt
  · exact absurd hanswers (hno msg hm)

/-- **A list that stays low is asked for again**: while no reply comes, the looks at it
ask exactly when `back_off` has run down, so the 100001st asks at the latest. -/
theorem requests_since {t : Flow ι} (h : Reach net f)
    (hlow : (f.cluster.group i d).totalPage ≤ net.threshold i) (ht : Later net i d f t) :
    ∃ n, (t.books i d).probes = (f.books i d).probes + n ∧
      (t.books i d).requests = (f.books i d).requests +
        (n + 10000 - (f.cluster.group i d).backOff.toNat) / 10001 ∧
      (100000 < n → (f.books i d).requests < (t.books i d).requests) := by
  obtain ⟨h0, hle⟩ := (reach_inv h i d).backOff
  have hsince : Since net i d f t := by
    refine Machine.Reach.invariant (I := Since net i d f) ht (fun t heq => ?_)
      fun _ _ _ _ hinv hno hs => hinv.step hno hs
    rw [show t = f from heq]
    exact Since.start h0 hlow
  obtain ⟨n, k, hprobes, hrequests, hcount⟩ := hsince.count
  have hk := hcount.eq_div
  refine ⟨n, hprobes, by rw [hrequests, hk], fun hn => ?_⟩
  omega

/-- Two looks at an empty list, and one request. -/
theorem requests_since_pair : ∃ t, Later pair 0 0 (allUsed pair) t ∧
    (t.books 0 0).requests = 1 ∧ ∃ n, (t.books 0 0).probes = 0 + n ∧
      (t.books 0 0).requests = 0 + (n + 10000 - 0) / 10001 ∧
      (100000 < n → 0 < (t.books 0 0).requests) := by
  obtain ⟨s, hs⟩ : ∃ s, (allUsed pair).step pair (.request 0 0) = some s := ⟨_, rfl⟩
  obtain ⟨t, ht, hrequests⟩ : ∃ t, s.step pair (.request 0 0) = some t ∧
      (t.books 0 0).requests = 1 := by
    obtain rfl := Option.some.inj hs
    exact ⟨_, rfl, by decide⟩
  have hlater : Later pair 0 0 (allUsed pair) t :=
    .next (.next (.start rfl) (show Unanswered pair 0 0 _ (.request 0 0) from trivial) hs)
      (show Unanswered pair 0 0 _ (.request 0 0) from trivial) ht
  exact ⟨t, hlater, hrequests,
    requests_since (.start (start_allUsed pair)) (by decide) hlater⟩

end Flow
end Comex
